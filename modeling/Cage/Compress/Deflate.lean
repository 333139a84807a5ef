import Cage.Lib.Bits
import Cage.Lib.Canonical

/-!
RFC 1951 as a relation between blocks and the bits that encode them. The
relation comes in two strengths. With `rfc := true` it is the format: code
lengths that form prefix codes, at most 286 and 30 of them, runs that end with
the vector, and a correct `NLEN`. With `rfc := false` these conditions are
dropped, which is as much as the decoder asks of its input; at the end of its
data the decoder does not even notice a missing `NLEN`.
-/

namespace Cage.Compress

open Lib.Bits Lib.Canonical

inductive Token where
  | lit (b : UInt8)
  | copy (length distance : Nat)
  deriving DecidableEq, Repr

/-- The bytes of a token after `hist`; a copy longer than its distance repeats
the bytes it has itself produced. -/
def Token.bytes (hist : List UInt8) : Token → List UInt8
  | .lit b => [b]
  | .copy n d => (List.range n).map fun i => hist.getD (hist.length - d + i % d) 0

/-- A back-reference stays inside the bytes produced so far. -/
def Token.Valid (hist : List UInt8) : Token → Prop
  | .lit _ => True
  | .copy _ d => 1 ≤ d ∧ d ≤ hist.length

def tokensBytes (hist : List UInt8) : List Token → List UInt8
  | [] => []
  | t :: ts => t.bytes hist ++ tokensBytes (hist ++ t.bytes hist) ts

/-- Base length and number of extra bits of the length symbols from 257 on. -/
def lengthClasses : List (Nat × Nat) :=
  [(3, 0), (4, 0), (5, 0), (6, 0), (7, 0), (8, 0), (9, 0), (10, 0), (11, 1), (13, 1), (15, 1),
    (17, 1), (19, 2), (23, 2), (27, 2), (31, 2), (35, 3), (43, 3), (51, 3), (59, 3), (67, 4),
    (83, 4), (99, 4), (115, 4), (131, 5), (163, 5), (195, 5), (227, 5), (258, 0)]

/-- Base distance and number of extra bits of the distance symbols. -/
def distanceClasses : List (Nat × Nat) :=
  [(1, 0), (2, 0), (3, 0), (4, 0), (5, 1), (7, 1), (9, 2), (13, 2), (17, 3), (25, 3), (33, 4),
    (49, 4), (65, 5), (97, 5), (129, 6), (193, 6), (257, 7), (385, 7), (513, 8), (769, 8),
    (1025, 9), (1537, 9), (2049, 10), (3073, 10), (4097, 11), (6145, 11), (8193, 12), (12289, 12),
    (16385, 13), (24577, 13)]

inductive EncToken (litLens distLens : List Nat) : Token → List Bool → Prop where
  | lit (b : UInt8) (w : List Bool) (hw : Codeword 15 litLens b.toNat w) :
      EncToken litLens distLens (.lit b) w
  | copy (i j base extra dbase dextra : Nat) (w x v y : List Bool)
      (hl : lengthClasses[i]? = some (base, extra)) (hw : Codeword 15 litLens (257 + i) w)
      (hx : x.length = extra) (hd : distanceClasses[j]? = some (dbase, dextra))
      (hv : Codeword 15 distLens j v) (hy : y.length = dextra) :
      EncToken litLens distLens (.copy (base + value x) (dbase + value y)) (w ++ x ++ v ++ y)

/-- The tokens of a block after `hist`, closed by the end-of-block symbol. -/
inductive EncTokens (litLens distLens : List Nat) :
    List UInt8 → List Token → List Bool → Prop where
  | nil (hist : List UInt8) (w : List Bool) (hw : Codeword 15 litLens 256 w) :
      EncTokens litLens distLens hist [] w
  | cons (hist : List UInt8) (t : Token) (ts : List Token) (w ws : List Bool)
      (ht : EncToken litLens distLens t w) (hvalid : t.Valid hist)
      (hts : EncTokens litLens distLens (hist ++ t.bytes hist) ts ws) :
      EncTokens litLens distLens hist (t :: ts) (w ++ ws)

/-- One step of the run-length code of a vector of code lengths. -/
inductive ClItem where
  | len (n : Nat)
  | again (r : Nat)
  | zeros (r : Nat)
  deriving DecidableEq, Repr

/-- The vector after an item; there must be a length to repeat. -/
def ClItem.apply (acc : List Nat) : ClItem → Option (List Nat)
  | .len n => some (acc ++ [n])
  | .again r => acc.getLast?.map fun l => acc ++ List.replicate r l
  | .zeros r => some (acc ++ List.replicate r 0)

inductive EncItem (cl : List Nat) : ClItem → List Bool → Prop where
  | len (n : Nat) (w : List Bool) (hn : n < 16) (hw : Codeword 15 cl n w) :
      EncItem cl (.len n) w
  | again (w x : List Bool) (hw : Codeword 15 cl 16 w) (hx : x.length = 2) :
      EncItem cl (.again (3 + value x)) (w ++ x)
  | zeros (w x : List Bool) (hw : Codeword 15 cl 17 w) (hx : x.length = 3) :
      EncItem cl (.zeros (3 + value x)) (w ++ x)
  | manyZeros (w x : List Bool) (hw : Codeword 15 cl 18 w) (hx : x.length = 7) :
      EncItem cl (.zeros (11 + value x)) (w ++ x)

/-- The items that take the vector from `acc` to its full length. -/
inductive EncItems (rfc : Bool) (cl : List Nat) (total : Nat) :
    List Nat → List ClItem → List Bool → List Nat → Prop where
  | done (acc : List Nat) (h : acc.length = total) : EncItems rfc cl total acc [] [] acc
  | step (acc acc' : List Nat) (item : ClItem) (items : List ClItem) (w ws : List Bool)
      (res : List Nat) (hlt : acc.length < total) (hw : EncItem cl item w)
      (happly : item.apply acc = some acc') (hfit : rfc = true → acc'.length ≤ total)
      (hrest : EncItems rfc cl total (acc'.take total) items ws res) :
      EncItems rfc cl total acc (item :: items) (w ++ ws) res

/-- The order in which the lengths of the code length code are sent. -/
def clOrder : List Nat := [16, 17, 18, 0, 8, 7, 9, 6, 10, 5, 11, 4, 12, 3, 13, 2, 14, 1, 15]

/-- The code length code, by symbol, from the lengths sent. -/
def clVector (sent : List Nat) : List Nat :=
  (List.range 19).map fun s => sent.getD (clOrder.idxOf s) 0

/-- The header of a dynamic block. -/
inductive EncHeader (rfc : Bool) (litLens distLens : List Nat) : List Bool → Prop where
  | mk (sent : List Nat) (items : List ClItem) (ws : List Bool)
      (hlit : 257 ≤ litLens.length ∧ litLens.length ≤ 288)
      (hdist : 1 ≤ distLens.length ∧ distLens.length ≤ 32)
      (hsent : 4 ≤ sent.length ∧ sent.length ≤ 19) (hbits : ∀ l ∈ sent, l < 8)
      (hrfc : rfc = true → litLens.length ≤ 286 ∧ distLens.length ≤ 30 ∧
        Kraft 7 (clVector sent) ∧ Kraft 15 litLens ∧ Kraft 15 distLens)
      (hitems : EncItems rfc (clVector sent) (litLens.length + distLens.length) [] items ws
        (litLens ++ distLens)) :
      EncHeader rfc litLens distLens
        (field 5 (litLens.length - 257) ++ field 5 (distLens.length - 1) ++
          field 4 (sent.length - 4) ++ sent.flatMap (field 3) ++ ws)

inductive Block where
  | stored (data : List UInt8)
  | fixed (toks : List Token)
  | dynamic (litLens distLens : List Nat) (toks : List Token)
  deriving DecidableEq, Repr

def Block.bytes (hist : List UInt8) : Block → List UInt8
  | .stored data => data
  | .fixed toks => tokensBytes hist toks
  | .dynamic _ _ toks => tokensBytes hist toks

def fixedLitLens : List Nat :=
  List.replicate 144 8 ++ List.replicate 112 9 ++ List.replicate 24 7 ++ List.replicate 8 8

def fixedDistLens : List Nat := List.replicate 32 5

/-- A block that starts at bit `pos` of the stream, after the bytes `hist`. -/
inductive EncBlock (rfc : Bool) (pos : Nat) (hist : List UInt8) (final : Bool) :
    Block → List Bool → Prop where
  | stored (data : List UInt8) (pad nlen : List Bool)
      (hpad : pad.length < 8 ∧ (pos + 3 + pad.length) % 8 = 0) (hlen : data.length < 2 ^ 16)
      (hnlen : nlen.length = 16 ∨ (data.length ≤ 1 ∧ nlen = []))
      (hrfc : rfc = true → nlen = field 16 (2 ^ 16 - 1 - data.length)) :
      EncBlock rfc pos hist final (.stored data)
        ([final] ++ field 2 0 ++ pad ++ field 16 data.length ++ nlen ++ byteBits data)
  | fixed (toks : List Token) (ws : List Bool)
      (htoks : EncTokens fixedLitLens fixedDistLens hist toks ws) :
      EncBlock rfc pos hist final (.fixed toks) ([final] ++ field 2 1 ++ ws)
  | dynamic (litLens distLens : List Nat) (toks : List Token) (hs ws : List Bool)
      (hheader : EncHeader rfc litLens distLens hs)
      (htoks : EncTokens litLens distLens hist toks ws) :
      EncBlock rfc pos hist final (.dynamic litLens distLens toks)
        ([final] ++ field 2 2 ++ hs ++ ws)

/-- A stream: the last block, and only that one, is marked final. -/
inductive EncStream (rfc : Bool) : Nat → List UInt8 → List Block → List Bool → Prop where
  | last (pos : Nat) (hist : List UInt8) (b : Block) (bits : List Bool)
      (hb : EncBlock rfc pos hist true b bits) : EncStream rfc pos hist [b] bits
  | more (pos : Nat) (hist : List UInt8) (b : Block) (bs : List Block) (bits rest : List Bool)
      (hb : EncBlock rfc pos hist false b bits)
      (hbs : EncStream rfc (pos + bits.length) (hist ++ b.bytes hist) bs rest) :
      EncStream rfc pos hist (b :: bs) (bits ++ rest)

def streamBytes (hist : List UInt8) : List Block → List UInt8
  | [] => []
  | b :: bs => b.bytes hist ++ streamBytes (hist ++ b.bytes hist) bs

end Cage.Compress
