import Cage.Compress.Huffman
import Cage.Util.Mem

/-!
The block decoder of `src/compress/inflate.c`. Reading past a table, or a loop
that outlives the bits left to read, is a fault of the run; a return of `-1`
is a result like any other.
-/

namespace Cage.Compress

open Lib.Checked Util

variable {σ : Type}

def lenBase : List Nat :=
  [3, 4, 5, 6, 7, 8, 9, 10, 11, 13, 15, 17, 19, 23, 27, 31, 35, 43, 51, 59,
    67, 83, 99, 115, 131, 163, 195, 227, 258]

def lenExtra : List Nat :=
  [0, 0, 0, 0, 0, 0, 0, 0, 1, 1, 1, 1, 2, 2, 2, 2, 3, 3, 3, 3, 4, 4, 4, 4, 5, 5, 5, 5, 0]

def distBase : List Nat :=
  [1, 2, 3, 4, 5, 7, 9, 13, 17, 25, 33, 49, 65, 97, 129, 193, 257, 385, 513, 769,
    1025, 1537, 2049, 3073, 4097, 6145, 8193, 12289, 16385, 24577]

def distExtra : List Nat :=
  [0, 0, 0, 0, 1, 1, 2, 2, 3, 3, 4, 4, 5, 5, 6, 6, 7, 7, 8, 8, 9, 9, 10, 10, 11, 11, 12, 12,
    13, 13]

def clOrd : List Nat := [16, 17, 18, 0, 8, 7, 9, 6, 10, 5, 11, 4, 12, 3, 13, 2, 14, 1, 15]

/-- What `inflate_block` works on: the reader and the output buffer. -/
structure Sess where
  br : Br
  out : Buf
  deriving DecidableEq, Repr

def onBr {α : Type} (m : Exec Br α) : Exec Sess α :=
  zoom Sess.br (fun s br => { s with br := br }) m

def onOut {α : Type} (m : Exec Buf α) : Exec Sess α :=
  zoom Sess.out (fun s out => { s with out := out }) m

/-- The copy loop of `decode_stored`, with `k` bytes left. -/
def storedLoop : Nat → Exec Sess Int
  | 0 => pure 0
  | k + 1 => do
      let b ← onBr (brBits 8)
      if b < 0 then
        pure (-1)
      else do
        let r ← onOut (bufAppendC (UInt8.ofNat b.toNat))
        if r ≠ 0 then pure (-1) else storedLoop k

def decodeStored : Exec Sess Int := do
  onBr brAlign
  let len ← onBr (brBits 16)
  let _ ← onBr (brBits 16)
  if len < 0 then pure (-1) else storedLoop len.toNat

def fixedHuff (lit dst : List Nat) : Exec σ (List Nat × List Nat) := do
  let lit ← loopUp (fun i lit => store lit i 8) 144 0 lit
  let lit ← loopUp (fun i lit => store lit i 9) 112 144 lit
  let lit ← loopUp (fun i lit => store lit i 7) 24 256 lit
  let lit ← loopUp (fun i lit => store lit i 8) 8 280 lit
  let dst ← loopUp (fun i dst => store dst i 5) 32 0 dst
  pure (lit, dst)

/-- The new `lit` and the index returned. -/
def fillRep (lit : List Nat) (idx total : Nat) : (rep val : Nat) → Exec σ (List Nat × Nat)
  | 0, _ => pure (lit, idx)
  | rep + 1, val =>
      if idx ≥ total then
        pure (lit, idx)
      else do
        let lit ← store lit idx val
        fillRep lit (idx + 1) total rep val

/-- `none` is the return of `-1`. -/
def repLen (lit : List Nat) (idx total sym : Nat) : Exec Br (Option (List Nat × Nat)) :=
  if sym = 16 then do
    let raw ← brBits 2
    if raw < 0 ∨ idx < 1 then
      pure none
    else do
      let prev ← load lit (idx - 1)
      let r ← fillRep lit idx total (raw.toNat + 3) prev
      pure (some r)
  else do
    let (nbits, base) := if sym = 17 then (3, 3) else (7, 11)
    let raw ← brBits nbits
    if raw < 0 then
      pure none
    else do
      let r ← fillRep lit idx total (raw.toNat + base) 0
      pure (some r)

/-- The loop of `decode_len`, cut off after `fuel` rounds. -/
def decodeLenLoop (hc : Huff) (total : Nat) :
    Nat → List Nat → Nat → Exec Br (Option (List Nat))
  | 0, _, _ => fault .fuel
  | fuel + 1, lit, idx =>
      if idx < total then do
        let sym ← huffDecode hc
        if sym < 0 then
          pure none
        else if sym < 16 then do
          let lit ← store lit idx sym.toNat
          decodeLenLoop hc total fuel lit (idx + 1)
        else do
          let r ← repLen lit idx total sym.toNat
          match r with
          | none => pure none
          | some (lit, idx) => decodeLenLoop hc total fuel lit idx
      else
        pure (some lit)

/-- The filled `lit`, or `none` for `-1`. -/
def decodeLen (hc : Huff) (lit : List Nat) (total : Nat) : Exec Br (Option (List Nat)) :=
  decodeLenLoop hc total (total + 1) lit 0

/-- The loop of `read_code_lengths` that fills `cl`, with `k` lengths left. -/
def clLoop : Nat → Nat → List Nat → Exec Br (Option (List Nat))
  | 0, _, cl => pure (some cl)
  | k + 1, i, cl => do
      let v ← brBits 3
      if v < 0 then
        pure none
      else do
        let ord ← load clOrd i
        let cl ← store cl ord v.toNat
        clLoop k (i + 1) cl

def readCodeLengths (nl nd : Int) : Exec Br (Option (List Nat)) := do
  let nc := (← brBits 4) + 4
  let r ← clLoop nc.toNat 0 (List.replicate 19 0)
  match r with
  | none => pure none
  | some cl => do
      let ct ← huffBuild cl 19
      decodeLen ct (List.replicate 320 0) (nl + nd).toNat

/-- The two tables of a dynamic block, or `none` for `-1`. -/
def readDynamic (dst : List Nat) : Exec Br (Option (Huff × Huff)) := do
  let nl := (← brBits 5) + 257
  let nd := (← brBits 5) + 1
  let r ← readCodeLengths nl nd
  match r with
  | none => pure none
  | some lit => do
      let dst ← copyTo dst lit nl.toNat nd.toNat
      let hl ← huffBuild lit nl.toNat
      let hd ← huffBuild dst nd.toNat
      pure (some (hl, hd))

def getLen (sym : Nat) : Exec Br Int :=
  let slot : Int := sym - 257
  if slot < 0 ∨ slot ≥ 29 then
    pure (-1)
  else do
    let len ← load lenBase slot.toNat
    let extra ← load lenExtra slot.toNat
    if extra ≤ 0 then
      pure (len : Int)
    else do
      let e ← brBits extra
      if e < 0 then pure (-1) else pure (len + e)

def getDist (hd : Huff) : Exec Br Int := do
  let sym ← huffDecode hd
  if sym < 0 then
    pure (-1)
  else if sym ≥ 30 then
    pure 0
  else do
    let d ← load distBase sym.toNat
    let extra ← load distExtra sym.toNat
    if extra ≤ 0 then
      pure (d : Int)
    else do
      let e ← brBits extra
      if e < 0 then pure (-1) else pure (d + e)

/-- The byte loop of `copy_dist`, with `k` bytes left. -/
def copyLoop (distance : Nat) : Nat → Exec Buf Unit
  | 0 => pure ()
  | k + 1 => do
      let out ← get
      if distance ≤ out.data.length then do
        let c ← load out.data (out.data.length - distance)
        bufPut c
        copyLoop distance k
      else
        fault .bounds

def copyDist (length distance : Int) : Exec Buf Int :=
  -- `(unsigned)(length - 3) > 255U` also holds of a length below 3
  if length < 3 ∨ length > 258 then
    pure (-1)
  else do
    let out ← get
    if distance < 1 ∨ distance > out.data.length then
      pure (-1)
    else do
      let r ← bufGrow length.toNat
      if r ≠ 0 then
        pure (-1)
      else do
        copyLoop distance.toNat length.toNat
        pure 0

def doSym (hd : Huff) (sym : Nat) : Exec Sess Int :=
  if sym < 256 then do
    let r ← onOut (bufAppendC (UInt8.ofNat sym))
    if r ≠ 0 then pure (-1) else pure 0
  else if sym > 256 then do
    let length ← onBr (getLen sym)
    if length < 0 then
      pure (-1)
    else do
      let distance ← onBr (getDist hd)
      if distance < 0 then
        pure (-1)
      else
        onOut (copyDist length distance)
  else
    pure 1

/-- The loop of `run_loop`, cut off after `fuel` rounds. -/
def runLoopFrom (hl hd : Huff) (last : Int) : Nat → Exec Sess Int
  | 0 => fault .fuel
  | fuel + 1 => do
      let sym ← onBr (huffDecode hl)
      if sym < 0 then
        pure (-1)
      else do
        let ret ← doSym hd sym.toNat
        if ret < 0 then
          pure (-1)
        else if ret > 0 then
          pure last
        else
          runLoopFrom hl hd last fuel

/-- Every round reads a bit, so the bits left bound the rounds. -/
def runLoop (hl hd : Huff) (last : Int) : Exec Sess Int := do
  let s ← get
  runLoopFrom hl hd last (s.br.bits + 8 * (s.br.len - s.br.pos) + 1)

def buildFixed (lit dst : List Nat) : Exec σ (Huff × Huff) := do
  let (lit, dst) ← fixedHuff lit dst
  let hl ← huffBuild lit 288
  let hd ← huffBuild dst 32
  pure (hl, hd)

def inflateBlock : Exec Sess Int := do
  let last ← onBr (brBits 1)
  let type ← onBr (brBits 2)
  if type < 0 ∨ type > 2 then
    pure (-1)
  else if type = 0 then do
    let r ← decodeStored
    if r ≠ 0 then pure (-1) else pure last
  else do
    -- `lit[320]` and `dst[32]`, whose first contents are never read
    let lit := List.replicate 320 0
    let dst := List.replicate 32 0
    if type = 1 then do
      let (hl, hd) ← buildFixed lit dst
      runLoop hl hd last
    else do
      let r ← onBr (readDynamic dst)
      match r with
      | none => pure (-1)
      | some (hl, hd) => runLoop hl hd last

end Cage.Compress
