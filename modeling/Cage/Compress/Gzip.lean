import Cage.Compress.Crc32
import Cage.Compress.Deflate

/-!
RFC 1952 as a relation between a byte string and the data it denotes. Like the
relation of the blocks it has a weak form, `rfc := false`, in which the reserved
flags may be set and the header's own checksum may be any two bytes.
-/

namespace Cage.Compress

open Lib.Bits

/-- The header of a member; `info` is `MTIME`, `XFL` and `OS`. -/
structure GzHeader where
  flg : UInt8
  info : List UInt8
  extra : Option (List UInt8)
  name : Option (List UInt8)
  comment : Option (List UInt8)
  hcrc : Option (List UInt8)
  deriving DecidableEq, Repr

/-- `FEXTRA`: a length and as many bytes. -/
def extraField : Option (List UInt8) → List UInt8
  | none => []
  | some xs => leBytes 2 xs.length ++ xs

/-- `FNAME` and `FCOMMENT`: a string and its terminating zero. -/
def stringField : Option (List UInt8) → List UInt8
  | none => []
  | some s => s ++ [0]

/-- The part of the header that its checksum covers. -/
def GzHeader.covered (h : GzHeader) : List UInt8 :=
  [0x1F, 0x8B, 8, h.flg] ++ h.info ++ extraField h.extra ++ stringField h.name ++
    stringField h.comment

def GzHeader.bytes (h : GzHeader) : List UInt8 := h.covered ++ h.hcrc.getD []

/-- The optional field of bit `mask` is there if and only if the bit is set. -/
def Announced (flg : UInt8) (mask : Nat) (f : Option (List UInt8)) : Prop :=
  f.isSome ↔ flg.toNat &&& mask ≠ 0

structure GzHeader.Valid (rfc : Bool) (h : GzHeader) : Prop where
  info : h.info.length = 6
  extra : Announced h.flg 0x04 h.extra
  extraLength : ∀ xs ∈ h.extra, xs.length < 2 ^ 16
  name : Announced h.flg 0x08 h.name
  nameBytes : ∀ s ∈ h.name, 0 ∉ s
  comment : Announced h.flg 0x10 h.comment
  commentBytes : ∀ s ∈ h.comment, 0 ∉ s
  hcrc : Announced h.flg 0x02 h.hcrc
  hcrcLength : ∀ c ∈ h.hcrc, c.length = 2
  strict : rfc = true → h.flg.toNat < 0x20 ∧
    ∀ c ∈ h.hcrc, c = leBytes 2 (crc32 h.covered).toNat

/-- `CRC32` and `ISIZE` for the data `out`. -/
def gzTrailer (out : List UInt8) : List UInt8 :=
  leBytes 4 (crc32 out).toNat ++ leBytes 4 out.length

/-- `input` is one member, and nothing else, with the data `out`. -/
def Member (rfc : Bool) (input out : List UInt8) : Prop :=
  ∃ (h : GzHeader) (body : List UInt8) (blocks : List Block) (enc pad : List Bool),
    h.Valid rfc ∧ input = h.bytes ++ body ++ gzTrailer out ∧ EncStream rfc 0 [] blocks enc ∧
    byteBits body = enc ++ pad ∧ pad.length < 8 ∧ out = streamBytes [] blocks

end Cage.Compress
