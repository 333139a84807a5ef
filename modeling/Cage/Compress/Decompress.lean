import Cage.Compress.Gzip
import Cage.Compress.InflateCorrect

/-!
`decompress_gzip` of `src/compress/decompress.c`: the header walk, the loop over
the blocks and the check of the trailer. The functions that advance an offset
return the new one, or `none` where the source returns `-1`.
-/

namespace Cage.Compress

open Lib.Bits Lib.Checked Lib.Crc Util

variable {σ : Type}

/-- What outlives a call: the checksum's statics and the caller's buffer. -/
structure Gz where
  crc : Crc32
  out : Buf
  deriving DecidableEq, Repr

def Gz.init : Gz := { crc := Crc32.init, out := Buf.init }

def checkGzipMagic (p : List UInt8) (inLen : Nat) : Exec σ Int :=
  if inLen < 18 then
    pure (-1)
  else do
    let id1 ← load p 0
    if id1 ≠ 0x1F then
      pure (-1)
    else do
      let id2 ← load p 1
      if id2 ≠ 0x8B then
        pure (-1)
      else do
        let cm ← load p 2
        if cm ≠ 8 then pure (-1) else pure 0

def advance (o n inLen : Nat) : Option Nat := if o + n > inLen then none else some (o + n)

def skipFextra (p : List UInt8) (inLen o : Nat) : Exec σ (Option Nat) :=
  if o + 2 > inLen then
    pure none
  else do
    let lo ← load p o
    let hi ← load p (o + 1)
    let xlen := lo.toNat ||| (hi.toNat <<< 8)
    pure (advance o (2 + xlen) inLen)

/-- The loop of `skip_string`, cut off after `fuel` rounds. -/
def skipStringLoop (p : List UInt8) (inLen : Nat) : Nat → Nat → Exec σ Nat
  | 0, _ => fault .fuel
  | fuel + 1, o =>
      if o < inLen then do
        let c ← load p o
        if c ≠ 0 then skipStringLoop p inLen fuel (o + 1) else pure o
      else
        pure o

def skipString (p : List UInt8) (inLen o : Nat) : Exec σ (Option Nat) := do
  let o ← skipStringLoop p inLen (inLen + 1) o
  if o ≥ inLen then pure none else pure (some (o + 1))

/-- The loop of `skip_gzip_tail` over the flags in `strFlags`. -/
def skipStrings (p : List UInt8) (inLen : Nat) (flg : Nat) : List Nat → Nat → Exec σ (Option Nat)
  | [], o => pure (some o)
  | f :: strFlags, o =>
      if flg &&& f ≠ 0 then do
        let r ← skipString p inLen o
        match r with
        | none => pure none
        | some o => skipStrings p inLen flg strFlags o
      else
        skipStrings p inLen flg strFlags o

def skipGzipTail (p : List UInt8) (inLen o flg : Nat) : Exec σ (Option Nat) := do
  let r ← skipStrings p inLen flg [0x08, 0x10] o
  match r with
  | none => pure none
  | some o => if flg &&& 0x02 ≠ 0 then pure (advance o 2 inLen) else pure (some o)

def skipGzipFlags (p : List UInt8) (inLen o flg : Nat) : Exec σ (Option Nat) :=
  if flg &&& 0x04 ≠ 0 then do
    let r ← skipFextra p inLen o
    match r with
    | none => pure none
    | some o => skipGzipTail p inLen o flg
  else
    skipGzipTail p inLen o flg

def skipGzipHeader (p : List UInt8) (inLen : Nat) : Exec σ (Option Nat) := do
  let r ← checkGzipMagic p inLen
  if r ≠ 0 then
    pure none
  else do
    let flg ← load p 3
    let r ← skipGzipFlags p inLen 10 flg.toNat
    match r with
    | none => pure none
    | some o => if o ≥ inLen then pure none else pure (some o)

/-- `read32le(p + off)`. -/
def read32le (p : List UInt8) (off : Nat) : Exec σ (BitVec 32) :=
  loopUp (fun i v => do
    let b ← load p (off + i)
    pure (v ||| (BitVec.ofNat 32 b.toNat <<< (i * 8)))) 4 0 0

def onCrc {α : Type} (m : Exec Crc32 α) : Exec Gz α :=
  zoom Gz.crc (fun gz crc => { gz with crc := crc }) m

def checkGzipTrailer (p : List UInt8) (inLen dataEnd : Nat) : Exec Gz Int :=
  if dataEnd + 8 > inLen then
    pure (-1)
  else do
    let expectedCrc ← read32le p dataEnd
    let expectedLen ← read32le p (dataEnd + 4)
    onCrc crc32Init
    let gz ← get
    let actualCrc ← onCrc (crc32Update 0 gz.out.data gz.out.data.length)
    if actualCrc ≠ expectedCrc then
      pure (-1)
    else if expectedLen ≠ BitVec.ofNat 32 gz.out.data.length then
      pure (-1)
    else
      pure 0

/-- The loop of `decompress_gzip`, cut off after `fuel` blocks. -/
def inflateLoop : Nat → Exec Sess Int
  | 0 => fault .fuel
  | fuel + 1 => do
      let r ← inflateBlock
      if r < 0 then
        pure (-1)
      else if r ≠ 0 then
        pure 0
      else
        inflateLoop fuel

/-- Run with a reader of its own on the caller's buffer. -/
def withBr {α : Type} (br : Br) (m : Exec Sess α) : Exec Gz α :=
  zoom (fun gz => { br := br, out := gz.out }) (fun gz s => { gz with out := s.out }) m

def decompressGzip (p : List UInt8) : Exec Gz Int := do
  let inLen := p.length
  let r ← skipGzipHeader p inLen
  match r with
  | none => pure (-1)
  | some off =>
      if off + 8 > inLen then
        pure (-1)
      else do
        -- a block is at least three bits long
        let r ← withBr (brInit (p.drop off) (inLen - off - 8)) (inflateLoop (8 * inLen + 1))
        if r < 0 then
          pure (-1)
        else
          checkGzipTrailer p inLen (inLen - 8)

end Cage.Compress
