import Cage.Ext4.Csum
import Cage.Lib.Bits
import Cage.Lib.Buffer

/-!
`src/ext4/util.h` and the parts of `src/ext4/util.c` that work on buffers: the
geometry of the image, the fields of its records and their checksums. Block
numbers stay far below 2^32 and are natural numbers.
-/

namespace Cage.Ext4

open Lib.Buffer

abbrev blkSize : Nat := 4096
abbrev inodesPerGrp : Nat := 2048
abbrev descSize : Nat := 64
abbrev sbOff : Nat := 1024
abbrev blocks : Nat := 2621440
abbrev groups : Nat := 80
abbrev blksPerGrp : Nat := 32768
abbrev inodeSize : Nat := 256
abbrev flexGrpSize : Nat := 16
abbrev itBlksPerGrp : Nat := inodesPerGrp * inodeSize / blkSize
abbrev flexMeta : Nat := 2 * flexGrpSize + flexGrpSize * itBlksPerGrp
abbrev reservedGdt : Nat := 1024
abbrev resvGdtBlks : Nat := 3 + reservedGdt

abbrev ext4ExtentMagic : Nat := 0xF30A
abbrev ext4ExtentsFl : Nat := 0x00080000
abbrev jbd2Magic : Nat := 0xC03B3998

abbrev gBbLo : Nat := 0x00
abbrev gIbLo : Nat := 0x04
abbrev gItLo : Nat := 0x08
abbrev gFreeB : Nat := 0x0C
abbrev gFreeI : Nat := 0x0E
abbrev gUsedD : Nat := 0x10
abbrev gFlags : Nat := 0x12
abbrev gCheck : Nat := 0x1E
abbrev gBbCL : Nat := 0x18
abbrev gIbCL : Nat := 0x1A
abbrev gBbCH : Nat := 0x38
abbrev gIbCH : Nat := 0x3A

def grpFlexFirst (g : Nat) : Nat := g / 16 * 16

def grpFlexBase (g : Nat) : Nat := grpFlexFirst g * 32768

def grpBbBlk (g : Nat) : Nat :=
  let f := grpFlexFirst g
  if f = 0 then resvGdtBlks + g - f else grpFlexBase g + g - f

def grpIbBlk (g : Nat) : Nat :=
  let f := grpFlexFirst g
  if f = 0 then resvGdtBlks + flexGrpSize + g - f else grpFlexBase g + flexGrpSize + g - f

def grpItBlk (g : Nat) : Nat :=
  let f := grpFlexFirst g
  if f = 0 then resvGdtBlks + 2 * flexGrpSize + (g - f) * itBlksPerGrp
  else grpFlexBase g + 2 * flexGrpSize + (g - f) * itBlksPerGrp

variable {n : Nat}

/-- The byte at `p`, as a number. -/
def rd8 (b : ByteVec n) (p : Nat) : Nat := (byte b p).toNat

def rd32 (b : ByteVec n) (p : Nat) : Nat :=
  rd8 b p ||| rd8 b (p + 1) <<< 8 ||| rd8 b (p + 2) <<< 16 ||| rd8 b (p + 3) <<< 24

def rd16 (b : ByteVec n) (p : Nat) : Nat := rd8 b p ||| rd8 b (p + 1) <<< 8

def wr8 (b : ByteVec n) (p v : Nat) : ByteVec n := poke b p (UInt8.ofNat v)

def wr32 (b : ByteVec n) (p v : Nat) : ByteVec n :=
  wr8 (wr8 (wr8 (wr8 b p v) (p + 1) (v >>> 8)) (p + 2) (v >>> 16)) (p + 3) (v >>> 24)

def wr16 (b : ByteVec n) (p v : Nat) : ByteVec n := wr8 (wr8 b p v) (p + 1) (v >>> 8)

def wr32be (b : ByteVec n) (p v : Nat) : ByteVec n :=
  wr8 (wr8 (wr8 (wr8 b p (v >>> 24)) (p + 1) (v >>> 16)) (p + 2) (v >>> 8)) (p + 3) v

/-- The loop of `is_power`, at most `fuel` times round. -/
def isPowerLoop (b : Nat) : Nat → Nat → Nat
  | 0, n => n
  | fuel + 1, n => if n % b = 0 then isPowerLoop b fuel (n / b) else n

/-- `is_power`. A division at least halves the number, so `n` rounds are enough. -/
def isPower (n b : Nat) : Bool := n ≠ 0 && isPowerLoop b n n == 1

def hasSuper (g : Nat) : Bool :=
  if g ≤ 1 then true else g % 2 = 1 && (isPower g 3 || isPower g 5 || isPower g 7)

/-- The four bytes that `wr32` makes of a number. -/
def le32 (v : Nat) : List UInt8 := (wr32 (zeros 4) 0 v).toList

def inodeSetCsum (p : ByteVec inodeSize) (ino : Nat) (seed : BitVec 32) : ByteVec inodeSize :=
  let inoBuf := le32 ino
  let genBuf := le32 (rd32 p 0x64)
  let p := wr16 p 0x7C 0
  let p := wr16 p 0x82 0
  let c := crc32cE2fs seed inoBuf
  let c := crc32cE2fs c genBuf
  let c := crc32cE2fs c p.toList
  let p := wr16 p 0x7C (c &&& 0xFFFF).toNat
  wr16 p 0x82 (c >>> 16).toNat

def gdtSetCsum (desc : ByteVec descSize) (g : Nat) (seed : BitVec 32) : ByteVec descSize :=
  let desc := wr16 desc gCheck 0
  let l := le32 g
  let c := crc32cE2fs seed l
  let c := crc32cE2fs c desc.toList
  wr16 desc gCheck (c &&& 0xFFFF).toNat

/-- `extent_set(b + p, ..)`. -/
def extentSet (b : ByteVec n) (p eeBlock eeLen eeStart : Nat) : ByteVec n :=
  let b := wr16 b (p + 0x00) ext4ExtentMagic
  let b := wr16 b (p + 0x02) 1
  let b := wr16 b (p + 0x04) 4
  let b := wr16 b (p + 0x06) 0
  let b := wr32 b (p + 0x08) 0
  let b := wr32 b (p + 0x0C) eeBlock
  let b := wr16 b (p + 0x10) eeLen
  let b := wr16 b (p + 0x12) (eeStart >>> 32)
  wr32 b (p + 0x14) (eeStart &&& 0xFFFFFFFF)

/-- `mark_bit`. -/
def markBit (bm : ByteVec n) (blk : Nat) : ByteVec n := setBit bm blk

def dirCsum (seed : BitVec 32) (blk : ByteVec n) (ino gen size : Nat) : BitVec 32 :=
  let inoBuf := le32 ino
  let genBuf := le32 gen
  let c := crc32cE2fs seed inoBuf
  let c := crc32cE2fs c genBuf
  crc32cE2fs c (slice blk 0 (size - 12)).toList

theorem byte_wr8 (b : ByteVec n) (p v j : Nat) :
    byte (wr8 b p v) j = if j = p ∧ j < n then UInt8.ofNat v else byte b j :=
  byte_poke b p _ j

theorem rd8_wr8 (b : ByteVec n) (p v j : Nat) :
    rd8 (wr8 b p v) j = if j = p ∧ j < n then v % 256 else rd8 b j := by
  unfold rd8
  rw [byte_wr8]
  split <;> simp

theorem rd8_lt (b : ByteVec n) (p : Nat) : rd8 b p < 256 := (byte b p).toNat_lt

theorem rd16_eq (b : ByteVec n) (p : Nat) : rd16 b p = rd8 b p + rd8 b (p + 1) * 256 := by
  have h := rd8_lt b p
  unfold rd16
  rw [Nat.or_comm, ← Nat.shiftLeft_add_eq_or_of_lt (by omega), Nat.shiftLeft_eq]
  omega

theorem rd32_eq (b : ByteVec n) (p : Nat) :
    rd32 b p = rd8 b p + rd8 b (p + 1) * 256 + rd8 b (p + 2) * 65536 +
      rd8 b (p + 3) * 16777216 := by
  have h0 := rd8_lt b p
  have h1 := rd8_lt b (p + 1)
  have h2 := rd8_lt b (p + 2)
  have hlow : rd8 b p ||| rd8 b (p + 1) <<< 8 = rd8 b p + rd8 b (p + 1) * 256 := rd16_eq b p
  have hmid : rd8 b p + rd8 b (p + 1) * 256 ||| rd8 b (p + 2) <<< 16 =
      rd8 b p + rd8 b (p + 1) * 256 + rd8 b (p + 2) * 65536 := by
    rw [Nat.or_comm, ← Nat.shiftLeft_add_eq_or_of_lt (by omega), Nat.shiftLeft_eq]
    omega
  unfold rd32
  rw [hlow, hmid, Nat.or_comm, ← Nat.shiftLeft_add_eq_or_of_lt (by omega), Nat.shiftLeft_eq]
  omega

theorem rd16_wr16_self (b : ByteVec n) (p v : Nat) (h : p + 2 ≤ n) :
    rd16 (wr16 b p v) p = v % 65536 := by
  rw [rd16_eq, wr16, rd8_wr8, rd8_wr8, rd8_wr8, if_neg (by omega), if_pos (by omega),
    if_pos (by omega), Nat.shiftRight_eq_div_pow]
  omega

theorem rd32_wr32_self (b : ByteVec n) (p v : Nat) (h : p + 4 ≤ n) :
    rd32 (wr32 b p v) p = v % 4294967296 := by
  have h0 : rd8 (wr32 b p v) p = v % 256 := by
    simp only [wr32, rd8_wr8]
    simp (disch := omega) [show p < n by omega]
  have h1 : rd8 (wr32 b p v) (p + 1) = v / 256 % 256 := by
    simp only [wr32, rd8_wr8, Nat.shiftRight_eq_div_pow]
    simp (disch := omega) [show p + 1 < n by omega]
  have h2 : rd8 (wr32 b p v) (p + 2) = v / 65536 % 256 := by
    simp only [wr32, rd8_wr8, Nat.shiftRight_eq_div_pow]
    simp (disch := omega) [show p + 2 < n by omega]
  have h3 : rd8 (wr32 b p v) (p + 3) = v / 16777216 % 256 := by
    simp only [wr32, rd8_wr8, Nat.shiftRight_eq_div_pow]
    simp (disch := omega) [show p + 3 < n by omega]
  rw [rd32_eq, h0, h1, h2, h3]
  omega

end Cage.Ext4
