import Cage.Lib.CrcTable

/-!
The checksum of `src/ext4/csum.c` and `csum.h`. The table is a static that is
built before the first use; here it is the table it is built to be.
-/

namespace Cage.Ext4

open Lib.Crc

def crc32cPoly : BitVec 32 := 0x82F63B78

/-- The loop of `crc32c_build` over the bits of one entry, with `k` left. -/
def crc32cEntry : Nat → BitVec 32 → BitVec 32
  | 0, c => c
  | k + 1, c => crc32cEntry k (if c &&& 1 ≠ 0 then crc32cPoly ^^^ (c >>> 1) else c >>> 1)

def crc32cBuild : List (BitVec 32) :=
  (List.range 256).map fun i => crc32cEntry 8 (BitVec.ofNat 32 i)

/-- One byte of the loop of `ext4_crc32c`. -/
def crc32cByte (crc : BitVec 32) (b : UInt8) : BitVec 32 :=
  crc32cBuild.getD ((crc ^^^ BitVec.ofNat 32 b.toNat) &&& 0xFF).toNat 0 ^^^ (crc >>> 8)

def ext4Crc32c (crc : BitVec 32) (data : List UInt8) : BitVec 32 :=
  ~~~ data.foldl crc32cByte (~~~crc)

/-- `crc32c_e2fs`: the register before and after the bytes. -/
def crc32cE2fs (crc : BitVec 32) (data : List UInt8) : BitVec 32 := ~~~ ext4Crc32c (~~~crc) data

theorem crc32cE2fs_eq (crc : BitVec 32) (data : List UInt8) :
    crc32cE2fs crc data = data.foldl crc32cByte crc := by
  unfold crc32cE2fs ext4Crc32c
  rw [BitVec.not_not, BitVec.not_not]

theorem crc32cEntry_eq (k : Nat) (c : BitVec 32) : crc32cEntry k c = (shift crc32cPoly)^[k] c := by
  induction k generalizing c with
  | zero => rfl
  | succ k ih =>
    rw [crc32cEntry, ih, Function.iterate_succ_apply]
    exact congrArg _ (shift_of_and crc32cPoly c)

theorem crc32cBuild_eq : crc32cBuild = table crc32cPoly := by
  unfold crc32cBuild table
  simp only [crc32cEntry_eq]

/-- The loop divides the register by the polynomial. -/
theorem crc32cByte_eq (crc : BitVec 32) (b : UInt8) :
    crc32cByte crc b = divide crc32cPoly crc (Lib.Bits.field 8 b.toNat) := by
  obtain ⟨t, hload, hdivide⟩ := table_lookup crc32cPoly crc (by decide) b
  rw [← hdivide, crc32cByte, crc32cBuild_eq, List.getD_eq_getElem?_getD, hload, Option.getD_some]

theorem crc32cE2fs_divide (crc : BitVec 32) (data : List UInt8) :
    crc32cE2fs crc data = divide crc32cPoly crc (Lib.Bits.byteBits data) := by
  rw [crc32cE2fs_eq]
  induction data generalizing crc with
  | nil => rfl
  | cons b data ih =>
    rw [List.foldl_cons, ih, crc32cByte_eq, Lib.Bits.byteBits_cons, divide_append]

/-- The same bytes give the same checksum only from the same seed. -/
theorem crc32cE2fs_injective (data : List UInt8) :
    Function.Injective fun crc => crc32cE2fs crc data := by
  intro x y hxy
  simp only [crc32cE2fs_eq] at hxy
  induction data generalizing x y with
  | nil => exact hxy
  | cons b data ih =>
    have hbyte := ih hxy
    rw [crc32cByte_eq, crc32cByte_eq] at hbyte
    exact divide_injective (by decide) _ hbyte

end Cage.Ext4
