import Cage.Ext4.Contents

/-!
The fields of the records: each is read back as it was written, and a checksum
is the one of the record it stands in.
-/

namespace Cage.Ext4

open Lib.Buffer Util

variable {n : Nat}

theorem byte_wr16 (b : ByteVec n) (p v j : Nat) :
    byte (wr16 b p v) j =
      if j = p + 1 ∧ j < n then UInt8.ofNat (v >>> 8)
      else if j = p ∧ j < n then UInt8.ofNat v else byte b j := by
  rw [wr16, byte_wr8, byte_wr8]

theorem byte_wr16_of_ne (b : ByteVec n) {p j : Nat} (v : Nat) (h : j < p ∨ p + 2 ≤ j) :
    byte (wr16 b p v) j = byte b j := by
  rw [byte_wr16, if_neg (by omega), if_neg (by omega)]

theorem byte_wr32_of_ne (b : ByteVec n) {p j : Nat} (v : Nat) (h : j < p ∨ p + 4 ≤ j) :
    byte (wr32 b p v) j = byte b j := by
  rw [wr32, byte_wr8, byte_wr8, byte_wr8, byte_wr8, if_neg (by omega), if_neg (by omega),
    if_neg (by omega), if_neg (by omega)]

theorem byte_wr8_of_ne (b : ByteVec n) {p j : Nat} (v : Nat) (h : j ≠ p) :
    byte (wr8 b p v) j = byte b j := by
  rw [byte_wr8, if_neg (fun hj => h hj.1)]

theorem byte_put_of_disjoint (b : ByteVec n) {off k j : Nat} (d : ByteVec k) (h : j < off ∨ off + k ≤ j) :
    byte (put b off d) j = byte b j := by
  rw [byte_put, if_neg (by omega)]

/-- What is read depends on the bytes of the field. -/
theorem rd16_congr {a b : ByteVec n} {p : Nat} (h : ∀ j, p ≤ j → j < p + 2 → byte a j = byte b j) :
    rd16 a p = rd16 b p := by
  unfold rd16 rd8
  rw [h p (by omega) (by omega), h (p + 1) (by omega) (by omega)]

theorem rd32_congr {a b : ByteVec n} {p : Nat} (h : ∀ j, p ≤ j → j < p + 4 → byte a j = byte b j) :
    rd32 a p = rd32 b p := by
  unfold rd32 rd8
  rw [h p (by omega) (by omega), h (p + 1) (by omega) (by omega), h (p + 2) (by omega) (by omega),
    h (p + 3) (by omega) (by omega)]

theorem slice_congr {a b : ByteVec n} {o m : Nat} (h : ∀ j, o ≤ j → j < o + m → byte a j = byte b j) :
    slice a o m = slice b o m := by
  apply buf_ext
  intro i hi
  rw [byte_slice, byte_slice, if_pos hi, if_pos hi, h (o + i) (by omega) (by omega)]

section Disjoint

variable (b : ByteVec n) {p q : Nat} (v : Nat)

theorem rd16_wr16 (h : q + 2 ≤ p ∨ p + 2 ≤ q) : rd16 (wr16 b p v) q = rd16 b q :=
  rd16_congr fun _ h1 h2 => byte_wr16_of_ne b v (by omega)

theorem rd16_wr32 (h : q + 2 ≤ p ∨ p + 4 ≤ q) : rd16 (wr32 b p v) q = rd16 b q :=
  rd16_congr fun _ h1 h2 => byte_wr32_of_ne b v (by omega)

theorem rd32_wr16 (h : q + 4 ≤ p ∨ p + 2 ≤ q) : rd32 (wr16 b p v) q = rd32 b q :=
  rd32_congr fun _ h1 h2 => byte_wr16_of_ne b v (by omega)

theorem rd32_wr32 (h : q + 4 ≤ p ∨ p + 4 ≤ q) : rd32 (wr32 b p v) q = rd32 b q :=
  rd32_congr fun _ h1 h2 => byte_wr32_of_ne b v (by omega)

theorem rd16_wr8 (h : q + 2 ≤ p ∨ p + 1 ≤ q) : rd16 (wr8 b p v) q = rd16 b q :=
  rd16_congr fun _ h1 h2 => byte_wr8_of_ne b v (by omega)

theorem rd32_wr8 (h : q + 4 ≤ p ∨ p + 1 ≤ q) : rd32 (wr8 b p v) q = rd32 b q :=
  rd32_congr fun _ h1 h2 => byte_wr8_of_ne b v (by omega)

theorem rd16_put {k : Nat} (d : ByteVec k) (h : q + 2 ≤ p ∨ p + k ≤ q) :
    rd16 (put b p d) q = rd16 b q :=
  rd16_congr fun _ h1 h2 => byte_put_of_disjoint b d (by omega)

theorem rd32_put {k : Nat} (d : ByteVec k) (h : q + 4 ≤ p ∨ p + k ≤ q) :
    rd32 (put b p d) q = rd32 b q :=
  rd32_congr fun _ h1 h2 => byte_put_of_disjoint b d (by omega)

theorem slice_wr32 {m : Nat} (h : q + m ≤ p ∨ p + 4 ≤ q) :
    slice (wr32 b p v) q m = slice b q m :=
  slice_congr fun _ h1 h2 => byte_wr32_of_ne b v (by omega)

end Disjoint

theorem wr16_wr16 (b : ByteVec n) (p v w : Nat) : wr16 (wr16 b p v) p w = wr16 b p w := by
  apply buf_ext
  intro j _
  rw [byte_wr16, byte_wr16, byte_wr16]
  split
  · rfl
  · split <;> rfl

theorem wr16_comm (b : ByteVec n) {p q : Nat} (v w : Nat) (h : p + 2 ≤ q ∨ q + 2 ≤ p) :
    wr16 (wr16 b p v) q w = wr16 (wr16 b q w) p v := by
  apply buf_ext
  intro j _
  by_cases hq : q ≤ j ∧ j < q + 2
  · rw [byte_wr16_of_ne (wr16 b q w) v (by omega), byte_wr16 (wr16 b p v), byte_wr16 b q,
      byte_wr16_of_ne b v (by omega)]
  · rw [byte_wr16_of_ne (wr16 b p v) w (by omega), byte_wr16 (wr16 b q w), byte_wr16 b p,
      byte_wr16_of_ne b w (by omega)]

/-- The halves of a checksum. -/
theorem halves (c : BitVec 32) :
    (c &&& 0xFFFF).toNat % 65536 + (c >>> 16).toNat % 65536 * 65536 = c.toNat := by
  have hlt := c.isLt
  have hlow : (c &&& 0xFFFF).toNat = c.toNat % 65536 := by
    rw [BitVec.toNat_and]
    exact Nat.and_two_pow_sub_one_eq_mod _ 16
  rw [hlow, BitVec.toNat_ushiftRight, Nat.shiftRight_eq_div_pow]
  omega

end Cage.Ext4
