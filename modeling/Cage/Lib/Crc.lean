import Cage.Lib.Bits
import Mathlib.Logic.Function.Iterate

/-!
Reflected cyclic redundancy codes. The register is divided by the polynomial
one message bit at a time, lowest bit first; the step is linear over exclusive
or, which is why a table indexed by the low byte advances it by eight bits.
-/

namespace Cage.Lib.Crc

open Lib.Bits

variable {w : Nat}

/-- One shift of the register, and a subtraction of the polynomial if the bit
shifted out is set. -/
def shift (poly c : BitVec w) : BitVec w :=
  if c.getLsbD 0 then poly ^^^ (c >>> 1) else c >>> 1

/-- The register after one message bit. -/
def bitStep (poly c : BitVec w) (b : Bool) : BitVec w :=
  shift poly (c ^^^ BitVec.ofNat w b.toNat)

/-- The register after a message. -/
def divide (poly c : BitVec w) (bits : List Bool) : BitVec w := bits.foldl (bitStep poly) c

@[simp] theorem divide_nil (poly c : BitVec w) : divide poly c [] = c := rfl

theorem divide_append (poly c : BitVec w) (xs ys : List Bool) :
    divide poly c (xs ++ ys) = divide poly (divide poly c xs) ys := List.foldl_append

theorem shift_xor (poly x y : BitVec w) : shift poly (x ^^^ y) = shift poly x ^^^ shift poly y := by
  unfold shift
  rw [BitVec.getLsbD_xor, BitVec.ushiftRight_xor_distrib]
  apply BitVec.eq_of_getLsbD_eq
  intro i _
  cases x.getLsbD 0 <;> cases y.getLsbD 0 <;> simp
  · cases poly.getLsbD i <;> cases x.getLsbD (1 + i) <;> cases y.getLsbD (1 + i) <;> rfl
  · cases poly.getLsbD i <;> cases x.getLsbD (1 + i) <;> cases y.getLsbD (1 + i) <;> rfl

/-- A polynomial of full degree loses nothing. -/
theorem shift_injective {poly : BitVec w} (hpoly : poly.getLsbD (w - 1) = true) :
    Function.Injective (shift poly) := by
  have hpos : 0 < w := by
    have hlt := BitVec.lt_of_getLsbD hpoly
    omega
  intro x y hxy
  have hzero : shift poly (x ^^^ y) = 0#w := by
    rw [shift_xor, hxy, BitVec.xor_self]
  have hhigh : ((x ^^^ y) >>> 1).getLsbD (w - 1) = false := by
    rw [BitVec.getLsbD_ushiftRight]
    exact BitVec.getLsbD_of_ge _ _ (by omega)
  have hlow : (x ^^^ y).getLsbD 0 = false := by
    by_contra hset
    unfold shift at hzero
    rw [if_pos (by simpa using hset)] at hzero
    have hbit := congrArg (fun z => z.getLsbD (w - 1)) hzero
    simp only [BitVec.getLsbD_xor, hpoly, hhigh] at hbit
    simp at hbit
  unfold shift at hzero
  rw [if_neg (by simp [hlow])] at hzero
  have hsame : x ^^^ y = 0#w := by
    apply BitVec.eq_of_getLsbD_eq
    intro i hi
    cases i with
    | zero => simpa using hlow
    | succ i =>
      have hbit := congrArg (fun z => z.getLsbD i) hzero
      rw [Nat.add_comm]
      simpa [BitVec.getLsbD_ushiftRight] using hbit
  exact BitVec.xor_eq_zero_iff.mp hsame

/-- The register after a message determines the one before it. -/
theorem divide_injective {poly : BitVec w} (hpoly : poly.getLsbD (w - 1) = true)
    (bits : List Bool) : Function.Injective fun c => divide poly c bits := by
  induction bits with
  | nil => exact fun _ _ h => h
  | cons b bits ih =>
    intro x y hxy
    exact (BitVec.xor_left_inj _).mp (shift_injective hpoly (ih hxy))

theorem shifts_xor (poly x y : BitVec w) (n : Nat) :
    (shift poly)^[n] (x ^^^ y) = (shift poly)^[n] x ^^^ (shift poly)^[n] y := by
  induction n generalizing x y with
  | zero => rfl
  | succ n ih => rw [Function.iterate_succ_apply, shift_xor, ih]; rfl

/-- Shifts that push out only zeros do not meet the polynomial. -/
theorem shifts_high (poly x : BitVec w) (n : Nat) (h : ∀ i, i < n → x.getLsbD i = false) :
    (shift poly)^[n] x = x >>> n := by
  induction n generalizing x with
  | zero => rfl
  | succ n ih =>
    have hshift : shift poly x = x >>> 1 := by
      unfold shift
      rw [h 0 (by omega)]
      rfl
    rw [Function.iterate_succ_apply, hshift, ih]
    · rw [← BitVec.shiftRight_add, Nat.add_comm]
    · intro i hi
      rw [BitVec.getLsbD_ushiftRight]
      exact h (1 + i) (by omega)

/-- A field is its low bit and, one place up, the bits above it. -/
private theorem ofNat_split (n v : Nat) :
    BitVec.ofNat w (v % 2 ^ (n + 1)) =
      BitVec.ofNat w (v % 2) ^^^ BitVec.ofNat w (v / 2 % 2 ^ n * 2) := by
  apply BitVec.eq_of_getLsbD_eq
  intro i hi
  rw [BitVec.getLsbD_xor, BitVec.getLsbD_ofNat, BitVec.getLsbD_ofNat, BitVec.getLsbD_ofNat]
  cases i with
  | zero =>
    have hlow : v % 2 ^ (n + 1) % 2 = v % 2 := by
      rw [Nat.pow_succ, Nat.mul_comm, Nat.mod_mul_right_mod]
    simp [Nat.testBit_zero, hlow]
  | succ i =>
    have hhigh : v % 2 ^ (n + 1) / 2 = v / 2 % 2 ^ n := by
      rw [Nat.pow_succ, Nat.mul_comm, Nat.mod_mul_right_div_self]
    have hnone : v % 2 / 2 = 0 := by omega
    rw [Nat.testBit_succ, Nat.testBit_succ, Nat.testBit_succ, hhigh, hnone,
      Nat.mul_div_cancel _ (by decide), Nat.zero_testBit, Bool.and_false, Bool.false_xor]

private theorem shift_double (poly : BitVec w) (x : Nat) (hx : x * 2 < 2 ^ w) :
    shift poly (BitVec.ofNat w (x * 2)) = BitVec.ofNat w x := by
  have hlow : (BitVec.ofNat w (x * 2)).getLsbD 0 = false := by
    simp [BitVec.getLsbD_ofNat, Nat.testBit_zero]
  unfold shift
  rw [hlow]
  apply BitVec.eq_of_toNat_eq
  simp only [Bool.false_eq_true, if_false, BitVec.toNat_ushiftRight, BitVec.toNat_ofNat]
  rw [Nat.mod_eq_of_lt hx, Nat.mod_eq_of_lt (by omega), Nat.shiftRight_succ, Nat.shiftRight_zero]
  omega

/-- `n` message bits may be added to the register before the shifts. -/
theorem divide_field (poly c : BitVec w) (n v : Nat) (hn : n ≤ w) :
    divide poly c (field n v) = (shift poly)^[n] (c ^^^ BitVec.ofNat w (v % 2 ^ n)) := by
  induction n generalizing c v with
  | zero => simp [Nat.mod_one]
  | succ n ih =>
    have hlt : v / 2 % 2 ^ n * 2 < 2 ^ w := by
      have hmod : v / 2 % 2 ^ n < 2 ^ n := Nat.mod_lt _ (Nat.two_pow_pos n)
      have hpow : 2 ^ (n + 1) ≤ 2 ^ w := Nat.pow_le_pow_right (by decide) hn
      omega
    show divide poly (bitStep poly c (v % 2 == 1)) (field n (v / 2)) = _
    rw [ih _ _ (by omega), bitStep, toNat_eq_mod, Function.iterate_succ_apply, ofNat_split,
      ← BitVec.xor_assoc, shift_xor poly (c ^^^ _), shift_double poly _ hlt]

/-- The register and its part above the low byte. -/
private theorem low_xor_high (c : BitVec w) :
    c = BitVec.ofNat w (c.toNat % 2 ^ 8) ^^^ (c >>> 8 <<< 8) := by
  apply BitVec.eq_of_getLsbD_eq
  intro i hi
  rw [BitVec.getLsbD_xor, BitVec.getLsbD_ofNat, Nat.testBit_mod_two_pow, BitVec.getLsbD_shiftLeft,
    BitVec.getLsbD_ushiftRight, BitVec.testBit_toNat]
  by_cases h : i < 8
  · simp [h, hi]
  · simp [h, hi, show 8 + (i - 8) = i by omega]

/-- Eight shifts, as a lookup by the low byte. -/
theorem shifts_eight (poly c : BitVec w) :
    (shift poly)^[8] c = (shift poly)^[8] (BitVec.ofNat w (c.toNat % 2 ^ 8)) ^^^ (c >>> 8) := by
  have hclear : ∀ i, i < 8 → (c >>> 8 <<< 8).getLsbD i = false := by
    intro i hi
    rw [BitVec.getLsbD_shiftLeft]
    simp [hi]
  have hback : c >>> 8 <<< 8 >>> 8 = c >>> 8 := by
    apply BitVec.eq_of_getLsbD_eq
    intro i hi
    simp only [BitVec.getLsbD_ushiftRight, BitVec.getLsbD_shiftLeft]
    by_cases h : 8 + i < w
    · simp [h]
    · rw [BitVec.getLsbD_of_ge c (8 + i) (by omega)]
      simp [h]
  conv_lhs => rw [low_xor_high c, shifts_xor, shifts_high poly _ 8 hclear, hback]

/-- A table of the eight-bit shifts divides a message byte by byte. -/
theorem divide_byte (poly c : BitVec w) (b : UInt8) (hw : 8 ≤ w) :
    divide poly c (field 8 b.toNat) =
      (shift poly)^[8] (BitVec.ofNat w ((c ^^^ BitVec.ofNat w b.toNat).toNat % 2 ^ 8)) ^^^
        (c >>> 8) := by
  have hbyte : BitVec.ofNat w b.toNat >>> 8 = 0#w := by
    apply BitVec.eq_of_toNat_eq
    rw [BitVec.toNat_ushiftRight, BitVec.toNat_ofNat, Nat.shiftRight_eq_div_pow]
    have hlt : b.toNat % 2 ^ w ≤ b.toNat := Nat.mod_le _ _
    have hb := b.toNat_lt
    simp
    omega
  rw [divide_field poly c 8 b.toNat hw, Nat.mod_eq_of_lt b.toNat_lt, shifts_eight,
    BitVec.ushiftRight_xor_distrib, hbyte, BitVec.xor_zero]

end Cage.Lib.Crc
