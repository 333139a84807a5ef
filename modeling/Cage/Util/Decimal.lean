import Mathlib.Data.List.TakeWhile
import Cage.Util.MemPath

/-!
Numbers as `snprintf` writes them and `strtol` reads them.
-/

namespace Cage.Util

theorem isDigit_range {c : Char} (h : c.isDigit = true) :
    c.toUInt8.toNat = c.toNat ∧ 48 ≤ c.toNat ∧ c.toNat ≤ 57 := by
  simp only [Char.isDigit, Bool.and_eq_true, decide_eq_true_eq, ge_iff_le,
    UInt32.le_iff_toNat_le] at h
  have hbyte : c.toUInt8.toNat = c.toNat := by
    rw [Char.toUInt8, UInt32.toNat_toUInt8]
    exact Nat.mod_eq_of_lt (Nat.lt_of_le_of_lt h.2 (by decide))
  exact ⟨hbyte, h.1, h.2⟩

theorem isDigit_toUInt8 {c : Char} (h : c.isDigit = true) : isDigit c.toUInt8 = true := by
  obtain ⟨hbyte, hlow, hhigh⟩ := isDigit_range h
  simp only [isDigit, Bool.and_eq_true, decide_eq_true_eq, UInt8.le_iff_toNat_le, hbyte]
  exact ⟨hlow, hhigh⟩

theorem isDigit_iff_toNat (c : UInt8) : isDigit c = true ↔ 48 ≤ c.toNat ∧ c.toNat ≤ 57 := by
  simp only [isDigit, Bool.and_eq_true, decide_eq_true_eq, UInt8.le_iff_toNat_le]
  exact Iff.rfl

theorem intStr_nat (n : Nat) : intStr n = (Nat.toDigits 10 n).map fun c => c.toUInt8 := by
  rw [← Nat.toList_repr]
  rfl

theorem isDigit_of_mem_toDigits {n : Nat} {c : Char} (h : c ∈ Nat.toDigits 10 n) :
    c.isDigit = true :=
  Nat.isDigit_of_mem_toDigits (by decide) (by decide) h

theorem isDigit_of_mem_intStr {n : Nat} {c : UInt8} (h : c ∈ intStr n) : isDigit c = true := by
  rw [intStr_nat] at h
  obtain ⟨d, hd, rfl⟩ := List.mem_map.mp h
  exact isDigit_toUInt8 (isDigit_of_mem_toDigits hd)

theorem intStr_ne_nil (n : Nat) : intStr n ≠ [] := by
  rw [intStr_nat]
  intro hnil
  exact Nat.toDigits_ne_nil (List.map_eq_nil_iff.mp hnil)

/-- The digits are added up as they are read. -/
theorem foldl_digits (l : List Char) (a : Nat) (h : ∀ c ∈ l, c.isDigit = true) :
    (l.map fun c => c.toUInt8).foldl (fun (v : Int) c => v * 10 + (c.toNat - 48)) a =
      (Nat.ofDigitChars 10 l a : Nat) := by
  induction l generalizing a with
  | nil => rfl
  | cons c l ih =>
    obtain ⟨hbyte, hlow, -⟩ := isDigit_range (h c List.mem_cons_self)
    have hstep : (a : Int) * 10 + ((c.toUInt8.toNat : Int) - 48) =
        ((10 * a + (c.toNat - '0'.toNat) : Nat) : Int) := by
      have hzero : '0'.toNat = 48 := rfl
      rw [hbyte, hzero]
      omega
    rw [List.map_cons, List.foldl_cons, hstep, ih _ fun d hd => h d (List.mem_cons_of_mem c hd),
      Nat.ofDigitChars_cons]

/-- A number that fits in a `long` is read back. -/
theorem strtol_intStr {n : Nat} (h : n < 2 ^ 63) : strtol (intStr n) = ((n : Int), []) := by
  have hdigits : ∀ c ∈ intStr n, isDigit c = true := fun c hc => isDigit_of_mem_intStr hc
  obtain ⟨c, s, hs⟩ := List.exists_cons_of_ne_nil (intStr_ne_nil n)
  have hc : 48 ≤ c.toNat ∧ c.toNat ≤ 57 :=
    (isDigit_iff_toNat c).mp (hdigits c (hs ▸ List.mem_cons_self))
  have hspace : (intStr n).dropWhile isSpace = intStr n := by
    have hno : isSpace c = false := by
      simp only [isSpace, Bool.or_eq_false_iff, Bool.and_eq_false_iff, decide_eq_false_iff_not,
        UInt8.le_iff_toNat_le, ← UInt8.toNat_inj]
      refine ⟨?_, Or.inr ?_⟩
      · intro h32
        have h32' : c.toNat = 32 := h32
        omega
      · intro h13
        have h13' : c.toNat ≤ 13 := h13
        omega
    rw [hs, List.dropWhile_cons, hno]
    rfl
  have hsign : ¬ ((intStr n).head? = some 45 ∨ (intStr n).head? = some 43) := by
    rw [hs, List.head?_cons, Option.some.injEq, Option.some.injEq, ← UInt8.toNat_inj,
      ← UInt8.toNat_inj]
    intro h45
    have h45' : c.toNat = 45 ∨ c.toNat = 43 := h45
    omega
  have htake : (intStr n).takeWhile isDigit = intStr n := List.takeWhile_eq_self_iff.mpr hdigits
  have hdrop : (intStr n).dropWhile isDigit = [] := List.dropWhile_eq_nil_iff.mpr hdigits
  have hval : (intStr n).foldl (fun (v : Int) c => v * 10 + (c.toNat - 48)) 0 = n := by
    rw [intStr_nat]
    refine (foldl_digits _ 0 fun c hc => isDigit_of_mem_toDigits hc).trans ?_
    rw [Nat.ofDigitChars_ten_toDigits]
  unfold strtol
  rw [hspace]
  dsimp only
  rw [if_neg hsign, htake, hdrop, if_neg (intStr_ne_nil n), hval,
    if_neg fun h45 => hsign (Or.inl h45)]
  congr 1
  omega

end Cage.Util
