import Mathlib.Algebra.Group.Int.Defs
import Mathlib.Algebra.Group.Nat.Defs
import Mathlib.Data.List.TakeWhile

/-!
C strings as the list of their bytes before the terminating NUL.
-/

namespace Cage.Util

abbrev CStr := List UInt8

/-- What the membership tests on lists of strings use. -/
instance : LawfulBEq CStr := inferInstance

/-- A string literal of the source. -/
def lit (s : String) : CStr := s.toList.map fun c => c.toUInt8

/-- `strchr`: the rest of the string from the first occurrence of `c`. -/
def strchr : CStr → UInt8 → Option CStr
  | [], _ => none
  | x :: s, c => if x = c then some (x :: s) else strchr s c

/-- `strrchr`: the rest of the string from the last occurrence of `c`. -/
def strrchr : CStr → UInt8 → Option CStr
  | [], _ => none
  | x :: s, c =>
      match strrchr s c with
      | some r => some r
      | none => if x = c then some (x :: s) else none

theorem strchr_append {a v : CStr} {c : UInt8} (ha : c ∉ a) :
    strchr (a ++ c :: v) c = some (c :: v) := by
  induction a with
  | nil => simp [strchr]
  | cons x a ih =>
    have hne : c ≠ x := List.ne_of_not_mem_cons ha
    rw [List.cons_append, strchr, if_neg hne.symm, ih (List.not_mem_of_not_mem_cons ha)]

theorem strchr_none {s : CStr} {c : UInt8} (h : c ∉ s) : strchr s c = none := by
  induction s with
  | nil => rfl
  | cons x s ih =>
    have hne : c ≠ x := List.ne_of_not_mem_cons h
    rw [strchr, if_neg hne.symm, ih (List.not_mem_of_not_mem_cons h)]

theorem strrchr_append {a t : CStr} {c : UInt8} (h : c ∉ t) :
    strrchr (a ++ c :: t) c = some (c :: t) := by
  have hnone : strrchr t c = none := by
    clear a
    induction t with
    | nil => rfl
    | cons x t ih =>
      rw [List.mem_cons, not_or] at h
      rw [strrchr, ih h.2]
      exact if_neg (Ne.symm h.1)
  induction a with
  | nil =>
    rw [List.nil_append, strrchr, hnone]
    exact if_pos rfl
  | cons x a ih => rw [List.cons_append, strrchr, ih]

/-- The string at the front of a piece of memory. -/
def cstring (mem : List UInt8) : CStr := mem.takeWhile (· ≠ 0)

theorem cstring_eq_self {s : CStr} (h : 0 ∉ s) : cstring s = s := by
  refine List.takeWhile_eq_self_iff.mpr ?_
  intro c hc
  exact decide_eq_true fun hzero => h (hzero ▸ hc)

theorem cstring_append {s : CStr} (h : 0 ∉ s) (mem : List UInt8) : cstring (s ++ 0 :: mem) = s := by
  unfold cstring
  rw [List.takeWhile_append_of_pos, List.takeWhile_cons_of_neg (by decide), List.append_nil]
  intro c hc
  exact decide_eq_true fun hzero => h (hzero ▸ hc)

/-- `strncmp(s, t, n) == 0`. -/
def strncmpEq (s t : CStr) (n : Nat) : Bool := s.take n == t.take n

theorem strncmpEq_length {s t : CStr} : strncmpEq s t t.length = true ↔ t <+: s := by
  unfold strncmpEq
  rw [beq_iff_eq, List.take_length, List.prefix_iff_eq_take, eq_comm]

def slash : UInt8 := 47

def colon : UInt8 := 58

def equals : UInt8 := 61

/-- `PATH_MAX`, which is the size of the buffers for paths as well. -/
def pathMax : Nat := 4096

def isDigit (c : UInt8) : Bool := 48 ≤ c && c ≤ 57

end Cage.Util
