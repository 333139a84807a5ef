import Mathlib.Data.List.Sort

/-!
Finite sets as strictly increasing lists: the list of a set is unique, and
insertion in place keeps the order.
-/

namespace Cage.Lib.SortedSet

variable {α : Type} [LT α] [DecidableLT α] [DecidableEq α]

def Increasing (l : List α) : Prop := l.Pairwise (· < ·)

/-- Put `a` before the first element that is not below it. -/
def insertSorted (a : α) : List α → List α
  | [] => [a]
  | x :: l => if x < a then x :: insertSorted a l else a :: x :: l

/-- Add `a` to the set. -/
def add (a : α) (l : List α) : List α := if a ∈ l then l else insertSorted a l

/-- The set of the elements of a list. -/
def ofList (l : List α) : List α := l.foldr add []

omit [DecidableEq α] in
@[simp] theorem mem_insertSorted (a b : α) (l : List α) :
    b ∈ insertSorted a l ↔ b = a ∨ b ∈ l := by
  induction l with
  | nil => simp [insertSorted]
  | cons x l ih =>
    unfold insertSorted
    split
    · simp only [List.mem_cons, ih]
      tauto
    · simp only [List.mem_cons]

@[simp] theorem mem_add (a b : α) (l : List α) : b ∈ add a l ↔ b = a ∨ b ∈ l := by
  unfold add
  split
  · rename_i h
    constructor
    · exact Or.inr
    · rintro (rfl | hb)
      · exact h
      · exact hb
  · exact mem_insertSorted a b l

@[simp] theorem mem_ofList (b : α) (l : List α) : b ∈ ofList l ↔ b ∈ l := by
  induction l with
  | nil => simp [ofList]
  | cons a l ih =>
    have h : ofList (a :: l) = add a (ofList l) := rfl
    rw [h, mem_add, ih, List.mem_cons]

omit [DecidableEq α] in
/-- The insertion at an index that is found by a scan. -/
theorem insertSorted_eq (a : α) (l : List α) :
    insertSorted a l = l.take (l.takeWhile fun x => x < a).length ++
      a :: l.drop (l.takeWhile fun x => x < a).length := by
  induction l with
  | nil => rfl
  | cons x l ih =>
    unfold insertSorted
    by_cases h : x < a
    · rw [if_pos h, List.takeWhile_cons_of_pos (by simpa using h), ih]
      rfl
    · rw [if_neg h, List.takeWhile_cons_of_neg (by simpa using h)]
      rfl

section Order

variable [LE α] [Std.IsLinearOrder α] [Std.LawfulOrderLT α]

omit [DecidableEq α] in
theorem increasing_insertSorted {a : α} {l : List α} (ha : a ∉ l) (h : Increasing l) :
    Increasing (insertSorted a l) := by
  induction l with
  | nil => exact List.pairwise_singleton _ a
  | cons x l ih =>
    obtain ⟨hx, hl⟩ := List.pairwise_cons.mp h
    have hne : a ≠ x := List.ne_of_not_mem_cons ha
    have ha' : a ∉ l := List.not_mem_of_not_mem_cons ha
    unfold insertSorted
    by_cases hlt : x < a
    · rw [if_pos hlt]
      refine List.pairwise_cons.mpr ⟨?_, ih ha' hl⟩
      intro b hb
      rcases (mem_insertSorted a b l).mp hb with rfl | hb
      · exact hlt
      · exact hx b hb
    · rw [if_neg hlt]
      have hax : a < x := by
        by_contra hax
        exact hne (Std.Trichotomous.trichotomous (r := fun y z : α => y < z) a x hax hlt)
      refine List.pairwise_cons.mpr ⟨?_, h⟩
      intro b hb
      rcases List.mem_cons.mp hb with rfl | hb
      · exact hax
      · exact Std.lt_trans hax (hx b hb)

theorem increasing_add (a : α) {l : List α} (h : Increasing l) : Increasing (add a l) := by
  unfold add
  split
  · exact h
  · rename_i ha
    exact increasing_insertSorted ha h

theorem increasing_ofList (l : List α) : Increasing (ofList l) := by
  induction l with
  | nil => exact List.Pairwise.nil
  | cons a l ih => exact increasing_add a ih

omit [DecidableLT α] [DecidableEq α] in
/-- A set has one increasing list. -/
theorem Increasing.unique {l m : List α} (hl : Increasing l) (hm : Increasing m)
    (h : ∀ a, a ∈ l ↔ a ∈ m) : l = m := by
  exact List.Pairwise.eq_of_mem_iff hl hm h

theorem eq_ofList {l m : List α} (hl : Increasing l) (h : ∀ a, a ∈ l ↔ a ∈ m) :
    l = ofList m :=
  hl.unique (increasing_ofList m) fun a => (h a).trans (mem_ofList a m).symm

end Order

end Cage.Lib.SortedSet
