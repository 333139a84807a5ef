import Mathlib.Data.List.Infix

/-!
Paths in a tree without links, as the names on the way from the top. Two names
are special: one stays where it is, one goes up.
-/

namespace Cage.Lib.Descent

structure Dots (A : Type) where
  here : A
  up : A

variable {A : Type} [DecidableEq A] (d : Dots A)

/-- One name further. Above the top there is nothing but the top. -/
def move (l : List A) (a : A) : List A :=
  if a = d.here then l else if a = d.up then l.dropLast else l ++ [a]

/-- Where the names `as` lead to from `l`. -/
def resolve (l as : List A) : List A := as.foldl (move d) l

/-- The places that the names `as` lead through from `l`, with both ends. -/
def places (l as : List A) : List (List A) := as.inits.map (resolve d l)

/-- The way from `root` along `as` ends below `root`, and leaves what is below
`root` through the places above it only. -/
def Stays (root as : List A) : Prop :=
  (∀ l ∈ places d root as, root <+: l ∨ l <+: root) ∧ root <+: resolve d root as

instance (root as : List A) : Decidable (Stays d root as) :=
  inferInstanceAs (Decidable (_ ∧ _))

theorem resolve_append (l as bs : List A) :
    resolve d l (as ++ bs) = resolve d (resolve d l as) bs :=
  List.foldl_append

theorem mem_places {l as x : List A} :
    x ∈ places d l as ↔ ∃ bs, bs <+: as ∧ resolve d l bs = x := by
  unfold places
  rw [List.mem_map]
  simp only [List.mem_inits]

/-- One name more leads to one place more. -/
theorem mem_places_snoc {l as x : List A} {a : A} :
    x ∈ places d l (as ++ [a]) ↔ x ∈ places d l as ∨ x = move d (resolve d l as) a := by
  rw [mem_places, mem_places]
  constructor
  · rintro ⟨bs, hbs, rfl⟩
    rcases List.prefix_concat_iff.mp hbs with rfl | hbs
    · right
      rw [resolve_append]
      rfl
    · exact Or.inl ⟨bs, hbs, rfl⟩
  · rintro (⟨bs, hbs, rfl⟩ | rfl)
    · exact ⟨bs, hbs.trans (List.prefix_append as [a]), rfl⟩
    · refine ⟨as ++ [a], List.prefix_rfl, ?_⟩
      rw [resolve_append]
      rfl

variable {d}

/-- Without a step up, the way is the names themselves. -/
theorem resolve_of_no_up {as : List A} (h : d.up ∉ as) (l : List A) :
    resolve d l as = l ++ as.filter (· ≠ d.here) := by
  induction as generalizing l with
  | nil => exact (List.append_nil l).symm
  | cons a as ih =>
    have hup : a ≠ d.up := (List.ne_of_not_mem_cons h).symm
    have hrest := ih (List.not_mem_of_not_mem_cons h) (move d l a)
    change resolve d (move d l a) as = _
    rw [hrest]
    by_cases hhere : a = d.here
    · have hstep : move d l a = l := if_pos hhere
      rw [hstep, List.filter_cons_of_neg (by simpa using hhere)]
    · have hstep : move d l a = l ++ [a] := by rw [move, if_neg hhere, if_neg hup]
      rw [hstep, List.filter_cons_of_pos (by simpa using hhere), List.append_assoc,
        List.singleton_append]

theorem resolve_plain {as : List A} (h : ∀ a ∈ as, a ≠ d.here ∧ a ≠ d.up) (l : List A) :
    resolve d l as = l ++ as := by
  have hall : as.filter (· ≠ d.here) = as :=
    List.filter_eq_self.mpr fun a ha => decide_eq_true (h a ha).1
  rw [resolve_of_no_up (fun hup => (h d.up hup).2 rfl), hall]

theorem resolve_root {root : List A} (h : ∀ a ∈ root, a ≠ d.here ∧ a ≠ d.up) (as : List A) :
    resolve d [] (root ++ as) = resolve d root as := by
  rw [resolve_append, resolve_plain h, List.nil_append]

end Cage.Lib.Descent
