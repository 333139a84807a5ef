import Mathlib.Data.List.Basic

/-!
Loading things that need others. A thing is refused as long as something it needs
is missing; one that is there already may be asked for again. Every attempt is
kept, with what was loaded when it was made.
-/

namespace Cage.Lib.Dependencies

variable {α : Type}

/-- What each thing needs, whether it can be opened at all, and whether it is accepted
once all that it needs is there. -/
structure Rules (α : Type) where
  needs : α → List α
  opens : α → Bool
  accepts : α → Bool

structure State (α : Type) where
  loaded : List α
  tries : List (α × List α)

/-- No attempt was made too early. -/
def Satisfied (R : Rules α) (s : State α) : Prop :=
  ∀ p ∈ s.tries, ∀ x ∈ R.needs p.1, x ∈ p.2

/-- Whatever is opened in its turn has what it needs among `loaded`. The turn of the
next comes if this one is accepted, or there already. -/
def ReadyInTurn (R : Rules α) (loaded : List α) : List α → Prop
  | [] => True
  | a :: rest => R.opens a = true → (∀ x ∈ R.needs a, x ∈ loaded) ∧
      (R.accepts a = true ∨ a ∈ loaded → ReadyInTurn R loaded rest)

variable [DecidableEq α]

def State.try (s : State α) (a : α) : State α := { s with tries := (a, s.loaded) :: s.tries }

def State.add (s : State α) (a : α) : State α := { s with loaded := a :: s.loaded }

def load (R : Rules α) (a : α) (s : State α) : Bool × State α :=
  if !R.opens a then (false, s)
  else if a ∈ s.loaded then (true, s.try a)
  else if (∀ x ∈ R.needs a, x ∈ s.loaded) ∧ R.accepts a then (true, (s.try a).add a)
  else (false, s.try a)

/-- One after the other, up to the first that fails. -/
def loadAll (R : Rules α) : List α → State α → Bool × State α
  | [], s => (true, s)
  | a :: rest, s => if (load R a s).1 then loadAll R rest (load R a s).2 else (false, (load R a s).2)

section Order

variable {R : Rules α} {L : List α} {s : State α} {a : α}

omit [DecidableEq α] in
theorem satisfied_try : Satisfied R (s.try a) ↔ (∀ x ∈ R.needs a, x ∈ s.loaded) ∧ Satisfied R s :=
  List.forall_mem_cons

/-- What an attempt leaves: nothing is unloaded, and only what is accepted is loaded. -/
theorem load_loaded (x : α) : x ∈ (load R a s).2.loaded ↔
    x ∈ s.loaded ∨ x = a ∧ R.opens a = true ∧ (∀ y ∈ R.needs a, y ∈ s.loaded) ∧
      R.accepts a = true ∧ a ∉ s.loaded := by
  unfold load
  by_cases hopen : R.opens a = true
  · rw [if_neg (by simp [hopen])]
    by_cases hmem : a ∈ s.loaded
    · rw [if_pos hmem]
      exact ⟨Or.inl, fun h => h.elim id fun h => absurd hmem h.2.2.2.2⟩
    · rw [if_neg hmem]
      by_cases hok : (∀ x ∈ R.needs a, x ∈ s.loaded) ∧ R.accepts a
      · rw [if_pos hok]
        constructor
        · intro h
          rcases List.mem_cons.mp h with h | h
          · exact Or.inr ⟨h, hopen, hok.1, hok.2, hmem⟩
          · exact Or.inl h
        · rintro (h | ⟨rfl, -⟩)
          · exact List.mem_cons_of_mem a h
          · exact List.mem_cons_self
      · rw [if_neg hok]
        exact ⟨Or.inl, fun h => h.elim id fun h => absurd ⟨h.2.2.1, h.2.2.2.1⟩ hok⟩
  · rw [if_pos (by simp [hopen])]
    exact ⟨Or.inl, fun h => h.elim id fun h => absurd h.2.1 hopen⟩

theorem load_satisfied : Satisfied R (load R a s).2 ↔
    (R.opens a = true → ∀ x ∈ R.needs a, x ∈ s.loaded) ∧ Satisfied R s := by
  unfold load
  by_cases hopen : R.opens a = true
  · rw [if_neg (by simp [hopen])]
    have htry : Satisfied R (s.try a) ↔
        (R.opens a = true → ∀ x ∈ R.needs a, x ∈ s.loaded) ∧ Satisfied R s := by
      rw [satisfied_try]
      simp only [hopen, forall_const]
    split
    · exact htry
    · split
      · exact htry
      · exact htry
  · rw [if_pos (by simp [hopen])]
    exact ⟨fun h => ⟨fun ho => absurd ho hopen, h⟩, fun h => h.2⟩

theorem load_ok : (load R a s).1 = true ↔ R.opens a = true ∧
    (a ∈ s.loaded ∨ (∀ x ∈ R.needs a, x ∈ s.loaded) ∧ R.accepts a = true) := by
  unfold load
  by_cases hopen : R.opens a = true
  · rw [if_neg (by simp [hopen])]
    by_cases hmem : a ∈ s.loaded
    · simp [hmem, hopen]
    · rw [if_neg hmem]
      by_cases hok : (∀ x ∈ R.needs a, x ∈ s.loaded) ∧ R.accepts a
      · rw [if_pos hok]
        exact ⟨fun _ => ⟨hopen, Or.inr hok⟩, fun _ => rfl⟩
      · rw [if_neg hok]
        exact ⟨fun h => absurd h Bool.false_ne_true, fun h => absurd (h.2.resolve_left hmem) hok⟩
  · rw [if_pos (by simp [hopen])]
    exact ⟨fun h => absurd h Bool.false_ne_true, fun h => absurd h.1 hopen⟩

theorem load_mem (h : (load R a s).1 = true) : a ∈ (load R a s).2.loaded := by
  obtain ⟨hopen, hmem | ⟨hneeds, haccepts⟩⟩ := load_ok.mp h
  · exact (load_loaded a).mpr (Or.inl hmem)
  · by_cases hmem : a ∈ s.loaded
    · exact (load_loaded a).mpr (Or.inl hmem)
    · exact (load_loaded a).mpr (Or.inr ⟨rfl, hopen, hneeds, haccepts, hmem⟩)

/-- How far a list has been loaded from `L`: nothing of `L` is gone, what was added was
accepted, and none of it is needed by what follows. -/
structure Since (R : Rules α) (L : List α) (l : List α) (s : State α) : Prop where
  kept : ∀ x ∈ L, x ∈ s.loaded
  added : ∀ x ∈ s.loaded, x ∈ L ∨ R.accepts x = true
  unneeded : ∀ a ∈ l, ∀ x ∈ R.needs a, x ∈ s.loaded → x ∈ L

theorem Since.load {l : List α} (h : Since R L (a :: l) s) (hfirst : ∀ b ∈ l, a ∉ R.needs b) :
    Since R L l (load R a s).2 where
  kept x hx := (load_loaded x).mpr (Or.inl (h.kept x hx))
  added x hx := by
    rcases (load_loaded x).mp hx with hx | ⟨rfl, -, -, haccepts, -⟩
    · exact h.added x hx
    · exact Or.inr haccepts
  unneeded b hb x hx hmem := by
    rcases (load_loaded x).mp hmem with hmem | ⟨rfl, -⟩
    · exact h.unneeded b (List.mem_cons_of_mem a hb) x hx hmem
    · exact absurd hx (hfirst b hb)

/-- If nothing in the list is needed by what stands behind it, then no attempt comes too
early exactly if everything is ready when its turn comes. -/
theorem loadAll_satisfied {l : List α} (horder : l.Pairwise fun x y => x ∉ R.needs y)
    (h : Since R L l s) :
    Satisfied R (loadAll R l s).2 ↔ ReadyInTurn R L l ∧ Satisfied R s := by
  induction l generalizing s with
  | nil => exact ⟨fun h => ⟨trivial, h⟩, fun h => h.2⟩
  | cons a l ih =>
    obtain ⟨hfirst, hrest⟩ := List.pairwise_cons.mp horder
    have hneeds : (∀ x ∈ R.needs a, x ∈ s.loaded) ↔ ∀ x ∈ R.needs a, x ∈ L :=
      ⟨fun hall x hx => h.unneeded a List.mem_cons_self x hx (hall x hx),
        fun hall x hx => h.kept x (hall x hx)⟩
    have hmem : R.accepts a = true ∨ a ∈ s.loaded ↔ R.accepts a = true ∨ a ∈ L :=
      ⟨fun hor => hor.elim Or.inl fun hm => (h.added a hm).symm, fun hor => hor.imp id (h.kept a)⟩
    have hload := load_satisfied (R := R) (s := s) (a := a)
    unfold loadAll ReadyInTurn
    by_cases hopen : R.opens a = true
    · simp only [hopen, forall_const, hneeds] at hload ⊢
      by_cases hok : (load R a s).1 = true
      · have hturn : R.accepts a = true ∨ a ∈ L := by
          refine hmem.mp ?_
          exact (load_ok.mp hok).2.symm.imp And.right id
        rw [if_pos hok, ih hrest (h.load hfirst), hload]
        exact ⟨fun ⟨hready, hthis, hs⟩ => ⟨⟨hthis, fun _ => hready⟩, hs⟩,
          fun ⟨⟨hthis, hready⟩, hs⟩ => ⟨hready hturn, hthis, hs⟩⟩
      · rw [if_neg hok, hload]
        refine ⟨fun ⟨hthis, hs⟩ => ⟨⟨hthis, fun hturn => absurd ?_ hok⟩, hs⟩,
          fun ⟨⟨hthis, _⟩, hs⟩ => ⟨hthis, hs⟩⟩
        exact load_ok.mpr ⟨hopen, (hmem.mpr hturn).symm.imp id fun ha => ⟨hneeds.mpr hthis, ha⟩⟩
    · have hok : ¬ (load R a s).1 = true := fun hok => hopen (load_ok.mp hok).1
      rw [if_neg hok, hload]
      exact ⟨fun ⟨_, hs⟩ => ⟨fun ho => absurd ho hopen, hs⟩,
        fun ⟨_, hs⟩ => ⟨fun ho => absurd ho hopen, hs⟩⟩

theorem loadAll_mem {l : List α} (h : (loadAll R l s).1 = true) (x : α) (hx : x ∈ l ∨ x ∈ s.loaded) :
    x ∈ (loadAll R l s).2.loaded := by
  induction l generalizing s with
  | nil => exact hx.resolve_left List.not_mem_nil
  | cons a l ih =>
    unfold loadAll at h ⊢
    by_cases hok : (load R a s).1 = true
    · rw [if_pos hok] at h ⊢
      refine ih h ?_
      rcases hx with hx | hx
      · rcases List.mem_cons.mp hx with rfl | hx
        · exact Or.inr (load_mem hok)
        · exact Or.inl hx
      · exact Or.inr ((load_loaded x).mpr (Or.inl hx))
    · rw [if_neg hok] at h
      exact absurd h Bool.false_ne_true

/-- Where everything opens and is accepted, a list that is ready in turn is loaded. -/
theorem loadAll_ok {l : List α} (hrules : ∀ a, R.opens a = true ∧ R.accepts a = true)
    (hkept : ∀ x ∈ L, x ∈ s.loaded) (hready : ReadyInTurn R L l) : (loadAll R l s).1 = true := by
  induction l generalizing s with
  | nil => rfl
  | cons a l ih =>
    obtain ⟨hneeds, hrest⟩ := hready (hrules a).1
    have hok : (load R a s).1 = true :=
      load_ok.mpr ⟨(hrules a).1, Or.inr ⟨fun x hx => hkept x (hneeds x hx), (hrules a).2⟩⟩
    unfold loadAll
    rw [if_pos hok]
    exact ih (fun x hx => (load_loaded x).mpr (Or.inl (hkept x hx))) (hrest (Or.inl (hrules a).2))

end Order

end Cage.Lib.Dependencies
