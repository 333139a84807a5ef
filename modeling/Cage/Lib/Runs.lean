import Mathlib.Data.Option.Basic
import Mathlib.Logic.Function.Basic

/-!
Runs of a step function. `step s a` is the state after action `a`, or `none`
where the action cannot happen in `s`. A run is restricted by a condition on
its steps; the unrestricted runs are those with the condition `Any`.
-/

namespace Cage.Lib.Runs

variable {S A : Type}

/-- Every step is allowed. -/
def Any (_ : S) (_ : A) : Prop := True

/-- The runs all of whose steps meet `ok`. -/
inductive Run (step : S → A → Option S) (ok : S → A → Prop) (s : S) : S → Prop where
  | refl : Run step ok s s
  | tail (t u : S) (a : A) (h : Run step ok s t) (hok : ok t a) (hstep : step t a = some u) :
      Run step ok s u

/-- What the first state has and every step keeps, every state of a run has. -/
theorem Run.invariant {step : S → A → Option S} {ok : S → A → Prop} {s t : S} (inv : S → Prop)
    (hinit : inv s) (hkeep : ∀ s a s', inv s → ok s a → step s a = some s' → inv s')
    (h : Run step ok s t) : inv t := by
  induction h with
  | refl => exact hinit
  | tail t u a _ hok hstep ih => exact hkeep t a u ih hok hstep

theorem Run.weaken {step : S → A → Option S} {ok ok' : S → A → Prop} {s t : S}
    (hok : ∀ s a, ok s a → ok' s a) (h : Run step ok s t) : Run step ok' s t := by
  induction h with
  | refl => exact Run.refl
  | tail t u a _ h hstep ih => exact Run.tail t u a ih (hok t a h) hstep

theorem Run.trans {step : S → A → Option S} {ok : S → A → Prop} {s t u : S}
    (hst : Run step ok s t) (htu : Run step ok t u) : Run step ok s u := by
  induction htu with
  | refl => exact hst
  | tail v w a _ hok hstep ih => exact Run.tail v w a ih hok hstep

/-- The state after a list of actions. -/
def exec (step : S → A → Option S) : S → List A → Option S
  | s, [] => some s
  | s, a :: acts =>
      match step s a with
      | some s' => exec step s' acts
      | none => none

theorem Run.of_head {step : S → A → Option S} {ok : S → A → Prop} {s t u : S} {a : A}
    (hok : ok s a) (hstep : step s a = some t) (h : Run step ok t u) : Run step ok s u := by
  induction h with
  | refl => exact Run.tail s t a Run.refl hok hstep
  | tail v w b _ hok' hstep' ih => exact Run.tail v w b ih hok' hstep'

theorem exec_run {step : S → A → Option S} {s t : S} (acts : List A)
    (h : exec step s acts = some t) : Run step Any s t := by
  induction acts generalizing s with
  | nil =>
    cases h
    exact Run.refl
  | cons a acts ih =>
    unfold exec at h
    cases hstep : step s a with
    | none =>
      rw [hstep] at h
      cases h
    | some s' =>
      rw [hstep] at h
      exact Run.of_head trivial hstep (ih h)

/-- A list of actions, each of which is checked before it is taken. -/
theorem exec_run_if {step : S → A → Option S} (ok : S → A → Prop) [∀ s a, Decidable (ok s a)]
    {s t : S} (acts : List A)
    (h : exec (fun s a => if ok s a then step s a else none) s acts = some t) :
    Run step ok s t := by
  induction acts generalizing s with
  | nil =>
    cases h
    exact Run.refl
  | cons a acts ih =>
    unfold exec at h
    split at h
    · rename_i s' hstep
      split at hstep
      · rename_i hok
        exact Run.of_head hok hstep (ih h)
      · cases hstep
    · cases h

/-- Where some step brings every state with `I` closer to the goal, the goal is reached. -/
theorem reaches {step : S → A → Option S} {ok : S → A → Prop} {I goal : S → Prop} (rank : S → Nat)
    (hcloser : ∀ s, I s → ¬ goal s →
      ∃ a s', ok s a ∧ step s a = some s' ∧ I s' ∧ rank s' < rank s)
    {s : S} (h : I s) : ∃ t, Run step ok s t ∧ goal t := by
  induction hn : rank s using Nat.strongRecOn generalizing s with
  | ind n ih =>
    by_cases hgoal : goal s
    · exact ⟨s, Run.refl, hgoal⟩
    · obtain ⟨a, s', hok, hstep, hinv, hrank⟩ := hcloser s h hgoal
      obtain ⟨t, hrun, ht⟩ := ih (rank s') (hn ▸ hrank) hinv rfl
      exact ⟨t, Run.of_head hok hstep hrun, ht⟩

end Cage.Lib.Runs
