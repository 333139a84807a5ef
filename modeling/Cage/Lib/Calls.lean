import Mathlib.Data.List.Basic

/-!
Objects seen through their calls. `call s k` is the answer to call `k` in state
`s` and the state it leaves. One object refines another when related states
answer every call alike and stay related; then no list of calls tells the two
apart.
-/

namespace Cage.Lib.Calls

variable {S T K A : Type}

/-- The answers to a list of calls, made one after the other. -/
def answers (call : S → K → A × S) : S → List K → List A
  | _, [] => []
  | s, k :: ks => (call s k).1 :: answers call (call s k).2 ks

/-- The state a list of calls leaves. -/
def after (call : S → K → A × S) : S → List K → S
  | s, [] => s
  | s, k :: ks => after call (call s k).2 ks

structure Refines (call : S → K → A × S) (spec : T → K → A × T) (rel : S → T → Prop) : Prop where
  answer : ∀ s t k, rel s t → (call s k).1 = (spec t k).1
  keep : ∀ s t k, rel s t → rel (call s k).2 (spec t k).2

variable {call : S → K → A × S} {spec : T → K → A × T} {rel : S → T → Prop}

theorem Refines.answers_eq (h : Refines call spec rel) {s : S} {t : T} (hrel : rel s t)
    (ks : List K) : answers call s ks = answers spec t ks := by
  induction ks generalizing s t with
  | nil => rfl
  | cons k ks ih =>
    unfold answers
    rw [h.answer s t k hrel, ih (h.keep s t k hrel)]

theorem Refines.after_rel (h : Refines call spec rel) {s : S} {t : T} (hrel : rel s t)
    (ks : List K) : rel (after call s ks) (after spec t ks) := by
  induction ks generalizing s t with
  | nil => exact hrel
  | cons k ks ih => exact ih (h.keep s t k hrel)

/-- The object that answers from a table and never changes. -/
def table (t : K → A) (k : K) : A × (K → A) := (t k, t)

theorem answers_table (t : K → A) (ks : List K) : answers table t ks = ks.map t := by
  induction ks with
  | nil => rfl
  | cons k ks ih => exact congrArg (t k :: ·) ih

end Cage.Lib.Calls
