import Cage.Lib.Program

/-!
Triples of programs whose calls may be answered in several ways: from every state with
the first condition the program ends in the second, however its calls are answered.
-/

namespace Cage.Lib.Program

variable {K : Type} {R : K → Type} {A B S : Type} {may : (k : K) → S → R k → S → Prop}

variable (may) in
def Ensures (I : S → Prop) (m : Prog K R A) (Q : A → S → Prop) : Prop := ∀ s, I s → m.Wp may Q s

variable {I : S → Prop} {Q : A → S → Prop} {m n : Prog K R A}

theorem Ensures.pure {a : A} (h : ∀ s, I s → Q a s) :
    Ensures may I (Pure.pure a : Prog K R A) Q := h

theorem Ensures.bind {f : A → Prog K R B} {Q' : B → S → Prop} (hm : Ensures may I m Q)
    (hf : ∀ a, Ensures may (Q a) (f a) Q') : Ensures may I (m >>= f) Q' :=
  fun s hs => Wp.bind m (Wp.mono (fun a t ha => hf a t ha) m (hm s hs))

theorem Ensures.ite {c : Prop} [Decidable c] (hm : c → Ensures may I m Q)
    (hn : ¬c → Ensures may I n Q) : Ensures may I (if c then m else n) Q := by
  split
  · rename_i hc
    exact hm hc
  · rename_i hc
    exact hn hc

theorem Ensures.call {k : K} {Q : R k → S → Prop} (h : ∀ s r t, I s → may k s r t → Q r t) :
    Ensures may I (perform k : Prog K R (R k)) Q :=
  fun s hs r t hmay => h s r t hs hmay

/-- A call that leaves the state as it is. -/
theorem Ensures.still {k : K} (hk : ∀ s r t, may k s r t → t = s) :
    Ensures may I (perform k : Prog K R (R k)) fun _ s => I s :=
  Ensures.call fun s r t hs hmay => by rwa [hk s r t hmay]

/-- A fact that no later call changes is introduced once. -/
theorem Ensures.given {p : Prop} (h : p → Ensures may I m Q) :
    Ensures may (fun s => p ∧ I s) m Q :=
  fun s hs => h hs.1 s hs.2

theorem Ensures.conseq {I' : S → Prop} {Q' : A → S → Prop} (hm : Ensures may I m Q)
    (hI : ∀ s, I' s → I s) (hQ : ∀ a s, Q a s → Q' a s) : Ensures may I' m Q' :=
  fun s hs => Wp.mono (fun a t ha => hQ a t ha) m (hm s (hI s hs))

end Cage.Lib.Program
