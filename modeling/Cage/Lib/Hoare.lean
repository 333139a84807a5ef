/-!
Triples over a state monad: `Triple P m Q` when `m`, run from a state with `P`,
ends with a result and a state in `Q`. Every program of the monad ends, so a
triple is about all runs from `P`.
-/

namespace Cage.Lib.Hoare

variable {S A B : Type}

def Triple (P : S → Prop) (m : StateM S A) (Q : A → S → Prop) : Prop :=
  ∀ s, P s → Q (m s).1 (m s).2

/-- `m` keeps `P`. -/
def Keeps (P : S → Prop) (m : StateM S A) : Prop := Triple P m fun _ => P

theorem Triple.pure {P : S → Prop} {Q : A → S → Prop} {a : A} (h : ∀ s, P s → Q a s) :
    Triple P (Pure.pure a : StateM S A) Q := h

theorem Triple.bind {P : S → Prop} {Q : A → S → Prop} {R : B → S → Prop} {m : StateM S A}
    {f : A → StateM S B} (hm : Triple P m Q) (hf : ∀ a, Triple (Q a) (f a) R) :
    Triple P (m >>= f) R :=
  fun s hs => hf (m s).1 (m s).2 (hm s hs)

theorem Triple.conseq {P P' : S → Prop} {Q Q' : A → S → Prop} {m : StateM S A}
    (h : Triple P m Q) (hpre : ∀ s, P' s → P s) (hpost : ∀ a s, Q a s → Q' a s) :
    Triple P' m Q' :=
  fun s hs => hpost _ _ (h s (hpre s hs))

theorem Triple.ite {P : S → Prop} {Q : A → S → Prop} {c : Prop} [Decidable c]
    {m n : StateM S A} (hm : c → Triple P m Q) (hn : ¬c → Triple P n Q) :
    Triple P (if c then m else n) Q := by
  split
  · rename_i h
    exact hm h
  · rename_i h
    exact hn h

theorem Keeps.pure {P : S → Prop} (a : A) : Keeps P (Pure.pure a : StateM S A) := fun _ h => h

theorem Keeps.bind {P : S → Prop} {m : StateM S A} {f : A → StateM S B} (hm : Keeps P m)
    (hf : ∀ a, Keeps P (f a)) : Keeps P (m >>= f) :=
  Triple.bind hm hf

/-- `V` is what is known of every result of `m`. -/
theorem Keeps.bindOf {P : S → Prop} {V : A → Prop} {m : StateM S A} {f : A → StateM S B}
    (hm : Keeps P m) (hval : Triple (fun _ => True) m fun a _ => V a)
    (hf : ∀ a, V a → Keeps P (f a)) : Keeps P (m >>= f) :=
  fun s hs => hf (m s).1 (hval s trivial) (m s).2 (hm s hs)

theorem Keeps.ite {P : S → Prop} {c : Prop} [Decidable c] {m n : StateM S A}
    (hm : c → Keeps P m) (hn : ¬c → Keeps P n) : Keeps P (if c then m else n) :=
  Triple.ite hm hn

/-- `m`, run from a state with `P`, returns with `Q`, or does not return and leaves a state
with `E`. -/
def Leads (P : S → Prop) (m : OptionT (StateM S) A) (Q : A → S → Prop) (E : S → Prop) : Prop :=
  Triple P m.run fun r s => (∀ a, r = some a → Q a s) ∧ (r = none → E s)

section Leads

variable {P : S → Prop} {Q : A → S → Prop} {E : S → Prop}

theorem Leads.pure {a : A} (h : ∀ s, P s → Q a s) :
    Leads P (Pure.pure a : OptionT (StateM S) A) Q E :=
  fun s hs => ⟨fun _ ha => Option.some.inj ha ▸ h s hs, fun hnone => nomatch hnone⟩

theorem Leads.bind {R : B → S → Prop} {m : OptionT (StateM S) A} {f : A → OptionT (StateM S) B}
    (hm : Leads P m Q E) (hf : ∀ a, Leads (Q a) (f a) R E) : Leads P (m >>= f) R E := by
  unfold Leads
  rw [OptionT.run_bind, Option.elimM]
  refine Triple.bind hm fun r => ?_
  cases r with
  | none => exact fun s hs => ⟨fun _ hb => (nomatch hb), fun _ => hs.2 rfl⟩
  | some a => exact fun s hs => hf a s (hs.1 a rfl)

theorem Leads.conseq {P' : S → Prop} {Q' : A → S → Prop} {E' : S → Prop} {m : OptionT (StateM S) A}
    (h : Leads P m Q E) (hpre : ∀ s, P' s → P s) (hpost : ∀ a s, Q a s → Q' a s)
    (hend : ∀ s, E s → E' s) : Leads P' m Q' E' :=
  fun s hs => ⟨fun a ha => hpost a _ ((h s (hpre s hs)).1 a ha), fun hn => hend _ ((h s (hpre s hs)).2 hn)⟩

theorem Leads.ite {c : Prop} [Decidable c] {m n : OptionT (StateM S) A} (hm : c → Leads P m Q E)
    (hn : ¬c → Leads P n Q E) : Leads P (if c then m else n) Q E := by
  split
  · rename_i h
    exact hm h
  · rename_i h
    exact hn h

/-- `m`, run from `s`, returns with `Q`. -/
def Returns (s : S) (m : OptionT (StateM S) A) (Q : A → S → Prop) : Prop :=
  Leads (fun t => t = s) m Q fun _ => False

variable {s : S}

theorem Returns.pure {a : A} (h : Q a s) :
    Returns s (Pure.pure a : OptionT (StateM S) A) Q :=
  Leads.pure fun _ ht => ht ▸ h

theorem Returns.bind {R : B → S → Prop} {m : OptionT (StateM S) A} {f : A → OptionT (StateM S) B}
    (hm : Returns s m Q) (hf : ∀ a t, Q a t → Returns t (f a) R) : Returns s (m >>= f) R :=
  Leads.bind hm fun a t ht => hf a t ht t rfl

theorem Returns.mono {Q' : A → S → Prop} {m : OptionT (StateM S) A} (hm : Returns s m Q)
    (h : ∀ a t, Q a t → Q' a t) : Returns s m Q' :=
  Leads.conseq hm (fun _ ht => ht) h fun _ he => he

theorem Returns.ite {c : Prop} [Decidable c] {m n : OptionT (StateM S) A} (hm : c → Returns s m Q)
    (hn : ¬c → Returns s n Q) : Returns s (if c then m else n) Q := Leads.ite hm hn

theorem Returns.of_run {m : OptionT (StateM S) A} {a : A} {t : S} (hrun : m.run s = (some a, t))
    (h : Q a t) : Returns s m Q := by
  rintro _ rfl
  rw [hrun]
  exact ⟨fun _ ha => Option.some.inj ha ▸ h, fun hnone => nomatch hnone⟩

theorem Returns.run {m : OptionT (StateM S) A} (h : Returns s m Q) :
    ∃ a t, m.run s = (some a, t) ∧ Q a t := by
  obtain ⟨hsome, hnone⟩ := h s rfl
  cases hrun : (m.run s).1 with
  | none => exact absurd (hnone hrun) not_false
  | some a => exact ⟨a, (m.run s).2, Prod.ext hrun rfl, hsome a hrun⟩

end Leads

end Cage.Lib.Hoare
