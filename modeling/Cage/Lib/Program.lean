import Cage.Lib.Runs

/-!
Programs that talk to their surroundings through calls. A program is the tree of
the calls it makes, branching over their answers, so the same text can be run
alone, from a state to a state, or call by call among other programs. For the
second reading there is a rely-guarantee rule: each process keeps to what it
guarantees as long as the others do.
-/

namespace Cage.Lib.Program

open Lib.Runs

/-- `R k` is the type of the answers to call `k`. -/
inductive Prog (K : Type) (R : K → Type) (A : Type) where
  | done (a : A)
  | call (k : K) (next : R k → Prog K R A)

variable {K : Type} {R : K → Type} {A B S P C : Type}

def Prog.bind : Prog K R A → (A → Prog K R B) → Prog K R B
  | .done a, f => f a
  | .call k next, f => .call k fun r => (next r).bind f

instance : Monad (Prog K R) where
  pure := .done
  bind := .bind

@[simp] theorem done_bind (a : A) (f : A → Prog K R B) : (Prog.done a >>= f) = f a := rfl

@[simp] theorem pure_bind' (a : A) (f : A → Prog K R B) : ((pure a : Prog K R A) >>= f) = f a := rfl

theorem call_bind (k : K) (next : R k → Prog K R A) (f : A → Prog K R B) :
    (Prog.call k next >>= f) = .call k fun r => next r >>= f := rfl

theorem bind_done (m : Prog K R A) : m.bind .done = m := by
  induction m with
  | done a => rfl
  | call k next ih => exact congrArg (Prog.call k) (funext ih)

theorem bind_bind {D : Type} (m : Prog K R A) (f : A → Prog K R B) (g : B → Prog K R D) :
    (m.bind f).bind g = m.bind fun a => (f a).bind g := by
  induction m with
  | done a => rfl
  | call k next ih => exact congrArg (Prog.call k) (funext ih)

instance : LawfulMonad (Prog K R) :=
  LawfulMonad.mk' (Prog K R) bind_done (fun _ _ => rfl) bind_bind

/-- The program that makes one call. -/
def perform (k : K) : Prog K R (R k) := .call k .done

section Alone

variable (answer : (k : K) → S → R k × S)

/-- The run of a program that nobody disturbs. -/
def Prog.exec : Prog K R A → S → A × S
  | .done a, s => (a, s)
  | .call k next, s => (next (answer k s).1).exec (answer k s).2

@[simp] theorem exec_pure (a : A) (s : S) : (pure a : Prog K R A).exec answer s = (a, s) := rfl

theorem exec_bind (m : Prog K R A) (f : A → Prog K R B) (s : S) :
    (m >>= f).exec answer s = (f (m.exec answer s).1).exec answer (m.exec answer s).2 := by
  induction m generalizing s with
  | done a => rfl
  | call k next ih => exact ih (answer k s).1 (answer k s).2

@[simp] theorem exec_map (f : A → B) (m : Prog K R A) (s : S) :
    (f <$> m).exec answer s = (f (m.exec answer s).1, (m.exec answer s).2) := by
  rw [← bind_pure_comp, exec_bind, exec_pure]

@[simp] theorem exec_perform (k : K) (s : S) :
    (perform k : Prog K R (R k)).exec answer s = answer k s := rfl

/-- Every call of the run is made in a state where it is `ok`. -/
def Prog.Along (ok : K → S → Prop) : Prog K R A → S → Prop
  | .done _, _ => True
  | .call k next, s => ok k s ∧ (next (answer k s).1).Along ok (answer k s).2

theorem along_bind {ok : K → S → Prop} (m : Prog K R A) (f : A → Prog K R B) (s : S) :
    (m >>= f).Along answer ok s ↔
      m.Along answer ok s ∧ (f (m.exec answer s).1).Along answer ok (m.exec answer s).2 := by
  induction m generalizing s with
  | done a => exact ⟨fun h => ⟨trivial, h⟩, And.right⟩
  | call k next ih =>
    rw [call_bind]
    exact (and_congr_right fun _ => ih (answer k s).1 (answer k s).2).trans and_assoc.symm

/-- The state in which a program is left that is killed before its next call, once it
has made `n` of them. -/
def Prog.cut : Nat → Prog K R A → S → S
  | 0, _, s => s
  | _ + 1, .done _, s => s
  | n + 1, .call k next, s => (next (answer k s).1).cut n (answer k s).2

/-- The program at its first call that meets `stop`, or at its end. -/
def Prog.upTo (stop : K → Bool) : Prog K R A → S → Prog K R A × S
  | .done a, s => (.done a, s)
  | .call k next, s =>
      if stop k then (.call k next, s) else (next (answer k s).1).upTo stop (answer k s).2

theorem upTo_bind_done {stop : K → Bool} {m : Prog K R A} {a : A} {s s' : S}
    (h : m.upTo answer stop s = (.done a, s')) (f : A → Prog K R B) :
    (m >>= f).upTo answer stop s = (f a).upTo answer stop s' := by
  induction m generalizing s with
  | done b =>
    cases h
    rfl
  | call k next ih =>
    unfold Prog.upTo at h
    split at h
    · cases h
    · rename_i hstop
      rw [call_bind, Prog.upTo, if_neg hstop]
      exact ih _ h

theorem upTo_bind_call {stop : K → Bool} {m : Prog K R A} {k : K} {next : R k → Prog K R A}
    {s s' : S} (h : m.upTo answer stop s = (.call k next, s')) (f : A → Prog K R B) :
    (m >>= f).upTo answer stop s = (.call k next >>= f, s') := by
  induction m generalizing s with
  | done b => cases h
  | call j rest ih =>
    unfold Prog.upTo at h
    split at h
    · rename_i hstop
      cases h
      rw [call_bind, Prog.upTo, if_pos hstop]
    · rename_i hstop
      rw [call_bind, Prog.upTo, if_neg hstop]
      exact ih _ h

end Alone

/-- Whatever the answers, the calls of the program are `ok`. -/
def Prog.AllCalls (ok : K → Prop) : Prog K R A → Prop
  | .done _ => True
  | .call k next => ok k ∧ ∀ r, (next r).AllCalls ok

/-- A program that makes no call to stop at ends. -/
theorem upTo_of_all {answer : (k : K) → S → R k × S} {stop : K → Bool} (m : Prog K R A)
    (h : m.AllCalls fun k => stop k = false) (s : S) :
    m.upTo answer stop s = (.done (m.exec answer s).1, (m.exec answer s).2) := by
  induction m generalizing s with
  | done a => rfl
  | call k next ih =>
    rw [Prog.upTo, if_neg (by rw [h.1]; exact Bool.false_ne_true)]
    exact ih _ (h.2 _) _

theorem AllCalls.along {answer : (k : K) → S → R k × S} {ok : K → Prop} {ok' : K → S → Prop}
    {m : Prog K R A} (h : m.AllCalls ok) (hok : ∀ k s, ok k → ok' k s) (s : S) :
    m.Along answer ok' s := by
  induction m generalizing s with
  | done a => trivial
  | call k next ih => exact ⟨hok k s h.1, ih _ (h.2 _) _⟩

theorem AllCalls.bind {ok : K → Prop} {m : Prog K R A} {f : A → Prog K R B} (hm : m.AllCalls ok)
    (hf : ∀ a, (f a).AllCalls ok) : (m >>= f).AllCalls ok := by
  induction m with
  | done a => exact hf a
  | call k next ih => exact ⟨hm.1, fun r => ih r (hm.2 r)⟩

section Carrying

variable {σ : Type}

/-- The same of a program that carries a value of its own. -/
def Only (ok : K → Prop) (m : StateT σ (Prog K R) A) : Prop := ∀ c, (m.run c).AllCalls ok

variable {ok : K → Prop}

theorem Only.pure (a : A) : Only ok (Pure.pure a : StateT σ (Prog K R) A) := fun _ => trivial

theorem Only.bind {m : StateT σ (Prog K R) A} {f : A → StateT σ (Prog K R) B} (hm : Only ok m)
    (hf : ∀ a, Only ok (f a)) : Only ok (m >>= f) :=
  fun c => AllCalls.bind (hm c) fun a => hf a.1 a.2

theorem Only.lift {m : Prog K R A} (h : m.AllCalls ok) :
    Only ok (StateT.lift m : StateT σ (Prog K R) A) :=
  fun _ => AllCalls.bind h fun _ => trivial

theorem Only.perform {k : K} (h : ok k) :
    Only ok (StateT.lift (perform k) : StateT σ (Prog K R) (R k)) :=
  Only.lift ⟨h, fun _ => trivial⟩

theorem Only.get : Only ok (MonadState.get : StateT σ (Prog K R) σ) := fun _ => trivial

theorem Only.modify (f : σ → σ) :
    Only ok (MonadStateOf.modifyGet (fun c => ((), f c)) : StateT σ (Prog K R) Unit) :=
  fun _ => trivial

theorem Only.ite {c : Prop} [Decidable c] {m n : StateT σ (Prog K R) A} (hm : c → Only ok m)
    (hn : ¬ c → Only ok n) : Only ok (if c then m else n) := by
  split
  · rename_i h
    exact hm h
  · rename_i h
    exact hn h

end Carrying

section Anyhow

variable (may : (k : K) → S → R k → S → Prop)

/-- However the calls are answered, `post` holds at the end. -/
def Prog.Wp (post : A → S → Prop) : Prog K R A → S → Prop
  | .done a, s => post a s
  | .call k next, s => ∀ r s', may k s r s' → (next r).Wp post s'

variable {may}

theorem Wp.mono {post post' : A → S → Prop} (h : ∀ a s, post a s → post' a s) (m : Prog K R A)
    {s : S} (hm : m.Wp may post s) : m.Wp may post' s := by
  induction m generalizing s with
  | done a => exact h a s hm
  | call k next ih => exact fun r s' hmay => ih r (hm r s' hmay)

theorem Wp.bind {post : B → S → Prop} (m : Prog K R A) {f : A → Prog K R B} {s : S}
    (h : m.Wp may (fun a s' => (f a).Wp may post s') s) : (m >>= f).Wp may post s := by
  induction m generalizing s with
  | done a => exact h
  | call k next ih => exact fun r s' hmay => ih r (h r s' hmay)

theorem Wp.trivial (m : Prog K R A) (s : S) : m.Wp may (fun _ _ => True) s := by
  induction m generalizing s with
  | done a => exact True.intro
  | call k next ih => exact fun r s' _ => ih r s'

theorem Wp.and {post post' : A → S → Prop} (m : Prog K R A) {s : S} (hm : m.Wp may post s)
    (hm' : m.Wp may post' s) : m.Wp may (fun a t => post a t ∧ post' a t) s := by
  induction m generalizing s with
  | done a => exact ⟨hm, hm'⟩
  | call k next ih => exact fun r s' hmay => ih r (hm r s' hmay) (hm' r s' hmay)

/-- What all the calls keep, the program keeps. -/
theorem AllCalls.wp {ok : K → Prop} {inv : S → Prop} {m : Prog K R A} (h : m.AllCalls ok)
    (hkeep : ∀ k s r t, ok k → inv s → may k s r t → inv t) {s : S} (hs : inv s) :
    m.Wp may (fun _ => inv) s := by
  induction m generalizing s with
  | done a => exact hs
  | call k next ih => exact fun r t hmay => ih r (h.2 r) (hkeep k s r t h.1 hs hmay)

section Carrying

/- Programs that carry a value of their own. -/
variable {σ : Type} {I : σ → S → Prop} {Q : A → σ → S → Prop}

variable (may) in
/-- From every value and state with `I`, `m` ends in `Q`. -/
def Ends (I : σ → S → Prop) (m : StateT σ (Prog K R) A) (Q : A → σ → S → Prop) : Prop :=
  ∀ c s, I c s → (m.run c).Wp may (fun a t => Q a.1 a.2 t) s

theorem Ends.pure {a : A} (h : ∀ c s, I c s → Q a c s) :
    Ends may I (Pure.pure a : StateT σ (Prog K R) A) Q := h

theorem Ends.bind {m : StateT σ (Prog K R) A} {f : A → StateT σ (Prog K R) B}
    {Q' : B → σ → S → Prop} (hm : Ends may I m Q) (hf : ∀ a, Ends may (Q a) (f a) Q') :
    Ends may I (m >>= f) Q' :=
  fun c s hs => Wp.bind (m.run c) (Wp.mono (fun a t ha => hf a.1 a.2 t ha) _ (hm c s hs))

theorem Ends.conseq {m : StateT σ (Prog K R) A} {I' : σ → S → Prop} {Q' : A → σ → S → Prop}
    (h : Ends may I m Q) (hI : ∀ c s, I' c s → I c s) (hQ : ∀ a c s, Q a c s → Q' a c s) :
    Ends may I' m Q' :=
  fun c s hs => Wp.mono (fun a t ha => hQ a.1 a.2 t ha) _ (h c s (hI c s hs))

theorem Ends.and {m : StateT σ (Prog K R) A} {Q' : A → σ → S → Prop} (h : Ends may I m Q)
    (h' : Ends may I m Q') : Ends may I m fun a c s => Q a c s ∧ Q' a c s :=
  fun c s hs => Wp.and (m.run c) (h c s hs) (h' c s hs)

theorem Ends.only {ok : K → Prop} {inv : S → Prop} {m : StateT σ (Prog K R) A} (h : Only ok m)
    (hkeep : ∀ k s r t, ok k → inv s → may k s r t → inv t) :
    Ends may (fun _ => inv) m fun _ _ => inv :=
  fun c _ hs => AllCalls.wp (h c) hkeep hs

theorem Ends.trivial {m : StateT σ (Prog K R) A} : Ends may I m fun _ _ _ => True :=
  fun c s _ => Wp.trivial (m.run c) s

theorem Ends.exists {X : Type} {m : StateT σ (Prog K R) A} {I : X → σ → S → Prop}
    (h : ∀ x, Ends may (I x) m Q) : Ends may (fun c s => ∃ x, I x c s) m Q :=
  fun c s ⟨x, hx⟩ => h x c s hx

/-- What is known before the run may be used for it. -/
theorem Ends.assume {p : Prop} {m : StateT σ (Prog K R) A} (h : p → Ends may I m Q) :
    Ends may (fun c s => p ∧ I c s) m Q :=
  fun c s hs => h hs.1 c s hs.2

theorem Ends.ite {c : Prop} [Decidable c] {m n : StateT σ (Prog K R) A} (hm : c → Ends may I m Q)
    (hn : ¬ c → Ends may I n Q) : Ends may I (if c then m else n) Q := by
  split
  · rename_i h
    exact hm h
  · rename_i h
    exact hn h

theorem Ends.get {Q : σ → σ → S → Prop} (h : ∀ c s, I c s → Q c c s) :
    Ends may I (MonadState.get : StateT σ (Prog K R) σ) Q := h

theorem Ends.modify (f : σ → σ) {Q : Unit → σ → S → Prop} (h : ∀ c s, I c s → Q () (f c) s) :
    Ends may I (MonadStateOf.modifyGet (fun c => ((), f c)) : StateT σ (Prog K R) Unit) Q := h

theorem Ends.perform {k : K} {Q : R k → σ → S → Prop}
    (h : ∀ c s r t, I c s → may k s r t → Q r c t) :
    Ends may I (StateT.lift (perform k) : StateT σ (Prog K R) (R k)) Q :=
  fun c s hs r t hmay => h c s r t hs hmay

end Carrying

/-- One way to answer the calls is among all the ways. -/
theorem Wp.exec {post : A → S → Prop} (f : (k : K) → S → R k × S)
    (hf : ∀ k s, may k s (f k s).1 (f k s).2) (m : Prog K R A) {s : S} (h : m.Wp may post s) :
    post (m.exec f s).1 (m.exec f s).2 := by
  induction m generalizing s with
  | done a => exact h
  | call k next ih => exact ih _ (h _ _ (hf k s))

/-- The same program, with each of its calls made by another program. -/
def Prog.within {K' : Type} {R' : K' → Type} (f : (k : K) → Prog K' R' (R k)) :
    Prog K R A → Prog K' R' A
  | .done a => .done a
  | .call k next => f k >>= fun r => (next r).within f

theorem Wp.within {K' : Type} {R' : K' → Type} {may' : (k : K') → S → R' k → S → Prop}
    {f : (k : K) → Prog K' R' (R k)} (hf : ∀ k s, (f k).Wp may' (fun r t => may k s r t) s)
    {post : A → S → Prop} (m : Prog K R A) {s : S} (h : m.Wp may post s) :
    (m.within f).Wp may' post s := by
  induction m generalizing s with
  | done a => exact h
  | call k next ih => exact Wp.bind _ (Wp.mono (fun r t hmay => ih r (h r t hmay)) _ (hf k s))

end Anyhow

/-- What a process may do to the shared state, and what it must expect of the
others between two of its calls. -/
structure Protocol (P S : Type) where
  guar : P → S → S → Prop
  rely : P → S → S → Prop
  refl : ∀ p s, rely p s s
  trans : ∀ p s t u, rely p s t → rely p t u → rely p s u
  others : ∀ p q s t, p ≠ q → guar p s t → rely q s t

/-- What the others do, does not matter to `Q`. -/
def Stable (pr : Protocol P S) (p : P) (Q : S → Prop) : Prop := ∀ s t, Q s → pr.rely p s t → Q t

section Shared

/- `answer p c k s` is the answer to call `k` of process `p`, and the state it
leaves, where `c` is what the surroundings decide. Calls that are not allowed are
not looked at. -/
variable (answer : P → C → (k : K) → S → R k × S) (allow : P → K → S → Prop) (pr : Protocol P S)

/-- From `s` on, `p` keeps its guarantee, and ends in `post`. -/
def Prog.Safe (p : P) (post : A → S → Prop) : Prog K R A → S → Prop
  | .done a, s => post a s
  | .call k next, s => allow p k s → ∀ c, pr.guar p s (answer p c k s).2 ∧
      ∀ s', pr.rely p (answer p c k s).2 s' → (next (answer p c k s).1).Safe p post s'

variable {answer allow pr}

theorem Safe.mono {p : P} {post post' : A → S → Prop} (h : ∀ a s, post a s → post' a s)
    (m : Prog K R A) {s : S} (hm : m.Safe answer allow pr p post s) :
    m.Safe answer allow pr p post' s := by
  induction m generalizing s with
  | done a => exact h a s hm
  | call k next ih =>
    intro hallow c
    exact ⟨(hm hallow c).1, fun s' hs' => ih _ ((hm hallow c).2 s' hs')⟩

theorem Safe.bind {p : P} {post : B → S → Prop} (m : Prog K R A) {f : A → Prog K R B} {s : S}
    (h : m.Safe answer allow pr p (fun a s' => (f a).Safe answer allow pr p post s') s) :
    (m >>= f).Safe answer allow pr p post s := by
  induction m generalizing s with
  | done a => exact h
  | call k next ih =>
    intro hallow c
    exact ⟨(h hallow c).1, fun s' hs' => ih _ ((h hallow c).2 s' hs')⟩

/-- A call after which `mid` holds, and goes on holding. -/
theorem Safe.perform {p : P} {k : K} {post mid : R k → S → Prop} {s : S}
    (h : allow p k s → ∀ c, pr.guar p s (answer p c k s).2 ∧
      mid (answer p c k s).1 (answer p c k s).2)
    (hstable : ∀ r, Stable pr p (mid r)) (hpost : ∀ r t, mid r t → post r t) :
    (perform k : Prog K R (R k)).Safe answer allow pr p post s :=
  fun hallow c => ⟨(h hallow c).1, fun s' hs' => hpost _ s' (hstable _ _ s' (h hallow c).2 hs')⟩

section Carrying

/- Programs that carry a value of their own, such as a cache. -/
variable {σ : Type} {p : P} {pre : S → Prop} {post : A → S → Prop}

variable (answer allow pr) in
/-- From every state with `pre`, `m` keeps its guarantee and ends in `post`,
whatever value it carries. -/
def Triple (p : P) (pre : S → Prop) (m : StateT σ (Prog K R) A) (post : A → S → Prop) : Prop :=
  ∀ c s, pre s → (m.run c).Safe answer allow pr p (fun a s' => post a.1 s') s

theorem Triple.pure {a : A} (h : ∀ s, pre s → post a s) :
    Triple answer allow pr p pre (Pure.pure a : StateT σ (Prog K R) A) post :=
  fun _ s hs => h s hs

theorem Triple.bind {mid : A → S → Prop} {post : B → S → Prop} {m : StateT σ (Prog K R) A}
    {f : A → StateT σ (Prog K R) B} (hm : Triple answer allow pr p pre m mid)
    (hf : ∀ a, Triple answer allow pr p (mid a) (f a) post) :
    Triple answer allow pr p pre (m >>= f) post :=
  fun c s hs => Safe.bind (m.run c) (Safe.mono (fun a s' hmid => hf a.1 a.2 s' hmid) _ (hm c s hs))

theorem Triple.conseq {pre' : S → Prop} {post' : A → S → Prop} {m : StateT σ (Prog K R) A}
    (h : Triple answer allow pr p pre m post) (hpre : ∀ s, pre' s → pre s)
    (hpost : ∀ a s, post a s → post' a s) : Triple answer allow pr p pre' m post' :=
  fun c s hs => Safe.mono (fun a s' ha => hpost a.1 s' ha) _ (h c s (hpre s hs))

theorem Triple.ite {c : Prop} [Decidable c] {m n : StateT σ (Prog K R) A}
    (hm : c → Triple answer allow pr p pre m post) (hn : ¬ c → Triple answer allow pr p pre n post) :
    Triple answer allow pr p pre (if c then m else n) post := by
  split
  · rename_i h
    exact hm h
  · rename_i h
    exact hn h

theorem Triple.lift {m : Prog K R A} (h : ∀ s, pre s → m.Safe answer allow pr p post s) :
    Triple answer allow pr p pre (StateT.lift m : StateT σ (Prog K R) A) post := by
  intro c s hs
  exact Safe.bind m (Safe.mono (fun _ _ ha => ha) m (h s hs))

theorem Triple.get {post : σ → S → Prop} (h : ∀ c s, pre s → post c s) :
    Triple answer allow pr p pre (MonadState.get : StateT σ (Prog K R) σ) post :=
  fun c s hs => h c s hs

theorem Triple.modify (f : σ → σ) {post : Unit → S → Prop} (h : ∀ s, pre s → post () s) :
    Triple answer allow pr p pre (MonadStateOf.modifyGet (fun c => ((), f c)) : StateT σ (Prog K R) Unit) post :=
  fun _ s hs => h s hs

/-- A call, with a postcondition that goes on holding. -/
theorem Triple.perform {k : K} {post : R k → S → Prop}
    (h : ∀ s, pre s → allow p k s → ∀ c, pr.guar p s (answer p c k s).2 ∧
      post (answer p c k s).1 (answer p c k s).2)
    (hstable : ∀ r, Stable pr p (post r)) :
    Triple answer allow pr p pre (StateT.lift (perform k) : StateT σ (Prog K R) (R k)) post :=
  Triple.lift fun s hs => Safe.perform (h s hs) hstable fun _ _ ha => ha

end Carrying

/-- A program whose calls keep to a guarantee that everybody relies on. -/
theorem AllCalls.safe {p : P} {ok : K → Prop} {pre : S → Prop} {m : Prog K R A}
    (hm : m.AllCalls ok) (hstable : Stable pr p pre)
    (hok : ∀ k s, ok k → pre s → allow p k s → ∀ c,
      pr.guar p s (answer p c k s).2 ∧ pre (answer p c k s).2) {s : S} (hs : pre s) :
    m.Safe answer allow pr p (fun _ => pre) s := by
  induction m generalizing s with
  | done a => exact hs
  | call k next ih =>
    intro hallow c
    have hcall := hok k s hm.1 hs hallow c
    exact ⟨hcall.1, fun s' hs' => ih _ (hm.2 _) (hstable _ _ hcall.2 hs')⟩

/-- The processes, each at the rest of its program. -/
structure World (P : Type) (K : Type) (R : K → Type) (A S : Type) where
  shared : S
  prog : P → Prog K R A
  dead : P → Bool

/-- A process makes its next call, or is killed. -/
inductive Act (P C : Type) where
  | calls (p : P) (c : C)
  | dies (p : P)

variable [DecidableEq P]

variable (answer) in
def step (w : World P K R A S) : Act P C → Option (World P K R A S)
  | .calls p c =>
      if w.dead p then none
      else
        match w.prog p with
        | .done _ => none
        | .call k next =>
            some { w with
              shared := (answer p c k w.shared).2
              prog := Function.update w.prog p (next (answer p c k w.shared).1) }
  | .dies p => some { w with dead := Function.update w.dead p true }

variable (allow) in
/-- The next call of the process is allowed. -/
def Allowed (w : World P K R A S) : Act P C → Prop
  | .calls p _ =>
      match w.prog p with
      | .done _ => True
      | .call k _ => allow p k w.shared
  | .dies _ => True

omit [DecidableEq P] in
theorem allowed_of_all (h : ∀ p k s, allow p k s) (w : World P K R A S) (a : Act P C) :
    Allowed allow w a := by
  cases a with
  | dies p => exact trivial
  | calls p c =>
    cases hprog : w.prog p with
    | done a => simp only [Allowed, hprog]
    | call k next =>
      simp only [Allowed, hprog]
      exact h p k w.shared

variable (answer allow pr) in
/-- Every process is safe, whatever the others have done since its last call. -/
def AllSafe (post : P → A → S → Prop) (w : World P K R A S) : Prop :=
  ∀ p s, pr.rely p w.shared s → (w.prog p).Safe answer allow pr p (post p) s

theorem step_calls {w w' : World P K R A S} {p : P} {c : C}
    (h : step answer w (.calls p c) = some w') :
    ∃ k next, w.dead p = false ∧ w.prog p = .call k next ∧
      w' = { w with
        shared := (answer p c k w.shared).2
        prog := Function.update w.prog p (next (answer p c k w.shared).1) } := by
  unfold step at h
  cases hdead : w.dead p with
  | true => simp [hdead] at h
  | false =>
    cases hprog : w.prog p with
    | done a => simp [hdead, hprog] at h
    | call k next =>
      refine ⟨k, next, rfl, rfl, ?_⟩
      simpa [hdead, hprog] using h.symm

theorem AllSafe.after {post : P → A → S → Prop} {w w' : World P K R A S} {a : Act P C}
    (h : AllSafe answer allow pr post w) (hallow : Allowed allow w a)
    (hstep : step answer w a = some w') : AllSafe answer allow pr post w' := by
  cases a with
  | dies p =>
    cases hstep
    exact h
  | calls p c =>
    obtain ⟨k, next, -, hprog, rfl⟩ := step_calls hstep
    have hp := h p w.shared (pr.refl p w.shared)
    simp only [Allowed, hprog] at hallow
    rw [hprog] at hp
    obtain ⟨hguar, hnext⟩ := hp hallow c
    intro q s hs
    dsimp only at hs ⊢
    by_cases hq : q = p
    · subst hq
      rw [Function.update_self]
      exact hnext s hs
    · rw [Function.update_of_ne hq]
      exact h q s (pr.trans q _ _ _ (pr.others p q _ _ (Ne.symm hq) hguar) hs)

/-- Safe processes stay safe along every run of allowed calls. -/
theorem AllSafe.run {post : P → A → S → Prop} {w w' : World P K R A S}
    (h : AllSafe answer allow pr post w) (hrun : Run (step answer) (Allowed allow) w w') :
    AllSafe answer allow pr post w' :=
  hrun.invariant (AllSafe answer allow pr post) h fun _ _ _ hw hallow hstep => hw.after hallow hstep

/-- What every guarantee keeps, an allowed step keeps. -/
theorem AllSafe.keeps {post : P → A → S → Prop} {w w' : World P K R A S} {a : Act P C}
    {inv : S → Prop} (hkeep : ∀ p s s', pr.guar p s s' → inv s → inv s')
    (h : AllSafe answer allow pr post w) (hallow : Allowed allow w a)
    (hstep : step answer w a = some w') (hinv : inv w.shared) : inv w'.shared := by
  cases a with
  | dies p =>
    cases hstep
    exact hinv
  | calls p c =>
    obtain ⟨k, next, -, hprog, rfl⟩ := step_calls hstep
    have hp := h p w.shared (pr.refl p w.shared)
    simp only [Allowed, hprog] at hallow
    rw [hprog] at hp
    exact hkeep p _ _ (hp hallow c).1 hinv

/-- What every guarantee keeps holds in every state of a run. -/
theorem AllSafe.shared {post : P → A → S → Prop} {w w' : World P K R A S} (inv : S → Prop)
    (hkeep : ∀ p s s', pr.guar p s s' → inv s → inv s') (hinv : inv w.shared)
    (h : AllSafe answer allow pr post w) (hrun : Run (step answer) (Allowed allow) w w') :
    inv w'.shared := by
  refine (hrun.invariant (fun w => AllSafe answer allow pr post w ∧ inv w.shared) ⟨h, hinv⟩ ?_).2
  rintro w a w' ⟨hw, hi⟩ hallow hstep
  exact ⟨hw.after hallow hstep, hw.keeps hkeep hallow hstep hi⟩

/-- It may be assumed of every state in which a call is made. -/
theorem AllSafe.run_knowing {post : P → A → S → Prop} {w w' : World P K R A S} (inv : S → Prop)
    (hkeep : ∀ p s s', pr.guar p s s' → inv s → inv s') (hinv : inv w.shared)
    (h : AllSafe answer (fun p k s => allow p k s ∧ inv s) pr post w)
    (hrun : Run (step answer) (Allowed allow) w w') :
    AllSafe answer (fun p k s => allow p k s ∧ inv s) pr post w' ∧ inv w'.shared := by
  refine hrun.invariant (fun w => AllSafe answer _ pr post w ∧ inv w.shared) ⟨h, hinv⟩ ?_
  rintro w a w' ⟨hw, hi⟩ hallow hstep
  have hknowing : Allowed (fun p k s => allow p k s ∧ inv s) w a := by
    cases a with
    | dies p => exact trivial
    | calls p c =>
      cases hprog : w.prog p with
      | done a => simp only [Allowed, hprog]
      | call k next =>
        simp only [Allowed, hprog] at hallow ⊢
        exact ⟨hallow, hi⟩
  exact ⟨hw.after hknowing hstep, hw.keeps hkeep hknowing hstep hi⟩

section Together

/-- The process at `m`, with the shared state `s`. -/
def World.reach (w : World P K R A S) (p : P) (m : Prog K R A) (s : S) : World P K R A S :=
  { w with shared := s, prog := Function.update w.prog p m }

@[simp] theorem World.reach_shared (w : World P K R A S) (p : P) (m : Prog K R A) (s : S) :
    (w.reach p m s).shared = s := rfl

@[simp] theorem World.reach_dead (w : World P K R A S) (p : P) (m : Prog K R A) (s : S) :
    (w.reach p m s).dead = w.dead := rfl

@[simp] theorem World.reach_prog (w : World P K R A S) (p : P) (m : Prog K R A) (s : S) :
    (w.reach p m s).prog p = m := Function.update_self _ _ _

theorem World.reach_prog_of_ne (w : World P K R A S) {p q : P} (m : Prog K R A) (s : S)
    (h : q ≠ p) : (w.reach p m s).prog q = w.prog q := Function.update_of_ne h _ _

theorem World.reach_self {w : World P K R A S} {p : P} {m : Prog K R A} (h : w.prog p = m) :
    w.reach p m w.shared = w := by
  unfold World.reach
  rw [← h, Function.update_eq_self]

theorem World.reach_twice (w : World P K R A S) (p : P) (m m' : Prog K R A) (s s' : S) :
    (w.reach p m s).reach p m' s' = w.reach p m' s' := by
  unfold World.reach
  rw [Function.update_idem]

theorem step_reach {w : World P K R A S} {p : P} {k : K} {next : R k → Prog K R A} (c : C)
    (hdead : w.dead p = false) (hprog : w.prog p = .call k next) :
    step answer w (.calls p c) =
      some (w.reach p (next (answer p c k w.shared).1) (answer p c k w.shared).2) := by
  simp only [step, hdead, hprog]
  rfl

variable {w : World P K R A S} {p : P} {m m' : Prog K R A} {s : S}

/-- A process may be run alone for as long as its calls are allowed. -/
theorem Run.upTo_allowed (pick : K → C) (stop : K → Bool) (hdead : w.dead p = false)
    (hallow : ∀ k s, stop k = false → allow p k s) (hprog : w.prog p = m)
    (h : m.upTo (fun k => answer p (pick k) k) stop w.shared = (m', s)) :
    Run (step answer) (Allowed allow) w (w.reach p m' s) := by
  induction m generalizing w with
  | done a =>
    cases h
    rw [World.reach_self hprog]
    exact Run.refl
  | call k next ih =>
    unfold Prog.upTo at h
    split at h
    · cases h
      rw [World.reach_self hprog]
      exact Run.refl
    · rename_i hstop
      have hallowed : Allowed allow w (.calls p (pick k)) := by
        simp only [Allowed, hprog]
        exact hallow k w.shared (Bool.not_eq_true _ ▸ hstop)
      have hrest := ih (answer p (pick k) k w.shared).1
        (w := w.reach p (next (answer p (pick k) k w.shared).1) (answer p (pick k) k w.shared).2)
        hdead (Function.update_self _ _ _) h
      rw [World.reach_twice] at hrest
      exact Run.of_head hallowed (step_reach (pick k) hdead hprog) hrest

/-- With no restriction, for as long as we like. -/
theorem Run.upTo (pick : K → C) (stop : K → Bool) (hdead : w.dead p = false)
    (hprog : w.prog p = m)
    (h : m.upTo (fun k => answer p (pick k) k) stop w.shared = (m', s)) :
    Run (step answer) Any w (w.reach p m' s) := by
  have hrun : Run (step answer) (Allowed fun _ _ _ => True) w (w.reach p m' s) :=
    Run.upTo_allowed pick stop hdead (fun _ _ _ => trivial) hprog h
  exact hrun.weaken fun _ _ _ => trivial

end Together

end Shared

end Cage.Lib.Program
