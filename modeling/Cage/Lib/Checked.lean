import Mathlib.Data.List.Basic

/-!
Programs over a state in which every table access is checked. A run that
leaves a table, or a loop that outlives its bound, ends in a `Fault`. `Ends`
is the total-correctness judgement: the run ends without a fault in a result
and a state that satisfy the postcondition.
-/

namespace Cage.Lib.Checked

inductive Fault where
  | bounds
  | fuel
  deriving DecidableEq, Repr

abbrev Exec (σ α : Type) := StateT σ (Except Fault) α

variable {σ τ α β : Type}

def fault (f : Fault) : Exec σ α := throw f

/-- A read of entry `i` of a table. -/
def load (xs : List α) (i : Nat) : Exec σ α :=
  match xs[i]? with
  | some x => pure x
  | none => fault .bounds

/-- A write of entry `i` of a table. -/
def store (xs : List α) (i : Nat) (x : α) : Exec σ (List α) :=
  if i < xs.length then pure (xs.set i x) else fault .bounds

/-- A copy of `n` entries of `src` from `off` on to the front of `dst`. -/
def copyTo (dst src : List α) (off n : Nat) : Exec σ (List α) :=
  if off + n ≤ src.length ∧ n ≤ dst.length then
    pure ((src.drop off).take n ++ dst.drop n)
  else
    fault .bounds

/-- `k` rounds of a counting loop, the first with index `i`. -/
def loopUp (body : Nat → β → Exec σ β) : Nat → Nat → β → Exec σ β
  | 0, _, b => pure b
  | k + 1, i, b => do
      let b ← body i b
      loopUp body k (i + 1) b

/-- Run `m` on the part of the state that `view` and `put` select. -/
def zoom (view : τ → σ) (put : τ → σ → τ) (m : Exec σ α) : Exec τ α := fun t =>
  match m (view t) with
  | .ok (a, s) => .ok (a, put t s)
  | .error f => .error f

def Ends (m : Exec σ α) (s : σ) (post : α → σ → Prop) : Prop :=
  ∃ a s', m s = .ok (a, s') ∧ post a s'

theorem Ends.pure {a : α} {s : σ} {q : α → σ → Prop} (h : q a s) :
    Ends (Pure.pure a) s q :=
  ⟨a, s, rfl, h⟩

theorem run_bind {m : Exec σ α} {f : α → Exec σ β} {s s' : σ} {a : α}
    (h : m s = .ok (a, s')) : (m >>= f) s = f a s' := by
  show (m s >>= fun p => f p.1 p.2) = f a s'
  rw [h]
  rfl

theorem Ends.bind {m : Exec σ α} {f : α → Exec σ β} {s : σ}
    {p : α → σ → Prop} {q : β → σ → Prop}
    (hm : Ends m s p) (hf : ∀ a s', p a s' → Ends (f a) s' q) :
    Ends (m >>= f) s q := by
  obtain ⟨a, s', hrun, hp⟩ := hm
  obtain ⟨b, s'', hrun', hpost⟩ := hf a s' hp
  exact ⟨b, s'', (run_bind hrun).trans hrun', hpost⟩

/-- What follows a part whose results are known ends from one of these. -/
theorem Ends.of_bind {m : Exec σ α} {f : α → Exec σ β} {s : σ}
    {p : α → σ → Prop} {q : β → σ → Prop} (h : Ends (m >>= f) s q) (hm : Ends m s p) :
    ∃ a s', p a s' ∧ Ends (f a) s' q := by
  obtain ⟨a, s', hrun, hp⟩ := hm
  obtain ⟨b, s'', hrun', hpost⟩ := h
  exact ⟨a, s', hp, b, s'', (run_bind hrun).symm.trans hrun', hpost⟩

/-- The first part of a run that ends has ended. -/
theorem Ends.of_bind_left {m : Exec σ α} {f : α → Exec σ β} {s : σ} {q : β → σ → Prop}
    (h : Ends (m >>= f) s q) : Ends m s fun _ _ => True := by
  obtain ⟨b, s', hrun, -⟩ := h
  cases hm : m s with
  | ok r => exact ⟨r.1, r.2, hm, trivial⟩
  | error e =>
    have hfault : (m >>= f) s = .error e := by
      show (m s >>= fun r => f r.1 r.2) = .error e
      rw [hm]
      rfl
    rw [hfault] at hrun
    cases hrun

theorem Ends.mono {m : Exec σ α} {s : σ} {q q' : α → σ → Prop}
    (hm : Ends m s q) (h : ∀ a s', q a s' → q' a s') : Ends m s q' := by
  obtain ⟨a, s', hrun, hpost⟩ := hm
  exact ⟨a, s', hrun, h a s' hpost⟩

/-- Runs are deterministic, so two judgements about one run join. -/
theorem Ends.and {m : Exec σ α} {s : σ} {q q' : α → σ → Prop}
    (h : Ends m s q) (h' : Ends m s q') :
    Ends m s fun a s' => q a s' ∧ q' a s' := by
  obtain ⟨a, s', hrun, hpost⟩ := h
  obtain ⟨b, t, hrun', hpost'⟩ := h'
  rw [hrun] at hrun'
  cases hrun'
  exact ⟨a, s', hrun, hpost, hpost'⟩

theorem Ends.of_run {m : Exec σ α} {s s' : σ} {a : α} {q : α → σ → Prop}
    (hm : Ends m s q) (hrun : m s = .ok (a, s')) : q a s' := by
  obtain ⟨b, t, hrun', hpost⟩ := hm
  rw [hrun] at hrun'
  cases hrun'
  exact hpost

theorem Ends.get_bind {f : σ → Exec σ β} {s : σ} {q : β → σ → Prop}
    (h : Ends (f s) s q) : Ends (get >>= f) s q := h

theorem Ends.set_bind {f : PUnit → Exec σ β} {s s' : σ} {q : β → σ → Prop}
    (h : Ends (f ⟨⟩) s' q) : Ends (set s' >>= f) s q := h

theorem Ends.load {xs : List α} {i : Nat} {x : α} {s : σ} {q : α → σ → Prop}
    (hx : xs[i]? = some x) (h : q x s) : Ends (load xs i) s q := by
  refine ⟨x, s, ?_, h⟩
  simp only [Checked.load, hx]
  rfl

theorem Ends.load_bind {xs : List α} {i : Nat} {x : α} {f : α → Exec σ β} {s : σ}
    {q : β → σ → Prop} (hx : xs[i]? = some x) (h : Ends (f x) s q) :
    Ends (Checked.load xs i >>= f) s q :=
  Ends.bind (Ends.load hx (q := fun y t => y = x ∧ t = s) ⟨rfl, rfl⟩)
    fun _ _ ⟨hy, ht⟩ => by rwa [hy, ht]

theorem Ends.of_get_bind {f : σ → Exec σ β} {s : σ} {q : β → σ → Prop}
    (h : Ends (get >>= f) s q) : Ends (f s) s q := h

/-- A run that goes on behind a read has read inside the table. -/
theorem Ends.lt_of_load {xs : List α} {i : Nat} {f : α → Exec σ β} {s : σ} {q : β → σ → Prop}
    (h : Ends (Checked.load xs i >>= f) s q) : i < xs.length := by
  by_contra hi
  obtain ⟨b, s', hrun, -⟩ := h
  have hfault : (Checked.load xs i >>= f) s = .error .bounds := by
    simp only [Checked.load, List.getElem?_eq_none (Nat.not_lt.mp hi)]
    rfl
  rw [hfault] at hrun
  cases hrun

theorem Ends.store {xs : List α} {i : Nat} {x : α} {s : σ}
    {q : List α → σ → Prop} (hi : i < xs.length) (h : q (xs.set i x) s) :
    Ends (store xs i x) s q := by
  refine ⟨xs.set i x, s, ?_, h⟩
  simp only [Checked.store, if_pos hi]
  rfl

theorem Ends.copyTo_bind {dst src : List α} {off n : Nat} {f : List α → Exec σ β} {s : σ}
    {q : β → σ → Prop} (hsrc : off + n ≤ src.length) (hdst : n ≤ dst.length)
    (h : Ends (f ((src.drop off).take n ++ dst.drop n)) s q) :
    Ends (copyTo dst src off n >>= f) s q := by
  simp only [copyTo, if_pos (And.intro hsrc hdst)]
  exact h

theorem Ends.store_bind {xs : List α} {i : Nat} {x : α} {f : List α → Exec σ β} {s : σ}
    {q : β → σ → Prop} (hi : i < xs.length) (h : Ends (f (xs.set i x)) s q) :
    Ends (Checked.store xs i x >>= f) s q :=
  Ends.bind (Ends.store hi (q := fun ys t => ys = xs.set i x ∧ t = s) ⟨rfl, rfl⟩)
    fun _ _ ⟨hy, ht⟩ => by rwa [hy, ht]

/-- The invariant rule of the counting loop. -/
theorem Ends.loopUp {body : Nat → β → Exec σ β} {k i : Nat} {b : β} {s : σ}
    (inv : Nat → β → σ → Prop)
    (hstep : ∀ j b s, i ≤ j → j < i + k → inv j b s → Ends (body j b) s (inv (j + 1)))
    (h : inv i b s) : Ends (loopUp body k i b) s (inv (i + k)) := by
  induction k generalizing i b s with
  | zero => exact Ends.pure h
  | succ k ih =>
    refine Ends.bind (hstep i b s (Nat.le_refl i) (by omega) h) ?_
    intro b' s' h'
    rw [show i + (k + 1) = i + 1 + k by omega]
    exact ih (fun j b s hj hk => hstep j b s (by omega) (by omega)) h'

/-- Filling `k` entries from `i` on with one value. -/
theorem Ends.loopUp_fill {xs : List α} {x : α} {k i : Nat} {s : σ} (h : i + k ≤ xs.length) :
    Ends (Checked.loopUp (fun j xs => Checked.store xs j x) k i xs) s fun ys s' => s' = s ∧
      ys = xs.take i ++ List.replicate k x ++ xs.drop (i + k) := by
  refine (Ends.loopUp (fun j ys s' => s' = s ∧ i ≤ j ∧
    ys = xs.take i ++ List.replicate (j - i) x ++ xs.drop j) ?_ ?_).mono ?_
  · rintro j ys s' hj hk ⟨rfl, -, rfl⟩
    have hlen : (xs.take i ++ List.replicate (j - i) x).length = j := by simp; omega
    refine Ends.store (by simp; omega) ⟨rfl, by omega, ?_⟩
    rw [List.set_append_right _ _ (by omega), hlen, Nat.sub_self,
      List.drop_eq_getElem_cons (show j < xs.length by omega), List.set_cons_zero,
      show j + 1 - i = (j - i) + 1 by omega, List.replicate_succ', ← List.append_assoc]
    simp
  · exact ⟨rfl, Nat.le_refl i, by simp⟩
  · rintro ys s' ⟨hs, -, hys⟩
    exact ⟨hs, by rw [hys, Nat.add_sub_cancel_left]⟩

theorem Ends.zoom {view : τ → σ} {put : τ → σ → τ} {m : Exec σ α} {t : τ}
    {q : α → τ → Prop} (h : Ends m (view t) fun a s => q a (put t s)) :
    Ends (zoom view put m) t q := by
  obtain ⟨a, s, hrun, hpost⟩ := h
  refine ⟨a, put t s, ?_, hpost⟩
  simp only [Checked.zoom, hrun]

/-- What `m` does from `s`, `m'` does from `t`, and the states stay related. -/
def Follows (r : σ → σ → Prop) (m m' : Exec σ α) (s t : σ) : Prop :=
  ∀ a s', m s = .ok (a, s') → ∃ t', m' t = .ok (a, t') ∧ r s' t'

/-- What `m` does from a state, it does from every related one. -/
def Respects (r : σ → σ → Prop) (m : Exec σ α) : Prop := ∀ s t, r s t → Follows r m m s t

theorem Follows.bind {r : σ → σ → Prop} {m m' : Exec σ α} {f f' : α → Exec σ β} {s t : σ}
    (hm : Follows r m m' s t) (hf : ∀ a s' t', r s' t' → Follows r (f a) (f' a) s' t') :
    Follows r (m >>= f) (m' >>= f') s t := by
  intro b s₂ hrun
  cases hms : m s with
  | error e =>
    have hbind : (m >>= f) s = .error e := by
      show (m s >>= fun p => f p.1 p.2) = .error e
      rw [hms]
      rfl
    rw [hbind] at hrun
    cases hrun
  | ok p =>
    obtain ⟨a, s₁⟩ := p
    rw [run_bind hms] at hrun
    obtain ⟨t₁, ht₁, hr₁⟩ := hm a s₁ hms
    obtain ⟨t₂, ht₂, hr₂⟩ := hf a s₁ t₁ hr₁ b s₂ hrun
    exact ⟨t₂, (run_bind ht₁).trans ht₂, hr₂⟩

section

variable {r : σ → σ → Prop}

theorem Respects.pure (a : α) : Respects r (Pure.pure a : Exec σ α) := by
  intro s t hr b s' hrun
  cases hrun
  exact ⟨t, rfl, hr⟩

theorem Respects.fault (e : Fault) : Respects r (fault e : Exec σ α) := by
  intro s t _ a s' hrun
  cases hrun

theorem Respects.bind {m : Exec σ α} {f : α → Exec σ β} (hm : Respects r m)
    (hf : ∀ a, Respects r (f a)) : Respects r (m >>= f) :=
  fun s t hr => (hm s t hr).bind fun a s' t' hr' => hf a s' t' hr'

/-- The state that a program asks for may be another, if it makes no difference. -/
theorem Respects.get_bind {f : σ → Exec σ α}
    (h : ∀ s t, r s t → Follows r (f s) (f t) s t) : Respects r (get >>= f) :=
  fun s t hr => h s t hr

theorem Respects.ite {c : Prop} [Decidable c] {m n : Exec σ α} (hm : Respects r m)
    (hn : Respects r n) : Respects r (if c then m else n) := by
  split
  · exact hm
  · exact hn

theorem Respects.load (xs : List α) (i : Nat) : Respects r (load xs i : Exec σ α) := by
  unfold Checked.load
  cases xs[i]? with
  | none => exact Respects.fault _
  | some x => exact Respects.pure x

theorem Respects.store (xs : List α) (i : Nat) (x : α) :
    Respects r (store xs i x : Exec σ (List α)) :=
  Respects.ite (Respects.pure _) (Respects.fault _)

theorem Respects.copyTo (dst src : List α) (off n : Nat) :
    Respects r (copyTo dst src off n : Exec σ (List α)) :=
  Respects.ite (Respects.pure _) (Respects.fault _)

theorem Respects.loopUp {body : Nat → β → Exec σ β} (hbody : ∀ i b, Respects r (body i b))
    (k i : Nat) (b : β) : Respects r (loopUp body k i b) := by
  induction k generalizing i b with
  | zero => exact Respects.pure b
  | succ k ih => exact Respects.bind (hbody i b) fun b' => ih (i + 1) b'

theorem Respects.zoom {m : Exec σ α} {view : τ → σ} {put : τ → σ → τ} {q : τ → τ → Prop}
    (hm : Respects r m) (hview : ∀ s t, q s t → r (view s) (view t))
    (hput : ∀ s t, q s t → ∀ a b, r a b → q (put s a) (put t b)) :
    Respects q (zoom view put m) := by
  intro s t hq a s' hrun
  unfold Checked.zoom at hrun ⊢
  cases hm' : m (view s) with
  | error e =>
    rw [hm'] at hrun
    cases hrun
  | ok p =>
    obtain ⟨b, v⟩ := p
    rw [hm'] at hrun
    cases hrun
    obtain ⟨w, hw, hr⟩ := hm _ _ (hview s t hq) _ _ hm'
    exact ⟨put t w, by rw [hw], hput s t hq _ _ hr⟩

end

end Cage.Lib.Checked
