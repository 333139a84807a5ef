import Cage.Core.Pidfile

/-!
What the pidfile protocol keeps when its steps are taken in the order it relies
on. The invariant says what each process may rely on at each of its calls, and
that the path names the file of whoever is starting or has a running child.
-/

namespace Cage.Core

open Lib.Runs

variable {P : Type}

/-- The process has created its file. -/
def Phase.Created : Phase P → Prop
  | .claiming | .settingUp | .forked | .written | .waiting | .finishing | .failing | .failed
  | .done => True
  | _ => False

/-- The file of `q` is published or given up. -/
def Settled (s : Sys P) (q : P) : Prop := (s.phase q).Created ∧ ¬ (s.phase q).Starting

/-- Nothing runs for the file of `q`, and nothing will. -/
def Over (s : Sys P) (q : P) : Prop := Settled s q ∧ s.child q ≠ .alive

/-- What `r` may rely on before the call `ph`. -/
def Sys.Knows (s : Sys P) (r : P) : Phase P → Prop
  | .start | .opening | .creating | .claiming | .failed | .joined _ => s.child r = .none
  | .locking f => s.child r = .none ∧ ∀ q, f = .made q → (s.phase q).Created
  | .reading f => s.child r = .none ∧ s.lock f = some r ∧ ∀ q, f = .made q → Settled s q
  | .closing f c => s.child r = .none ∧ s.lock f = some r ∧ ∀ q, f = .made q → Settled s q ∧
      ∀ c', c = some c' → (c' = .junk ∧ Over s q) ∨ c' = .init q
  | .probing f c | .statting f c => s.child r = .none ∧ ∀ q, f = .made q → Settled s q ∧ c = .init q
  | .unlinking f => s.child r = .none ∧ ∀ q, f = some (.made q) → Over s q
  | .settingUp | .failing => s.child r = .none ∧ s.lock (.made r) = some r
  | .forked => s.lock (.made r) = some r
  | .written => s.lock (.made r) = some r ∧ s.content (.made r) = .init r
  | .waiting => s.content (.made r) = .init r
  | .finishing => s.child r = .reaped
  | .done => s.child r ≠ .alive

structure Inv (s : Sys P) : Prop where
  knows : ∀ r, s.Knows r (s.phase r)
  owner : ∀ q, (s.phase q).Starting ∨ s.child q = .alive → s.path = some (.made q)
  entry : ∀ q, s.path = some (.made q) → (s.phase q).Created
  text : ∀ q, s.content (.made q) = .junk ∨ s.content (.made q) = .init q
  alive : ∀ q, s.child q = .alive → s.phase q = .forked ∨ s.content (.made q) = .init q

theorem Initial.inv {s : Sys P} (h : Initial s) : Inv s where
  knows r := by
    rw [h.phase]
    exact h.child r
  owner q hq := by
    rcases hq with hq | hq
    · rw [h.phase] at hq
      cases hq
    · rw [h.child] at hq
      cases hq
  entry q hq := by
    rcases h.path with hp | hp <;> rw [hp] at hq <;> cases hq
  text q := Or.inl (h.made q)
  alive q hq := by
    rw [h.child] at hq
    cases hq

/-- What a step of `p` does to the others, and how far it moves `p`. -/
structure Later (p : P) (s s' : Sys P) : Prop where
  phase : ∀ r, r ≠ p → s'.phase r = s.phase r
  child : ∀ r, r ≠ p → s'.child r = s.child r
  content : ∀ r, r ≠ p → s'.content (.made r) = s.content (.made r)
  lock : ∀ r f, r ≠ p → s.lock f = some r → s'.lock f = some r
  settled : Settled s p → Settled s' p
  ended : Over s p → Over s' p
  created : (s.phase p).Created → (s'.phase p).Created

section Later

variable {p : P} {s s' : Sys P} (h : Later p s s')
include h

theorem Later.created_all (q : P) (hq : (s.phase q).Created) : (s'.phase q).Created := by
  by_cases hp : q = p
  · subst hp
    exact h.created hq
  · rwa [h.phase q hp]

theorem Later.settled_all (q : P) (hq : Settled s q) : Settled s' q := by
  by_cases hp : q = p
  · subst hp
    exact h.settled hq
  · unfold Settled
    rwa [h.phase q hp]

theorem Later.over_all (q : P) (hq : Over s q) : Over s' q := by
  by_cases hp : q = p
  · subst hp
    exact h.ended hq
  · unfold Over
    rw [h.child q hp]
    exact ⟨h.settled_all q hq.1, hq.2⟩

/-- What another process relies on outlives the step. -/
theorem Later.knows (r : P) (hr : r ≠ p) (ph : Phase P) (hk : s.Knows r ph) : s'.Knows r ph := by
  have hchild := h.child r hr
  have hcontent := h.content r hr
  have hlock := fun f => h.lock r f hr
  cases ph with
  | start | opening | creating | claiming | failed | joined | waiting | finishing | done =>
    simp only [Sys.Knows] at hk ⊢
    first | rwa [hchild] | rwa [hcontent]
  | locking f =>
    exact ⟨hchild.trans hk.1, fun q hq => h.created_all q (hk.2 q hq)⟩
  | reading f =>
    exact ⟨hchild.trans hk.1, hlock f hk.2.1, fun q hq => h.settled_all q (hk.2.2 q hq)⟩
  | closing f c =>
    refine ⟨hchild.trans hk.1, hlock f hk.2.1, ?_⟩
    intro q hq
    obtain ⟨hsettled, hc⟩ := hk.2.2 q hq
    exact ⟨h.settled_all q hsettled, fun c' hc' =>
      (hc c' hc').imp (fun hj => ⟨hj.1, h.over_all q hj.2⟩) id⟩
  | probing f c | statting f c =>
    exact ⟨hchild.trans hk.1, fun q hq => ⟨h.settled_all q (hk.2 q hq).1, (hk.2 q hq).2⟩⟩
  | unlinking f => exact ⟨hchild.trans hk.1, fun q hq => h.over_all q (hk.2 q hq)⟩
  | settingUp | failing => exact ⟨hchild.trans hk.1, hlock _ hk.2⟩
  | forked => exact hlock _ hk
  | written => exact ⟨hlock _ hk.1, hcontent.trans hk.2⟩

end Later

/-- A step keeps the invariant if it keeps it for the process that takes it. -/
theorem Later.inv {p : P} {s s' : Sys P} (h : Later p s s') (hinv : Inv s)
    (hknows : s'.Knows p (s'.phase p))
    (howner : ∀ q, (s'.phase q).Starting ∨ s'.child q = .alive → s'.path = some (.made q))
    (hentry : ∀ q, s'.path = some (.made q) → (s'.phase q).Created)
    (htext : s'.content (.made p) = .junk ∨ s'.content (.made p) = .init p)
    (halive : s'.child p = .alive → s'.phase p = .forked ∨ s'.content (.made p) = .init p) :
    Inv s' where
  knows r := by
    by_cases hr : r = p
    · subst hr
      exact hknows
    · rw [h.phase r hr]
      exact h.knows r hr _ (hinv.knows r)
  owner := howner
  entry := hentry
  text q := by
    by_cases hq : q = p
    · subst hq
      exact htext
    · rw [h.content q hq]
      exact hinv.text q
  alive q := by
    by_cases hq : q = p
    · subst hq
      exact halive
    · rw [h.content q hq, h.child q hq, h.phase q hq]
      exact hinv.alive q

/-- A reader that is granted the lock in order has a file that is no longer
being started. -/
theorem locked_settled {s : Sys P} (hinv : Inv s) {f : Ino P} {q : P} (hf : f = .made q)
    (hcreated : (s.phase q).Created) (hclaiming : s.phase q ≠ .claiming) (hfree : s.lock f = none) :
    Settled s q := by
  refine ⟨hcreated, ?_⟩
  intro hstart
  have hknows := hinv.knows q
  subst hf
  cases hph : s.phase q <;> rw [hph] at hstart hknows hclaiming <;> try cases hstart
  · exact hclaiming rfl
  · exact absurd (hfree.symm.trans hknows.2) nofun
  · exact absurd (hfree.symm.trans hknows) nofun
  · exact absurd (hfree.symm.trans hknows.1) nofun

/-- Where the content of a settled file does not name a child, none runs. -/
theorem settled_junk {s : Sys P} (hinv : Inv s) {q : P} (hq : Settled s q)
    (hjunk : s.content (.made q) = .junk) : Over s q := by
  refine ⟨hq, ?_⟩
  intro halive
  rcases hinv.alive q halive with h | h
  · exact hq.2 (by rw [h]; trivial)
  · rw [hjunk] at h
    cases h

theorem not_exists_over {s : Sys P} {q : P} (hq : Settled s q) (foreign : Bool)
    (h : s.pidExists foreign (.init q) = false) : Over s q := by
  refine ⟨hq, ?_⟩
  intro halive
  simp only [Sys.pidExists, halive] at h
  cases h

theorem not_runs_over {s : Sys P} {q : P} (hq : Settled s q) (foreign : Bool)
    (h : s.pidRuns foreign (.init q) = false) : Over s q := by
  refine ⟨hq, ?_⟩
  intro halive
  simp only [Sys.pidRuns, halive] at h
  cases h

/-- Whoever has finished with the file it found at the path leaves nobody's file
there. -/
theorem free_of_over {s : Sys P} {f : Option (Ino P)}
    (hpath : s.path = none ∨ s.path = f) (hover : ∀ q, f = some (.made q) → Over s q) (q : P)
    (hq : s.path = some (.made q)) : ¬ (s.phase q).Starting ∧ s.child q ≠ .alive := by
  rcases hpath with h | h
  · rw [h] at hq
    cases hq
  · have ho := hover q (h ▸ hq)
    exact ⟨ho.1.2, ho.2⟩

variable [DecidableEq P]

@[simp] theorem goto_phase_self (s : Sys P) (p : P) (ph : Phase P) : (s.goto p ph).phase p = ph :=
  Function.update_self ..

theorem goto_phase_of_ne (s : Sys P) (ph : Phase P) {p r : P} (h : r ≠ p) :
    (s.goto p ph).phase r = s.phase r :=
  Function.update_of_ne h ..

@[simp] theorem goto_path (s : Sys P) (p : P) (ph : Phase P) : (s.goto p ph).path = s.path := rfl

@[simp] theorem goto_lock (s : Sys P) (p : P) (ph : Phase P) : (s.goto p ph).lock = s.lock := rfl

@[simp] theorem goto_content (s : Sys P) (p : P) (ph : Phase P) :
    (s.goto p ph).content = s.content := rfl

@[simp] theorem goto_child (s : Sys P) (p : P) (ph : Phase P) : (s.goto p ph).child = s.child := rfl

/-- A step that only moves `p` on, and perhaps takes or releases a lock. -/
theorem goto_inv {s t : Sys P} {p : P} {ph : Phase P} (hinv : Inv s) (hphase : t.phase = s.phase)
    (hpath : t.path = s.path) (hcontent : t.content = s.content) (hchild : t.child = s.child)
    (hlock : ∀ r f, r ≠ p → s.lock f = some r → t.lock f = some r)
    (hcreated : (s.phase p).Created → ph.Created) (hstart : ph.Starting → (s.phase p).Starting)
    (hforked : s.phase p ≠ .forked) (hknows : (t.goto p ph).Knows p ph) : Inv (t.goto p ph) := by
  have hlater : Later p s (t.goto p ph) := {
    phase := fun r hr => by rw [goto_phase_of_ne t ph hr, hphase]
    child := fun r _ => by rw [goto_child, hchild]
    content := fun r _ => by rw [goto_content, hcontent]
    lock := hlock
    settled := fun h => by
      rw [Settled, goto_phase_self]
      exact ⟨hcreated h.1, fun hs => h.2 (hstart hs)⟩
    ended := fun h => by
      rw [Over, Settled, goto_phase_self, goto_child, hchild]
      exact ⟨⟨hcreated h.1.1, fun hs => h.1.2 (hstart hs)⟩, h.2⟩
    created := fun h => by
      rw [goto_phase_self]
      exact hcreated h }
  apply hlater.inv hinv
  · rwa [goto_phase_self]
  · intro q hq
    rw [goto_path, hpath]
    apply hinv.owner q
    by_cases hqp : q = p
    · subst hqp
      rw [goto_phase_self, goto_child, hchild] at hq
      exact hq.imp_left hstart
    · rwa [goto_phase_of_ne t ph hqp, goto_child, hphase, hchild] at hq
  · intro q hq
    rw [goto_path, hpath] at hq
    exact hlater.created_all q (hinv.entry q hq)
  · rw [goto_content, hcontent]
    exact hinv.text p
  · intro hq
    rw [goto_child, hchild] at hq
    rw [goto_content, hcontent]
    exact Or.inr ((hinv.alive p hq).resolve_left hforked)

/-- An unlink of the path when nobody who is starting or has a running child
owns it. -/
theorem unlink_inv {s : Sys P} {p : P} {ph : Phase P} (hinv : Inv s)
    (hfree : ∀ q, s.path = some (.made q) → ¬ (s.phase q).Starting ∧ s.child q ≠ .alive)
    (hchild : s.child p ≠ .alive) (hcreated : (s.phase p).Created → ph.Created)
    (hstart : ¬ ph.Starting) (hknows : s.Knows p ph) (hph : ph = .creating ∨ ph = .done) :
    Inv ((s.setPath none).goto p ph) := by
  have hlater : Later p s ((s.setPath none).goto p ph) := {
    phase := fun r hr => goto_phase_of_ne _ ph hr
    child := fun _ _ => rfl
    content := fun _ _ => rfl
    lock := fun _ _ _ hl => hl
    settled := fun h => by
      rw [Settled, goto_phase_self]
      exact ⟨hcreated h.1, hstart⟩
    ended := fun h => by
      rw [Over, Settled, goto_phase_self]
      exact ⟨⟨hcreated h.1.1, hstart⟩, h.2⟩
    created := fun h => by
      rw [goto_phase_self]
      exact hcreated h }
  apply hlater.inv hinv
  · rw [goto_phase_self]
    rcases hph with rfl | rfl
    · exact hknows
    · exact hknows
  · intro q hq
    exfalso
    by_cases hqp : q = p
    · subst hqp
      rw [goto_phase_self] at hq
      exact hq.elim hstart hchild
    · rw [goto_phase_of_ne _ ph hqp] at hq
      obtain ⟨hs, hc⟩ := hfree q (hinv.owner q hq)
      exact hq.elim hs hc
  · intro q hq
    cases hq
  · exact hinv.text p
  · intro hq
    exact absurd hq hchild

/-- The creation of the file, at a free path. -/
theorem create_inv {s : Sys P} {p : P} (hinv : Inv s) (hp : s.phase p = .creating)
    (hpath : s.path = none) : Inv ((s.setPath (some (.made p))).goto p .claiming) := by
  have hknows := hinv.knows p
  rw [hp] at hknows
  have hlater : Later p s ((s.setPath (some (.made p))).goto p .claiming) := {
    phase := fun r hr => goto_phase_of_ne _ _ hr
    child := fun _ _ => rfl
    content := fun _ _ => rfl
    lock := fun _ _ _ hl => hl
    settled := fun h => by
      rw [Settled, hp] at h
      exact h.1.elim
    ended := fun h => by
      rw [Over, Settled, hp] at h
      exact h.1.1.elim
    created := fun h => by
      rw [hp] at h
      exact h.elim }
  apply hlater.inv hinv
  · rw [goto_phase_self]
    exact hknows
  · intro q hq
    by_cases hqp : q = p
    · rw [hqp]
      rfl
    · rw [goto_phase_of_ne _ _ hqp] at hq
      have howner := hinv.owner q hq
      rw [hpath] at howner
      cases howner
  · intro q hq
    obtain rfl : p = q := by
      cases hq
      rfl
    rw [goto_phase_self]
    trivial
  · exact hinv.text p
  · intro hq
    rw [goto_child] at hq
    exact absurd (hknows.symm.trans hq) (by decide)

theorem fork_inv {s : Sys P} {p : P} (hinv : Inv s) (hp : s.phase p = .settingUp) :
    Inv ((s.setChild p .alive).goto p .forked) := by
  have hknows := hinv.knows p
  rw [hp] at hknows
  have howner := hinv.owner p (Or.inl (by rw [hp]; trivial))
  have hother : ∀ r, r ≠ p → ((s.setChild p .alive).goto p .forked).child r = s.child r :=
    fun r hr => Function.update_of_ne hr ..
  have hlater : Later p s ((s.setChild p .alive).goto p .forked) := {
    phase := fun r hr => goto_phase_of_ne _ _ hr
    child := hother
    content := fun _ _ => rfl
    lock := fun _ _ _ hl => hl
    settled := fun h => by
      rw [Settled, hp] at h
      exact absurd trivial h.2
    ended := fun h => by
      rw [Over, Settled, hp] at h
      exact absurd trivial h.1.2
    created := fun _ => by
      rw [goto_phase_self]
      trivial }
  apply hlater.inv hinv
  · rw [goto_phase_self]
    exact hknows.2
  · intro q hq
    by_cases hqp : q = p
    · rw [hqp]
      exact howner
    · rw [goto_phase_of_ne _ _ hqp, hother q hqp] at hq
      exact hinv.owner q hq
  · intro q hq
    exact hlater.created_all q (hinv.entry q hq)
  · exact hinv.text p
  · intro _
    exact Or.inl (goto_phase_self ..)

theorem write_inv {s : Sys P} {p : P} (hinv : Inv s) (hp : s.phase p = .forked) :
    Inv ((s.write (.made p) (.init p)).goto p .written) := by
  have hknows := hinv.knows p
  rw [hp] at hknows
  have howner := hinv.owner p (Or.inl (by rw [hp]; trivial))
  have hwritten : ((s.write (.made p) (.init p)).goto p .written).content (.made p) = .init p :=
    Function.update_self ..
  have hlater : Later p s ((s.write (.made p) (.init p)).goto p .written) := {
    phase := fun r hr => goto_phase_of_ne _ _ hr
    child := fun _ _ => rfl
    content := fun r hr => Function.update_of_ne (by simpa using hr) ..
    lock := fun _ _ _ hl => hl
    settled := fun h => by
      rw [Settled, hp] at h
      exact absurd trivial h.2
    ended := fun h => by
      rw [Over, Settled, hp] at h
      exact absurd trivial h.1.2
    created := fun _ => by
      rw [goto_phase_self]
      trivial }
  apply hlater.inv hinv
  · rw [goto_phase_self]
    exact ⟨hknows, hwritten⟩
  · intro q hq
    by_cases hqp : q = p
    · rw [hqp]
      exact howner
    · rw [goto_phase_of_ne _ _ hqp] at hq
      exact hinv.owner q hq
  · intro q hq
    exact hlater.created_all q (hinv.entry q hq)
  · exact Or.inr hwritten
  · intro _
    exact Or.inr hwritten

@[simp] theorem setChild_child (s : Sys P) (p : P) (c : Child) : (s.setChild p c).child p = c :=
  Function.update_self ..

/-- The child of `p` moves to a state in which it does not run. -/
theorem setChild_inv {s : Sys P} {p : P} {c : Child} (hinv : Inv s) (hc : c ≠ .alive)
    (hlater : Later p s (s.setChild p c))
    (hknows : (s.setChild p c).Knows p (s.phase p)) : Inv (s.setChild p c) := by
  have hself := setChild_child s p c
  apply hlater.inv hinv hknows
  · intro q hq
    apply hinv.owner q
    by_cases hqp : q = p
    · subst hqp
      exact hq.imp_right fun h => absurd (hself.symm.trans h) hc
    · rwa [hlater.child q hqp] at hq
  · exact hinv.entry
  · exact hinv.text p
  · intro hq
    exact absurd (hself.symm.trans hq) hc

theorem later_setChild {s : Sys P} {p : P} {c : Child} (hc : c ≠ .alive) :
    Later p s (s.setChild p c) where
  phase _ _ := rfl
  child _ hr := Function.update_of_ne hr ..
  content _ _ := rfl
  lock _ _ _ hl := hl
  settled h := h
  ended h := ⟨h.1, fun halive => hc ((setChild_child s p c).symm.trans halive)⟩
  created h := h

theorem exits_inv {s : Sys P} {p : P} (hinv : Inv s) (hp : s.child p = .alive) :
    Inv (s.setChild p .zombie) := by
  have hknows := hinv.knows p
  apply setChild_inv hinv (by decide) (later_setChild (by decide))
  cases hph : s.phase p <;> rw [hph] at hknows <;> simp only [Sys.Knows, hp] at hknows ⊢
  all_goals first
    | exact absurd hknows (by decide)
    | exact absurd hknows.1 (by decide)
    | exact hknows

theorem reap_inv {s : Sys P} {p : P} (hinv : Inv s) (hp : s.phase p = .waiting) :
    Inv ((s.setChild p .reaped).goto p .finishing) := by
  have hknows := hinv.knows p
  rw [hp] at hknows
  have hreaped : Inv (s.setChild p .reaped) := by
    apply setChild_inv hinv (by decide) (later_setChild (by decide))
    rw [hp]
    exact hknows
  apply goto_inv hreaped rfl rfl rfl rfl (fun _ _ _ h => h)
  · intro _
    trivial
  · intro h
    cases h
  · intro h
    exact absurd (hp.symm.trans h) (by simp)
  · exact setChild_child s p .reaped

@[simp] theorem take_lock (s : Sys P) (f : Ino P) (p : P) : (s.take f p).lock f = some p :=
  Function.update_self ..

/-- A lock that was free is nobody else's. -/
theorem take_keeps {s : Sys P} {f : Ino P} (p : P) (hfree : s.lock f = none) (r : P) (g : Ino P)
    (hl : s.lock g = some r) : (s.take f p).lock g = some r := by
  have hne : g ≠ f := by
    rintro rfl
    rw [hfree] at hl
    cases hl
  exact (Function.update_of_ne hne ..).trans hl

/-- The holder releases its own lock only. -/
theorem release_keeps {s : Sys P} {f : Ino P} {p r : P} (hheld : s.lock f = some p) (hr : r ≠ p)
    (g : Ino P) (hl : s.lock g = some r) : (s.release f).lock g = some r := by
  have hne : g ≠ f := by
    rintro rfl
    rw [hheld] at hl
    exact hr (Option.some.inj hl).symm
  exact (Function.update_of_ne hne ..).trans hl

section Moved

variable {s t : Sys P} {p q : P} (ph : Phase P) (hphase : t.phase = s.phase)
  (hp : ¬ (s.phase p).Created)
include hphase hp

/-- What a reader knows of a file does not depend on where the reader is. -/
theorem created_goto (hq : (s.phase q).Created) : ((t.goto p ph).phase q).Created := by
  have hne : q ≠ p := by
    rintro rfl
    exact hp hq
  rwa [goto_phase_of_ne t ph hne, hphase]

theorem Settled.goto (hq : Settled s q) : Settled (t.goto p ph) q := by
  have hne : q ≠ p := by
    rintro rfl
    exact hp hq.1
  rwa [Settled, goto_phase_of_ne t ph hne, hphase]

theorem Over.goto (hchild : t.child = s.child) (hq : Over s q) : Over (t.goto p ph) q := by
  refine ⟨hq.1.goto ph hphase hp, ?_⟩
  rw [goto_child, hchild]
  exact hq.2

end Moved

section Call

variable {s s' : Sys P} {p : P} {ok foreign : Bool} (hinv : Inv s)
include hinv

theorem goto_inv_same {ph ph' : Phase P} (hp : s.phase p = ph) (hcreated : ph.Created → ph'.Created)
    (hstart : ph'.Starting → ph.Starting) (hforked : ph ≠ .forked)
    (hknows : (s.goto p ph').Knows p ph') : Inv (s.goto p ph') := by
  subst hp
  exact goto_inv hinv rfl rfl rfl rfl (fun _ _ _ hl => hl) hcreated hstart hforked hknows

theorem start_inv (hp : s.phase p = .start) (h : call s p ok foreign .start = some s') : Inv s' := by
  have hknows := hinv.knows p
  rw [hp] at hknows
  simp only [call] at h
  split at h
  · cases h
    split
    · exact goto_inv_same hinv hp nofun nofun nofun hknows
    · exact goto_inv_same hinv hp nofun nofun nofun hknows
  · cases h
    refine goto_inv_same hinv hp nofun nofun nofun ?_
    intro halive
    exact absurd (hknows.symm.trans halive) nofun

theorem opening_inv (hp : s.phase p = .opening) (h : call s p ok foreign .opening = some s') :
    Inv s' := by
  have hknows := hinv.knows p
  rw [hp] at hknows
  simp only [call] at h
  split at h
  · rename_i f hpath
    cases h
    refine goto_inv_same hinv hp nofun nofun nofun ⟨hknows, ?_⟩
    rintro q rfl
    exact created_goto _ rfl (by rw [hp]; exact id) (hinv.entry q hpath)
  · cases h
    exact goto_inv_same hinv hp nofun nofun nofun ⟨hknows, nofun⟩

theorem locking_inv {f : Ino P} (hp : s.phase p = .locking f)
    (hord : ok = true → ∀ q, f = .made q → s.phase q ≠ .claiming)
    (h : call s p ok foreign (.locking f) = some s') : Inv s' := by
  have hknows := hinv.knows p
  rw [hp] at hknows
  simp only [call] at h
  split at h
  · rename_i hok
    split at h
    · rename_i hfree
      cases h
      refine goto_inv hinv rfl rfl rfl rfl (fun r g _ => take_keeps p hfree r g) ?_ nofun ?_
        ⟨hknows.1, take_lock s f p, ?_⟩
      · rw [hp]
        exact id
      · rw [hp]
        nofun
      · intro q hq
        have hsettled := locked_settled hinv hq (hknows.2 q hq) (hord hok q hq) hfree
        exact hsettled.goto (s := s) _ rfl (by rw [hp]; exact id)
    · cases h
  · cases h
    exact goto_inv_same hinv hp nofun nofun nofun ⟨hknows.1, nofun⟩

theorem reading_inv {f : Ino P} (hp : s.phase p = .reading f)
    (h : call s p ok foreign (.reading f) = some s') : Inv s' := by
  have hknows := hinv.knows p
  rw [hp] at hknows
  cases h
  refine goto_inv_same hinv hp nofun nofun nofun ⟨hknows.1, hknows.2.1, ?_⟩
  rintro q rfl
  have hsettled := hknows.2.2 q rfl
  refine ⟨hsettled.goto _ rfl (by rw [hp]; exact id), ?_⟩
  intro c' hc'
  split at hc'
  · cases hc'
    rcases hinv.text q with htext | htext
    · exact Or.inl ⟨htext, (settled_junk hinv hsettled htext).goto _ rfl (by rw [hp]; exact id) rfl⟩
    · exact Or.inr htext
  · cases hc'

theorem closing_inv {f : Ino P} {c : Option (Content P)} (hp : s.phase p = .closing f c)
    (h : call s p ok foreign (.closing f c) = some s') : Inv s' := by
  have hknows := hinv.knows p
  rw [hp] at hknows
  have hmove : ∀ ph : Phase P, ¬ ph.Starting → ((s.release f).goto p ph).Knows p ph →
      Inv ((s.release f).goto p ph) := by
    intro ph hstart hk
    apply goto_inv (s := s) (t := s.release f) hinv rfl rfl rfl rfl
      (fun r g hr => release_keeps hknows.2.1 hr g)
    · rw [hp]
      exact False.elim
    · exact fun hs => absurd hs hstart
    · rw [hp]
      nofun
    · exact hk
  have hnot : ¬ (s.phase p).Created := by
    rw [hp]
    exact id
  cases h
  match c with
  | none => exact hmove _ id ⟨hknows.1, nofun⟩
  | some .junk =>
    apply hmove _ id
    refine ⟨hknows.1, ?_⟩
    intro q hq
    cases hq
    rcases (hknows.2.2 q rfl).2 _ rfl with ⟨-, hover⟩ | hc
    · exact hover.goto (s := s) _ rfl hnot rfl
    · cases hc
  | some .other =>
    apply hmove _ id
    refine ⟨hknows.1, ?_⟩
    intro q hq
    rcases (hknows.2.2 q hq).2 _ rfl with ⟨hc, -⟩ | hc <;> cases hc
  | some (.init r) =>
    apply hmove _ id
    refine ⟨hknows.1, ?_⟩
    intro q hq
    obtain ⟨hsettled, hc⟩ := hknows.2.2 q hq
    rcases hc _ rfl with ⟨hc, -⟩ | hc
    · cases hc
    · exact ⟨hsettled.goto (s := s) _ rfl hnot, hc⟩

theorem probing_inv {f : Ino P} {c : Content P} (hp : s.phase p = .probing f c)
    (h : call s p ok foreign (.probing f c) = some s') : Inv s' := by
  have hknows := hinv.knows p
  rw [hp] at hknows
  have hnot : ¬ (s.phase p).Created := by
    rw [hp]
    exact id
  cases h
  split
  · refine goto_inv_same hinv hp nofun nofun nofun ⟨hknows.1, ?_⟩
    intro q hq
    exact ⟨(hknows.2 q hq).1.goto _ rfl hnot, (hknows.2 q hq).2⟩
  · rename_i hgone
    refine goto_inv_same hinv hp nofun nofun nofun ⟨hknows.1, ?_⟩
    intro q hq
    cases hq
    obtain ⟨hsettled, rfl⟩ := hknows.2 q rfl
    exact (not_exists_over hsettled foreign (by simpa using hgone)).goto _ rfl hnot rfl

theorem statting_inv {f : Ino P} {c : Content P} (hp : s.phase p = .statting f c)
    (h : call s p ok foreign (.statting f c) = some s') : Inv s' := by
  have hknows := hinv.knows p
  rw [hp] at hknows
  have hnot : ¬ (s.phase p).Created := by
    rw [hp]
    exact id
  simp only [call] at h
  split at h
  · cases h
    split
    · exact goto_inv_same hinv hp nofun nofun nofun hknows.1
    · rename_i hgone
      refine goto_inv_same hinv hp nofun nofun nofun ⟨hknows.1, ?_⟩
      intro q hq
      cases hq
      obtain ⟨hsettled, rfl⟩ := hknows.2 q rfl
      exact (not_runs_over hsettled foreign (by simpa using hgone)).goto _ rfl hnot rfl
  · cases h
    exact goto_inv_same hinv hp nofun nofun nofun ⟨hknows.1, nofun⟩

theorem creating_inv (hp : s.phase p = .creating) (h : call s p ok foreign .creating = some s') :
    Inv s' := by
  have hknows := hinv.knows p
  rw [hp] at hknows
  simp only [call] at h
  split at h
  · rename_i hfree
    cases h
    exact create_inv hinv hp hfree.1
  · cases h
    refine goto_inv_same hinv hp nofun nofun nofun ?_
    intro halive
    exact absurd (hknows.symm.trans halive) nofun

theorem claiming_inv (hp : s.phase p = .claiming) (h : call s p ok foreign .claiming = some s') :
    Inv s' := by
  have hknows := hinv.knows p
  rw [hp] at hknows
  simp only [call] at h
  split at h
  · split at h
    · rename_i hfree
      cases h
      refine goto_inv hinv rfl rfl rfl rfl (fun r g _ => take_keeps p hfree r g) ?_ ?_ ?_
        ⟨hknows, take_lock s _ p⟩
      · intro _
        trivial
      · rw [hp]
        exact id
      · rw [hp]
        nofun
    · cases h
  · cases h
    refine goto_inv_same hinv hp (fun _ => trivial) nofun nofun ?_
    intro halive
    exact absurd (hknows.symm.trans halive) nofun

theorem settingUp_inv (hp : s.phase p = .settingUp) (h : call s p ok foreign .settingUp = some s') :
    Inv s' := by
  have hknows := hinv.knows p
  rw [hp] at hknows
  simp only [call] at h
  split at h
  · cases h
    exact fork_inv hinv hp
  · cases h
    exact goto_inv_same hinv hp (fun _ => trivial) nofun nofun hknows

/-- `close_pid` by the creator. -/
theorem unlock_inv {ph ph' : Phase P} (hp : s.phase p = ph) (hlock : s.lock (.made p) = some p)
    (hcreated : ph'.Created) (hstart : ¬ ph'.Starting) (hforked : ph ≠ .forked)
    (hknows : ((s.release (.made p)).goto p ph').Knows p ph') :
    Inv ((s.release (.made p)).goto p ph') := by
  subst hp
  exact goto_inv hinv rfl rfl rfl rfl (fun r g hr => release_keeps hlock hr g) (fun _ => hcreated)
    (fun h => absurd h hstart) hforked hknows

theorem unlinking_inv {f : Option (Ino P)} (hp : s.phase p = .unlinking f)
    (hord : s.path = none ∨ s.path = f) (h : call s p ok foreign (.unlinking f) = some s') :
    Inv s' := by
  have hknows := hinv.knows p
  rw [hp] at hknows
  cases h
  split
  · apply unlink_inv hinv (free_of_over hord hknows.2)
    · rw [hknows.1]
      nofun
    · rw [hp]
      exact False.elim
    · exact id
    · exact hknows.1
    · exact Or.inl rfl
  · exact goto_inv_same hinv hp nofun nofun nofun hknows.1

/-- The unlink of a process that has ended with its own file, or its failure. -/
theorem unlink_own_inv (hord : s.path = none ∨ s.path = some (.made p))
    (hstart : ¬ (s.phase p).Starting) (hchild : s.child p ≠ .alive) :
    Inv ((if ok then s.setPath none else s).goto p .done) := by
  have hforked : s.phase p ≠ .forked := fun hph => hstart (by rw [hph]; trivial)
  split
  case isFalse => exact goto_inv_same hinv rfl (fun _ => trivial) nofun hforked hchild
  apply unlink_inv hinv
  · intro q hq
    rcases hord with h | h
    · rw [h] at hq
      cases hq
    · rw [h] at hq
      cases hq
      exact ⟨hstart, hchild⟩
  · exact hchild
  · intro _
    trivial
  · exact id
  · exact hchild
  · exact Or.inr rfl

end Call

/-- One system call in order keeps the invariant. -/
theorem call_inv {s s' : Sys P} {p : P} {ok foreign : Bool} (hinv : Inv s)
    (hord : Disciplined s (.calls p ok foreign)) (h : call s p ok foreign (s.phase p) = some s') :
    Inv s' := by
  have hknows := hinv.knows p
  have howner := hinv.owner
  cases hp : s.phase p <;> simp only [Disciplined, hp] at hord <;> rw [hp] at h hknows
  case start => exact start_inv hinv hp h
  case opening => exact opening_inv hinv hp h
  case locking f => exact locking_inv hinv hp hord h
  case reading f => exact reading_inv hinv hp h
  case closing f c => exact closing_inv hinv hp h
  case probing f c => exact probing_inv hinv hp h
  case statting f c => exact statting_inv hinv hp h
  case unlinking f => exact unlinking_inv hinv hp hord h
  case creating => exact creating_inv hinv hp h
  case claiming => exact claiming_inv hinv hp h
  case settingUp => exact settingUp_inv hinv hp h
  case forked =>
    subst hord
    cases h
    exact write_inv hinv hp
  case written =>
    cases h
    exact unlock_inv hinv hp hknows.1 trivial id nofun hknows.2
  case waiting =>
    simp only [call] at h
    split at h
    · cases h
      exact reap_inv hinv hp
    · cases h
  case finishing =>
    cases h
    exact unlink_own_inv hinv hord (by rw [hp]; exact id) (by rw [hknows]; nofun)
  case failing =>
    cases h
    exact unlock_inv hinv hp hknows.2 trivial id nofun hknows.1
  case failed =>
    cases h
    exact unlink_own_inv hinv hord (by rw [hp]; exact id) (by rw [hknows]; nofun)
  case joined => cases h
  case done => cases h

theorem step_inv {s s' : Sys P} {a : Act P} (hinv : Inv s) (hord : Disciplined s a)
    (h : step s a = some s') : Inv s' := by
  cases a with
  | calls p ok foreign => exact call_inv hinv hord h
  | exits p =>
    simp only [step] at h
    split at h
    · rename_i halive
      cases h
      exact exits_inv hinv halive
    · cases h

omit [DecidableEq P] in
theorem Inv.exclusive {s : Sys P} (h : Inv s) : Exclusive s := by
  intro p q hp hq
  have howner := (h.owner p (Or.inr hp)).symm.trans (h.owner q (Or.inr hq))
  cases howner
  rfl

omit [DecidableEq P] in
theorem Inv.unlinkSafe {s : Sys P} {a : Act P} (h : Inv s) (hord : Disciplined s a) :
    UnlinkSafe s a := by
  cases a with
  | exits p => trivial
  | calls p ok foreign =>
    intro hunlinks q hq hpath hprotected
    have hneeds : (s.phase q).Starting ∨ s.child q = .alive := hprotected.imp_right And.right
    have hknows := h.knows p
    have hown : s.path = none ∨ s.path = some (.made p) → False := by
      rintro (h | h) <;> rw [hpath] at h <;> cases h
      exact hq rfl
    cases hp : s.phase p <;> rw [hp] at hunlinks hknows <;> simp only [Disciplined, hp] at hord
    case unlinking f =>
      obtain ⟨hs, hc⟩ := free_of_over hord hknows.2 q hpath
      exact hneeds.elim hs hc
    case finishing => exact hown hord
    case failed => exact hown hord
    all_goals exact hunlinks

/-- In every run whose steps keep the order, from a free path or a stale file,
at most one init child of a creator runs, and no process unlinks the file of
another that is starting or whose init is alive. -/
theorem pidfile_exclusive (s t : Sys P) (hinit : Initial s) (hrun : Run step Disciplined s t) :
    Exclusive t ∧ ∀ a, Disciplined t a → UnlinkSafe t a := by
  have hinv : Inv t := hrun.invariant Inv hinit.inv fun _ _ _ h hord hstep => step_inv h hord hstep
  exact ⟨hinv.exclusive, fun a hord => hinv.unlinkSafe hord⟩

/-- Before the runs, with nothing or with an unreadable file at the path. -/
def freshSys (path : Option (Ino P)) : Sys P where
  phase _ := .start
  path := path
  lock _ := none
  content _ := .junk
  child _ := .none

omit [DecidableEq P] in
theorem freshSys_initial (path : Option (Ino P)) (h : path = none ∨ path = some .stale) :
    Initial (freshSys path) where
  phase _ := rfl
  path := h
  lock _ := rfl
  stale _ := nofun
  made _ := rfl
  child _ := rfl

/-- `n` calls of `p` in a row. -/
def callsOf (p : P) (n : Nat) : List (Act P) := List.replicate n (.calls p true false)

/-- One process, from the free path to the end of its child and of its own file. -/
theorem pidfile_exclusive_alone : ∃ t : Sys (Fin 2), t.phase 0 = .done ∧ t.child 0 = .reaped ∧
    Exclusive t ∧ ∀ a, Disciplined t a → UnlinkSafe t a := by
  have hone : ∀ {s t u : Sys (Fin 2)}, Disciplined s (.calls 0 true false) →
      step s (.calls 0 true false) = some t → Run step Disciplined t u → Run step Disciplined s u :=
    fun hord hstep => Run.of_head hord hstep
  have hrun : Run step Disciplined (freshSys none) _ :=
    hone trivial rfl <| hone trivial rfl <| hone trivial rfl <| hone trivial rfl <|
      hone (Eq.refl true) rfl <| hone trivial rfl <| Run.of_head (a := .exits 0) trivial rfl <|
      hone trivial rfl <| hone (Or.inr rfl) rfl Run.refl
  exact ⟨_, rfl, rfl, pidfile_exclusive _ _ (freshSys_initial none (Or.inl rfl)) hrun⟩

/-- Process 1 reads the file that process 0 has created and not yet locked, finds
it empty and unlinks it while 0 is starting; then both have a child. After both
have read one stale file, 1 unlinks the file that 0 has put in its place. And when
the pid of 0's child does not get into its file, 1 finds it empty and unlocked. -/
theorem pidfile_not_exclusive :
    (∃ t : Sys (Fin 2), Run step Any (freshSys none) t ∧ ¬ UnlinkSafe t (.calls 1 true false)) ∧
    (∃ t : Sys (Fin 2), Run step Any (freshSys none) t ∧ ¬ Exclusive t) ∧
    (∃ t : Sys (Fin 2), Run step Any (freshSys (some .stale)) t ∧ ¬ Exclusive t) ∧
    (∃ t : Sys (Fin 2), Run step Any (freshSys none) t ∧ ¬ Exclusive t ∧
      t.content (.made 0) = .junk) := by
  refine ⟨⟨_, exec_run (callsOf 0 2 ++ callsOf 1 5 ++ callsOf 0 2) rfl, ?_⟩,
    ⟨_, exec_run (callsOf 0 2 ++ callsOf 1 5 ++ callsOf 0 2 ++ callsOf 1 4) rfl, ?_⟩,
    ⟨_, exec_run (callsOf 1 5 ++ callsOf 0 9 ++ callsOf 1 4) rfl, ?_⟩,
    ⟨_, exec_run (callsOf 0 4 ++ [.calls 0 false false] ++ callsOf 0 1 ++ callsOf 1 9) rfl,
      ?_, rfl⟩⟩
  · intro h
    exact h trivial 0 (by decide) rfl (Or.inl trivial)
  · intro h
    exact absurd (h 0 1 rfl rfl) (by decide)
  · intro h
    exact absurd (h 0 1 rfl rfl) (by decide)
  · intro h
    exact absurd (h 0 1 rfl rfl) (by decide)

end Cage.Core
