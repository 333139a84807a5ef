import Cage.Core.Handshake

/-!
What holds of the parent and its child at every step of either. Each has an assertion
for every place it can be at, and neither breaks the other's.
-/

namespace Cage.Core.Handshake

open Lib.Runs

/-- The parent has done its side of the network, or there is none to do it for. -/
def Settled (s : Sys) : Prop := s.net = true → s.netWord = 2 ∨ s.alive = false

def ParentAt (s : Sys) : Parent → Prop
  | .checking | .polling .net _ => s.net = true ∧ s.netWord ≤ 1
  | .opening | .storing => s.net = true ∧ s.netWord = 1
  | .connecting | .linking _ => s.net = true ∧ s.netWord = 1 ∧ s.nsfd = some true
  | .waking => s.net = true ∧ s.netWord = 2
  | .polling .root _ | .ended => Settled s
  | .removing => Settled s ∧ s.rootWord = 1
  | .reaping | .cleaning => Settled s ∧ (s.owned = true → s.alive = false)

/-- The child has told that it has a network namespace, if it has one. -/
def Told (s : Sys) : Prop := s.ownNet = s.net ∧ (s.net = true → s.netWord ≠ 0)

def ChildAt (s : Sys) : Child → Prop
  | .unsharing => s.netWord = 0 ∧ s.rootWord = 0 ∧ s.moved = false
  | .overlaying => s.ownNet = s.net ∧ s.netWord = 0 ∧ s.rootWord = 0 ∧ s.moved = false
  | .netStoring => s.net = true ∧ s.ownNet = s.net ∧ s.netWord = 0 ∧ s.rootWord = 0
  | .netWaking | .netChecking | .netWaiting | .netAsleep | .configuring =>
      s.net = true ∧ Told s ∧ s.rootWord = 0
  | .mounting | .entering | .moving => Told s ∧ s.rootWord = 0
  | .chrooting | .rootStoring => Told s ∧ s.rootWord = 0 ∧ s.moved = true
  | .rootWaking | .running => Told s ∧ s.rootWord = 1 ∧ s.moved = true

structure Inv (s : Sys) : Prop where
  parent : ParentAt s s.parent
  child : ChildAt s s.child
  asleep : s.child = .netAsleep → s.alive = true → s.netWord = 2 → s.parent = .waking
  own : ∀ c ns, (c, ns) ∈ s.sent → ns = some true
  root : s.rootDir = false → s.moved = true ∨ s.alive = false

theorem initial_inv (net reaped : Bool) : Inv (initial net reaped) where
  parent := by cases net <;> simp [initial, ParentAt, Settled]
  child := ⟨rfl, rfl, rfl⟩
  asleep := nofun
  own := nofun
  root := nofun

/-- What a step of the parent leaves to the child. -/
structure ByParent (s s' : Sys) : Prop where
  net : s'.net = s.net
  netWord : s'.netWord = s.netWord ∨ s.netWord = 1 ∧ s'.netWord = 2
  rootWord : s'.rootWord = s.rootWord
  ownNet : s'.ownNet = s.ownNet
  moved : s'.moved = s.moved

/-- What a step of the child leaves to the parent. -/
structure ByChild (s s' : Sys) : Prop where
  net : s'.net = s.net
  netWord : s'.netWord = s.netWord ∨ s.netWord = 0 ∧ s'.netWord = 1
  rootWord : s.rootWord = 1 → s'.rootWord = 1
  alive : s.alive = false → s'.alive = false
  moved : s.moved = true → s'.moved = true
  nsfd : s'.nsfd = s.nsfd
  sent : s'.sent = s.sent
  rootDir : s'.rootDir = s.rootDir
  owned : s'.owned = s.owned

variable {s s' : Sys} {ok : Bool}

theorem Settled.byChild (h : ByChild s s') (hs : Settled s) : Settled s' := by
  intro hnet
  rw [h.net] at hnet
  rcases hs hnet with hword | halive
  · left
    rcases h.netWord with heq | ⟨hzero, -⟩
    · rw [heq, hword]
    · omega
  · exact .inr (h.alive halive)

theorem ParentAt.byChild {p : Parent} (h : ByChild s s') (hp : ParentAt s p) : ParentAt s' p := by
  have hnet := h.net
  have hword := h.netWord
  have hnsfd := h.nsfd
  cases p with
  | checking => exact ⟨hnet ▸ hp.1, by have := hp.2; omega⟩
  | polling f at_ =>
    cases f with
    | net => exact ⟨hnet ▸ hp.1, by have := hp.2; omega⟩
    | root => exact Settled.byChild h hp
  | opening | storing => exact ⟨hnet ▸ hp.1, by have := hp.2; omega⟩
  | connecting | linking => exact ⟨hnet ▸ hp.1, by have := hp.2.1; omega, hnsfd ▸ hp.2.2⟩
  | waking => exact ⟨hnet ▸ hp.1, by have := hp.2; omega⟩
  | removing => exact ⟨Settled.byChild h hp.1, h.rootWord hp.2⟩
  | reaping | cleaning =>
    exact ⟨Settled.byChild h hp.1, fun howned => h.alive (hp.2 (h.owned ▸ howned))⟩
  | ended => exact Settled.byChild h hp

theorem Told.byParent (h : ByParent s s') (ht : Told s) : Told s' := by
  refine ⟨by rw [h.ownNet, h.net, ht.1], fun hnet => ?_⟩
  have hword := ht.2 (h.net ▸ hnet)
  rcases h.netWord with heq | ⟨-, heq⟩ <;> omega

theorem ChildAt.byParent {c : Child} (h : ByParent s s') (hc : ChildAt s c) : ChildAt s' c := by
  have hnet := h.net
  have hword := h.netWord
  have hroot := h.rootWord
  have hmoved := h.moved
  cases c with
  | unsharing => exact ⟨by have := hc.1; omega, hroot ▸ hc.2.1, hmoved ▸ hc.2.2⟩
  | overlaying =>
    exact ⟨by rw [h.ownNet, hnet, hc.1], by have := hc.2.1; omega, hroot ▸ hc.2.2.1, hmoved ▸ hc.2.2.2⟩
  | netStoring =>
    exact ⟨hnet ▸ hc.1, by rw [h.ownNet, hnet, hc.2.1], by have := hc.2.2.1; omega, hroot ▸ hc.2.2.2⟩
  | netWaking | netChecking | netWaiting | netAsleep | configuring =>
    exact ⟨hnet ▸ hc.1, hc.2.1.byParent h, hroot ▸ hc.2.2⟩
  | mounting | entering | moving => exact ⟨hc.1.byParent h, hroot ▸ hc.2⟩
  | chrooting | rootStoring | rootWaking | running =>
    exact ⟨hc.1.byParent h, hroot ▸ hc.2.1, hmoved ▸ hc.2.2⟩

theorem ChildAt.own {c : Child} (hc : ChildAt s c) (hnet : s.net = true) (hword : s.netWord ≠ 0) :
    s.ownNet = true := by
  cases c with
  | unsharing => exact absurd hc.1 hword
  | overlaying => exact absurd hc.2.1 hword
  | netStoring => exact absurd hc.2.2.1 hword
  | netWaking | netChecking | netWaiting | netAsleep | configuring => exact hc.2.1.1.trans hnet
  | mounting | entering | moving | chrooting | rootStoring | rootWaking | running =>
    exact hc.1.1.trans hnet

theorem ChildAt.left {c : Child} (hc : ChildAt s c) (hword : s.rootWord = 1) : s.moved = true := by
  cases c with
  | unsharing => exact absurd (hc.2.1.symm.trans hword) (by decide)
  | overlaying => exact absurd (hc.2.2.1.symm.trans hword) (by decide)
  | netStoring => exact absurd (hc.2.2.2.symm.trans hword) (by decide)
  | netWaking | netChecking | netWaiting | netAsleep | configuring =>
    exact absurd (hc.2.2.symm.trans hword) (by decide)
  | mounting | entering | moving => exact absurd (hc.2.symm.trans hword) (by decide)
  | chrooting | rootStoring => exact absurd (hc.2.1.symm.trans hword) (by decide)
  | rootWaking | running => exact hc.2.2

/-- Waking a child that sleeps on the word takes it past its wait. -/
theorem wake_at (hc : ChildAt s s.child) : ChildAt s s.wake := by
  unfold Sys.wake
  split
  · rename_i h
    rw [h.1] at hc
    exact hc
  · exact hc

/-- A step of the parent that stays away from the words, the child and the temporary root. -/
theorem Inv.parentTo (h : Inv s) {p : Parent} {f : Option Bool} {l : List (HostCmd × Option Bool)}
    (hp : ParentAt { s with nsfd := f, sent := l } p)
    (hsent : ∀ c ns, (c, ns) ∈ l → ns = some true) (hwaking : s.parent ≠ .waking) :
    Inv { s with nsfd := f, sent := l, parent := p } where
  parent := by cases p <;> exact hp
  child := h.child.byParent ⟨rfl, .inl rfl, rfl, rfl, rfl⟩
  asleep hc ha hw := absurd (h.asleep hc ha hw) hwaking
  own := hsent
  root := h.root

theorem parentStep_inv (h : Inv s) (hstep : s.parentStep ok = some s') : Inv s' := by
  have hat := h.parent
  unfold Sys.parentStep at hstep
  cases hp : s.parent with
  | checking =>
    rw [hp] at hat hstep
    cases hstep
    refine h.parentTo (f := s.nsfd) ?_ h.own (by rw [hp]; nofun)
    split
    · rename_i hword
      exact ⟨hat.1, hword⟩
    · exact hat
  | polling f at_ =>
    rw [hp] at hat hstep
    cases at_ with
    | look =>
      cases hstep
      refine h.parentTo (f := s.nsfd) ?_ h.own (by rw [hp]; nofun)
      cases f with
      | net =>
        split
        · rename_i hword
          exact ⟨hat.1, hword⟩
        · exact hat
      | root =>
        split
        · rename_i hword
          exact ⟨hat, hword⟩
        · exact hat
    | peek =>
      cases hstep
      refine h.parentTo (f := s.nsfd) ?_ h.own (by rw [hp]; nofun)
      cases f with
      | net =>
        split
        · rename_i hdead
          exact fun _ => .inr hdead.1
        · exact hat
      | root =>
        split
        · rename_i hdead
          exact ⟨hat, fun _ => hdead.1⟩
        · exact hat
    | sleep =>
      cases hstep
      refine h.parentTo (f := s.nsfd) ?_ h.own (by rw [hp]; nofun)
      cases f <;> exact hat
  | opening =>
    rw [hp] at hat hstep
    dsimp only at hstep
    split at hstep
    · cases hstep
      have hown : s.ownNet = true := h.child.own hat.1 (by rw [hat.2]; decide)
      exact h.parentTo (l := s.sent) ⟨hat.1, hat.2, congrArg some hown⟩ h.own (by rw [hp]; nofun)
    · cases hstep
      exact h.parentTo (f := s.nsfd) (l := s.sent) hat h.own (by rw [hp]; nofun)
  | connecting =>
    rw [hp] at hat hstep
    cases hstep
    refine h.parentTo (f := s.nsfd) (l := s.sent) ?_ h.own (by rw [hp]; nofun)
    split
    · exact hat
    · exact ⟨hat.1, hat.2.1⟩
  | linking c =>
    rw [hp] at hat hstep
    cases hstep
    refine h.parentTo (f := s.nsfd) ?_ ?_ (by rw [hp]; nofun)
    · split
      · exact ⟨hat.1, hat.2.1⟩
      · cases c with
        | veth | addr | up => exact hat
        | addr6 => exact ⟨hat.1, hat.2.1⟩
    · intro c' ns hmem
      rcases List.mem_append.mp hmem with hold | hnew
      · exact h.own c' ns hold
      · cases List.mem_singleton.mp hnew
        exact hat.2.2
  | storing =>
    rw [hp] at hat hstep
    cases hstep
    have hby : ByParent s { s with netWord := 2, parent := .waking } :=
      ⟨rfl, .inr ⟨hat.2, rfl⟩, rfl, rfl, rfl⟩
    exact ⟨⟨hat.1, rfl⟩, h.child.byParent hby, fun _ _ _ => rfl, h.own, h.root⟩
  | waking =>
    rw [hp] at hat hstep
    cases hstep
    refine ⟨fun _ => .inl hat.2, (wake_at h.child).byParent ⟨rfl, .inl rfl, rfl, rfl, rfl⟩, ?_, h.own,
      h.root⟩
    intro hasleep halive
    unfold Sys.wake at hasleep
    split at hasleep
    · cases hasleep
    · rename_i hwake
      exact absurd ⟨hasleep, halive⟩ hwake
  | removing =>
    rw [hp] at hat hstep
    cases hstep
    have hleft := h.child.left hat.2
    exact ⟨⟨hat.1, nofun⟩, h.child.byParent ⟨rfl, .inl rfl, rfl, rfl, rfl⟩,
      fun hc ha hw => absurd (hp.symm.trans (h.asleep hc ha hw)) nofun, h.own, fun _ => .inl hleft⟩
  | reaping =>
    rw [hp] at hat hstep
    dsimp only at hstep
    split at hstep
    · cases hstep
      exact h.parentTo (f := s.nsfd) (l := s.sent) hat h.own (by rw [hp]; nofun)
    · cases hstep
  | cleaning =>
    rw [hp] at hat hstep
    cases hstep
    refine ⟨hat.1, h.child.byParent ⟨rfl, .inl rfl, rfl, rfl, rfl⟩,
      fun hc ha hw => absurd (hp.symm.trans (h.asleep hc ha hw)) nofun, h.own, fun hroot => ?_⟩
    cases howned : s.owned with
    | true => exact .inr (hat.2 howned)
    | false =>
      refine h.root ?_
      revert hroot
      simp [howned]
  | ended =>
    rw [hp] at hstep
    cases hstep

/-- A step of the child that leaves the parent where it is, and does not go to sleep. -/
theorem Inv.childTo (h : Inv s) (hby : ByChild s s') (hparent : s'.parent = s.parent)
    (hc : ChildAt s' s'.child)
    (hasleep : s'.child = .netAsleep → s'.alive = true → s'.netWord = 2 → s.parent = .waking) :
    Inv s' where
  parent := hparent ▸ h.parent.byChild hby
  child := hc
  asleep hchild halive hword := hparent.trans (hasleep hchild halive hword)
  own := by
    rw [hby.sent]
    exact h.own
  root hroot := by
    rw [hby.rootDir] at hroot
    exact (h.root hroot).imp hby.moved hby.alive

theorem childStep_inv (h : Inv s) (hstep : s.childStep ok = some s') : Inv s' := by
  have hat := h.child
  unfold Sys.childStep at hstep
  split at hstep
  · cases hstep
  split at hstep
  · cases hc : s.child with
    | unsharing =>
      rw [hc] at hat hstep
      cases hstep
      exact h.childTo ⟨rfl, .inl rfl, id, id, id, rfl, rfl, rfl, rfl⟩ rfl ⟨rfl, hat⟩ nofun
    | overlaying =>
      rw [hc] at hat hstep
      dsimp only at hstep
      split at hstep
      · cases hstep
        cases hnet : s.net with
        | true =>
          exact h.childTo ⟨hnet.symm, .inl rfl, id, id, id, rfl, rfl, rfl, rfl⟩ rfl
            ⟨rfl, hat.1.trans hnet, hat.2.1, hat.2.2.1⟩ nofun
        | false =>
          exact h.childTo ⟨hnet.symm, .inl rfl, id, id, id, rfl, rfl, rfl, rfl⟩ rfl
            ⟨⟨hat.1.trans hnet, nofun⟩, hat.2.2.1⟩ nofun
      · cases hstep
    | netStoring =>
      rw [hc] at hat hstep
      cases hstep
      exact h.childTo ⟨rfl, .inr ⟨hat.2.2.1, rfl⟩, id, id, id, rfl, rfl, rfl, rfl⟩ rfl
        ⟨hat.1, ⟨hat.2.1, fun _ => Nat.one_ne_zero⟩, hat.2.2.2⟩ nofun
    | netWaking =>
      rw [hc] at hat hstep
      cases hstep
      exact h.childTo ⟨rfl, .inl rfl, id, id, id, rfl, rfl, rfl, rfl⟩ rfl hat nofun
    | netChecking =>
      rw [hc] at hat hstep
      cases hstep
      refine h.childTo ⟨rfl, .inl rfl, id, id, id, rfl, rfl, rfl, rfl⟩ rfl ?_ ?_
      · dsimp only
        split <;> exact hat
      · dsimp only
        split <;> nofun
    | netWaiting =>
      rw [hc] at hat hstep
      cases hstep
      refine h.childTo ⟨rfl, .inl rfl, id, id, id, rfl, rfl, rfl, rfl⟩ rfl ?_ ?_
      · dsimp only
        split <;> exact hat
      · dsimp only
        intro hasleep _ hword
        rw [if_neg (by omega)] at hasleep
        cases hasleep
    | netAsleep =>
      rw [hc] at hstep
      cases hstep
    | configuring =>
      rw [hc] at hat hstep
      cases hstep
      exact h.childTo ⟨rfl, .inl rfl, id, id, id, rfl, rfl, rfl, rfl⟩ rfl hat.2 nofun
    | mounting | entering | chrooting =>
      rw [hc] at hat hstep
      cases hstep
      exact h.childTo ⟨rfl, .inl rfl, id, id, id, rfl, rfl, rfl, rfl⟩ rfl hat nofun
    | moving =>
      rw [hc] at hat hstep
      cases hstep
      exact h.childTo ⟨rfl, .inl rfl, id, id, fun _ => rfl, rfl, rfl, rfl, rfl⟩ rfl
        ⟨hat.1, hat.2, rfl⟩ nofun
    | rootStoring =>
      rw [hc] at hat hstep
      cases hstep
      exact h.childTo ⟨rfl, .inl rfl, fun _ => rfl, id, id, rfl, rfl, rfl, rfl⟩ rfl
        ⟨hat.1, rfl, hat.2.2⟩ nofun
    | rootWaking =>
      rw [hc] at hat hstep
      cases hstep
      exact h.childTo ⟨rfl, .inl rfl, id, id, id, rfl, rfl, rfl, rfl⟩ rfl hat nofun
    | running =>
      rw [hc] at hat hstep
      cases hstep
      exact h.childTo ⟨rfl, .inl rfl, id, fun _ => rfl, id, rfl, rfl, rfl, rfl⟩ rfl hat nofun
  · cases hstep
    exact h.childTo ⟨rfl, .inl rfl, id, fun _ => rfl, id, rfl, rfl, rfl, rfl⟩ rfl
      (by cases hc : s.child <;> rw [hc] at hat <;> exact hat) nofun

theorem step_inv {a : Act} (h : Inv s) (hstep : step s a = some s') : Inv s' := by
  cases a with
  | parent ok => exact parentStep_inv h hstep
  | child ok => exact childStep_inv h hstep
  | interrupt =>
    unfold step at hstep
    dsimp only at hstep
    split at hstep
    · rename_i hasleep
      have hat := h.child
      rw [hasleep.1] at hat
      cases hstep
      exact h.childTo ⟨rfl, .inl rfl, id, id, id, rfl, rfl, rfl, rfl⟩ rfl hat nofun
    · cases hstep

theorem run_inv {net reaped : Bool} (h : Run step Any (initial net reaped) s) : Inv s :=
  h.invariant Inv (initial_inv net reaped) fun _ _ _ hinv _ hstep => step_inv hinv hstep

/-- Where the parent has left its side of the network, that is done. -/
theorem ParentAt.settled {p : Parent} (hp : ParentAt s p) (h : ¬ p.OnHost) (hwaking : p ≠ .waking) :
    Settled s := by
  cases p with
  | polling f at_ =>
    cases f with
    | net => exact absurd trivial h
    | root => exact hp
  | checking | opening | connecting | linking | storing => exact absurd trivial h
  | waking => exact absurd rfl hwaking
  | removing | reaping | cleaning => exact hp.1
  | ended => exact hp

theorem Inv.safe (h : Inv s) : Safe s := by
  refine ⟨h.own, h.root, fun hasleep halive => ?_⟩
  by_cases hhost : s.parent.OnHost
  · exact .inl hhost
  right
  by_contra hwaking
  have hat := h.child
  rw [hasleep] at hat
  rcases h.parent.settled hhost hwaking hat.1 with hword | hdead
  · exact hwaking (h.asleep hasleep halive hword)
  · rw [halive] at hdead
    cases hdead

/-- In every run the parent and its child are safe from each other. -/
theorem handshake_safe (net reaped : Bool) (s : Sys) (h : Run step Any (initial net reaped) s) :
    Safe s :=
  (run_inv h).safe

def childCalls (n : Nat) : List Act := List.replicate n (.child true)

def parentCalls (n : Nat) : List Act := List.replicate n (.parent true)

/-- The parent has told a child that sleeps, and has not yet woken it. -/
theorem handshake_safe_asleep : ∃ s, s.child = .netAsleep ∧ s.netWord = 2 ∧ Safe s :=
  ⟨_, rfl, rfl, handshake_safe true false _ (exec_run (childCalls 6 ++ parentCalls 8) rfl)⟩

/-- A child that is past its wait has been told that the parent is done. -/
def Answered (s : Sys) : Prop := s.child.Past → s.net = true → s.netWord = 2

theorem parentStep_answered (hinv : Inv s) (h : Answered s) (hstep : s.parentStep ok = some s') :
    Answered s' := by
  have hkeep {n : Nat} {c : Child} {p : Parent} {f : Option Bool} {l : List (HostCmd × Option Bool)}
      {r o : Bool} (hword : n = s.netWord ∨ n = 2) (hchild : c = s.child ∨ n = 2) :
      Answered { s with netWord := n, child := c, parent := p, nsfd := f, sent := l, rootDir := r, owned := o } := by
    intro hpast hnet
    rcases hword with rfl | rfl
    · rcases hchild with rfl | htwo
      · exact h hpast hnet
      · exact htwo
    · rfl
  have hat := hinv.parent
  unfold Sys.parentStep at hstep
  cases hp : s.parent with
  | checking | connecting | linking | removing | cleaning =>
    rw [hp] at hstep
    cases hstep
    exact hkeep (.inl rfl) (.inl rfl)
  | polling f at_ =>
    rw [hp] at hstep
    cases at_ <;> cases hstep <;> exact hkeep (.inl rfl) (.inl rfl)
  | opening | reaping =>
    rw [hp] at hstep
    dsimp only at hstep
    split at hstep <;> cases hstep <;> exact hkeep (.inl rfl) (.inl rfl)
  | storing =>
    rw [hp] at hstep
    cases hstep
    exact hkeep (.inr rfl) (.inl rfl)
  | waking =>
    rw [hp] at hat hstep
    cases hstep
    exact hkeep (.inl rfl) (.inr hat.2)
  | ended =>
    rw [hp] at hstep
    cases hstep

/-- Until the parent is done, it has not said so. -/
theorem ParentAt.word_le {p : Parent} (hp : ParentAt s p) (h : p.OnHost) : s.netWord ≤ 1 := by
  cases p with
  | checking => exact hp.2
  | opening | storing => exact Nat.le_of_eq hp.2
  | connecting | linking => exact Nat.le_of_eq hp.2.1
  | polling f at_ =>
    cases f with
    | net => exact hp.2
    | root => exact absurd h id
  | waking | removing | reaping | cleaning | ended => exact absurd h id

/-- The net word of a child that is alive. -/
theorem Inv.word_le (h : Inv s) (halive : s.alive = true) (hnet : s.net = true) : s.netWord ≤ 2 := by
  have hat := h.parent
  by_cases hhost : s.parent.OnHost
  · exact Nat.le_succ_of_le (hat.word_le hhost)
  · by_cases hwaking : s.parent = .waking
    · rw [hwaking] at hat
      exact Nat.le_of_eq hat.2
    · rcases hat.settled hhost hwaking hnet with hword | hdead
      · exact Nat.le_of_eq hword
      · rw [halive] at hdead
        cases hdead

theorem childStep_answered (hinv : Inv s) (h : Answered s) (hstep : s.childStep ok = some s') :
    Answered s' := by
  have hat := hinv.child
  unfold Sys.childStep at hstep
  split at hstep
  · cases hstep
  rename_i halive
  split at hstep
  · cases hc : s.child with
    | unsharing | netStoring | netWaking =>
      rw [hc] at hstep
      cases hstep
      exact fun hpast => absurd hpast id
    | overlaying =>
      rw [hc] at hstep
      dsimp only at hstep
      split at hstep
      · cases hstep
        intro hpast hnet
        dsimp only at hpast hnet
        rw [if_pos hnet] at hpast
        exact absurd hpast id
      · cases hstep
    | netChecking =>
      rw [hc] at hstep
      cases hstep
      intro hpast _
      dsimp only at hpast ⊢
      split at hpast
      · assumption
      · exact absurd hpast id
    | netWaiting =>
      rw [hc] at hat hstep
      cases hstep
      intro hpast hnet
      dsimp only at hpast hnet ⊢
      split at hpast
      · exact absurd hpast id
      · have hle := hinv.word_le (by simpa using halive) hnet
        have hne := hat.2.1.2 hnet
        omega
    | netAsleep =>
      rw [hc] at hstep
      cases hstep
    | configuring | mounting | entering | moving | chrooting | rootStoring | rootWaking | running =>
      have hword := h (by rw [hc]; trivial)
      rw [hc] at hstep
      cases hstep
      exact fun _ => hword
  · cases hstep
    exact h

/-- If no signal ends its wait, the child sets up its side of the network only after
the parent is done with its own. -/
theorem handshake_orders (net reaped : Bool) (s : Sys)
    (h : Run step Undisturbed (initial net reaped) s) (hnet : s.net = true) (hpast : s.child.Past) :
    ¬ s.parent.OnHost := by
  have hinv : Inv s ∧ Answered s := by
    refine h.invariant (fun s => Inv s ∧ Answered s) ⟨initial_inv net reaped, fun hp => absurd hp id⟩ ?_
    rintro t a t' ⟨hi, ha⟩ hok hstep
    refine ⟨step_inv hi hstep, ?_⟩
    cases a with
    | parent ok => exact parentStep_answered hi ha hstep
    | child ok => exact childStep_answered hi ha hstep
    | interrupt => exact absurd hok id
  intro hhost
  have hword := hinv.2 hpast hnet
  have hle := hinv.1.parent.word_le hhost
  omega

/-- The parent tells the child between its last look at the word and its call. -/
theorem handshake_orders_late : ∃ s : Sys, s.child = .configuring ∧ ¬ s.parent.OnHost :=
  ⟨_, rfl, handshake_orders true false _
    (exec_run_if Undisturbed (childCalls 5 ++ parentCalls 8 ++ childCalls 1) rfl) rfl trivial⟩

/-- A signal makes the child go on before there is a link to set up. -/
example : ∃ s, Run step Any (initial true false) s ∧ s.child = .configuring ∧ s.sent = [] :=
  ⟨_, exec_run (childCalls 6 ++ [.interrupt]) rfl, rfl, rfl⟩

end Cage.Core.Handshake
