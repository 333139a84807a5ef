import Cage.Core.HandshakeSafe

/-!
From which states the parent comes to its end. Its waits look at the child, and so they
end too if the child has ended; but a child whose end leaves no zombie is not seen.
-/

namespace Cage.Core.Handshake

open Lib.Runs

/-- The parent still has to wait for the child's root, at the latest. -/
def Parent.Waits (p : Parent) : Prop := p.OnHost ∨ p = .waking ∨ ∃ at_, p = .polling .root at_

variable {s s' : Sys} {ok : Bool}

theorem waits_polling (f : Flag) (at_ : Poll) : (Parent.polling f at_).Waits := by
  cases f with
  | net => exact .inl trivial
  | root => exact .inr (.inr ⟨at_, rfl⟩)

theorem not_waits {p : Parent} (h : p = .removing ∨ p = .reaping ∨ p = .cleaning ∨ p = .ended) : ¬ p.Waits := by
  rintro (hhost | hwaking | ⟨at_, hpoll⟩) <;> rcases h with rfl | rfl | rfl | rfl
  all_goals first | exact hhost | cases hwaking | cases hpoll

/-- No step of the parent leads back to where it waits. -/
theorem parentStep_waits (hstep : s.parentStep ok = some s') (h : s'.parent.Waits) : s.parent.Waits := by
  by_contra hnot
  unfold Sys.parentStep at hstep
  cases hp : s.parent with
  | checking | opening | connecting | linking | storing =>
    rw [hp] at hnot
    exact hnot (.inl trivial)
  | polling f at_ =>
    rw [hp] at hnot
    exact hnot (waits_polling f at_)
  | waking =>
    rw [hp] at hnot
    exact hnot (.inr (.inl rfl))
  | removing =>
    rw [hp] at hstep
    cases hstep
    exact not_waits (.inr (.inl rfl)) h
  | reaping =>
    rw [hp] at hstep
    dsimp only at hstep
    split at hstep <;> cases hstep
    exact not_waits (.inr (.inr (.inl rfl))) h
  | cleaning =>
    rw [hp] at hstep
    cases hstep
    exact not_waits (.inr (.inr (.inr rfl))) h
  | ended =>
    rw [hp] at hstep
    cases hstep

/-- What the parent never changes. -/
theorem parentStep_same (hstep : s.parentStep ok = some s') :
    s'.reaped = s.reaped ∧ s'.alive = s.alive ∧ s'.rootWord = s.rootWord := by
  unfold Sys.parentStep at hstep
  cases hp : s.parent with
  | polling f at_ =>
    rw [hp] at hstep
    cases at_ <;> cases hstep <;> exact ⟨rfl, rfl, rfl⟩
  | opening | reaping =>
    rw [hp] at hstep
    dsimp only at hstep
    split at hstep <;> cases hstep <;> exact ⟨rfl, rfl, rfl⟩
  | checking | connecting | linking | storing | waking | removing | cleaning | ended =>
    rw [hp] at hstep
    cases hstep
    all_goals exact ⟨rfl, rfl, rfl⟩

theorem not_trapped_step (h : ¬ Trapped s) (hstep : s.parentStep ok = some s') : ¬ Trapped s' := by
  obtain ⟨hreaped, halive, hroot⟩ := parentStep_same hstep
  rintro ⟨hr, ha, hw, hwaits⟩
  exact h ⟨hreaped ▸ hr, halive ▸ ha, hroot ▸ hw, parentStep_waits hstep hwaits⟩

/-- A parent that waits for a child that has ended unseen goes on waiting. -/
theorem trapped_step {a : Act} (h : Trapped s) (hstep : step s a = some s') : Trapped s' := by
  obtain ⟨hreaped, hdead, hword, hwaits⟩ := h
  cases a with
  | parent ok =>
    change s.parentStep ok = some s' at hstep
    obtain ⟨hr, ha, hw⟩ := parentStep_same hstep
    refine ⟨hr.trans hreaped, ha.trans hdead, hw.trans hword, ?_⟩
    unfold Sys.parentStep at hstep
    cases hp : s.parent with
    | checking =>
      rw [hp] at hstep
      cases hstep
      dsimp only
      split
      · exact .inl trivial
      · exact waits_polling _ _
    | polling f at_ =>
      rw [hp] at hstep
      cases at_ with
      | look =>
        cases hstep
        dsimp only
        cases f with
        | net => split <;> exact .inl trivial
        | root =>
          rw [if_neg]
          · exact waits_polling _ _
          · exact fun hone => absurd (hword.symm.trans hone) (by decide)
      | peek =>
        cases hstep
        dsimp only
        rw [if_neg]
        · exact waits_polling _ _
        · exact fun hzombie => absurd (hreaped.symm.trans hzombie.2) (by decide)
      | sleep =>
        cases hstep
        exact waits_polling _ _
    | opening =>
      rw [hp] at hstep
      dsimp only at hstep
      split at hstep <;> cases hstep <;> exact .inl trivial
    | connecting =>
      rw [hp] at hstep
      cases hstep
      dsimp only
      split <;> exact .inl trivial
    | linking c =>
      rw [hp] at hstep
      cases hstep
      dsimp only
      split
      · exact .inl trivial
      · cases c <;> exact .inl trivial
    | storing =>
      rw [hp] at hstep
      cases hstep
      exact .inr (.inl rfl)
    | waking =>
      rw [hp] at hstep
      cases hstep
      exact waits_polling _ _
    | removing | reaping | cleaning | ended =>
      rw [hp] at hwaits
      exact absurd hwaits (not_waits (by simp))
  | child ok =>
    change s.childStep ok = some s' at hstep
    unfold Sys.childStep at hstep
    rw [if_pos hdead] at hstep
    cases hstep
  | interrupt =>
    unfold step at hstep
    dsimp only at hstep
    rw [hdead] at hstep
    simp at hstep

/-- How far a wait is from its end: at a word that is set, or with a child that has ended. -/
def Poll.rank (set : Bool) : Poll → Nat
  | .look => if set then 1 else 2
  | .peek => if set then 3 else 1
  | .sleep => if set then 2 else 3

theorem Poll.rank_le (set : Bool) (at_ : Poll) : at_.rank set ≤ 3 := by
  cases set <;> cases at_ <;> decide

/-- How far the parent is from its end, given which words are set. -/
def Parent.rank (set : Flag → Bool) : Parent → Nat
  | .checking => 40
  | .polling .net at_ => at_.rank (set .net) + 36
  | .opening => 35
  | .connecting => 34
  | .linking .veth => 33
  | .linking .addr => 32
  | .linking .up => 31
  | .linking .addr6 => 30
  | .storing => 29
  | .waking => 28
  | .polling .root at_ => at_.rank (set .root) + 20
  | .removing => 19
  | .reaping => 18
  | .cleaning => 17
  | .ended => 0

theorem Parent.rank_le (set : Flag → Bool) (p : Parent) : p.rank set ≤ 40 := by
  cases p with
  | polling f at_ =>
    have hle := Poll.rank_le (set f) at_
    cases f with
    | net => exact Nat.le_succ_of_le (Nat.add_le_add_right hle 36)
    | root => exact Nat.le_trans (Nat.add_le_add_right hle 20) (by decide)
  | linking c => cases c <;> simp [Parent.rank]
  | checking | opening | connecting | storing | waking | removing | reaping | cleaning | ended =>
    simp [Parent.rank]

theorem deadNext_rank (set set' : Flag → Bool) (f : Flag) (at_ : Poll) :
    (deadNext f).rank set < (Parent.polling f at_).rank set' := by
  cases f with
  | net =>
    have hle := Poll.rank_le (set .root) .look
    exact Nat.lt_of_lt_of_le (Nat.lt_of_le_of_lt (Nat.add_le_add_right hle 20) (by decide))
      (Nat.le_add_left 36 _)
  | root => exact Nat.lt_of_lt_of_le (by decide : 18 < 20) (Nat.le_add_left 20 _)

def Child.rank : Child → Nat
  | .unsharing => 15
  | .overlaying => 14
  | .netStoring => 13
  | .netWaking => 12
  | .netChecking => 11
  | .netWaiting => 10
  | .netAsleep => 9
  | .configuring => 8
  | .mounting => 7
  | .entering => 6
  | .moving => 5
  | .chrooting => 4
  | .rootStoring => 3
  | .rootWaking => 2
  | .running => 1

def Sys.set (s : Sys) (f : Flag) : Bool := s.word f = 1

def Sys.rank (s : Sys) : Nat := (if s.alive then s.child.rank else 0) * 64 + s.parent.rank s.set

theorem ChildAt.word_root {c : Child} (h : ChildAt s c) : s.rootWord = 0 ∨ s.rootWord = 1 := by
  cases c with
  | unsharing => exact .inl h.2.1
  | overlaying => exact .inl h.2.2.1
  | netStoring => exact .inl h.2.2.2
  | netWaking | netChecking | netWaiting | netAsleep | configuring => exact .inl h.2.2
  | mounting | entering | moving => exact .inl h.2
  | chrooting | rootStoring => exact .inl h.2.1
  | rootWaking | running => exact .inr h.2.1

/-- A child that has not told of its network has not entered its root. -/
theorem ChildAt.unset {c : Child} (h : ChildAt s c) (hnet : s.net = true) (hword : s.netWord = 0) :
    s.rootWord = 0 := by
  cases c with
  | unsharing => exact h.2.1
  | overlaying => exact h.2.2.1
  | netStoring => exact h.2.2.2
  | netWaking | netChecking | netWaiting | netAsleep | configuring => exact h.2.2
  | mounting | entering | moving => exact h.2
  | chrooting | rootStoring => exact h.2.1
  | rootWaking | running => exact absurd hword (h.1.2 hnet)

/-- A child that is alive and awake takes a step towards its end. -/
theorem childStep_closer (h : Inv s) (halive : s.alive = true) (hawake : s.child ≠ .netAsleep) :
    ∃ s', s.childStep true = some s' ∧ s'.rank < s.rank ∧ (s'.alive = true ∨ s'.rootWord = 1) := by
  have hless {t : Sys} (ht : t.alive = true) (hlt : t.child.rank < s.child.rank) : t.rank < s.rank := by
    have hle := Parent.rank_le t.set t.parent
    unfold Sys.rank
    rw [if_pos ht, if_pos halive]
    omega
  have hat := h.child
  unfold Sys.childStep
  rw [if_neg (by simp [halive]), if_pos rfl]
  cases hc : s.child with
  | unsharing | netStoring | netWaking | configuring | mounting | entering | moving | chrooting
  | rootStoring | rootWaking =>
    rw [hc] at hless
    exact ⟨_, rfl, hless halive (Nat.lt_succ_self _), .inl halive⟩
  | overlaying =>
    rw [hc] at hat hless
    have hroot : s.rootDir = true := by
      by_contra hgone
      rcases h.root (by simpa using hgone) with hmoved | hdead
      · exact absurd (hmoved.symm.trans hat.2.2.2) (by decide)
      · exact absurd (halive.symm.trans hdead) (by decide)
    dsimp only
    rw [if_pos hroot]
    refine ⟨_, rfl, hless halive ?_, .inl halive⟩
    dsimp only
    split <;> decide
  | netChecking | netWaiting =>
    rw [hc] at hless
    refine ⟨_, rfl, hless halive ?_, .inl halive⟩
    dsimp only
    split <;> decide
  | netAsleep => exact absurd hc hawake
  | running =>
    rw [hc] at hat
    refine ⟨_, rfl, ?_, .inr hat.2.1⟩
    have hle := Parent.rank_le s.set s.parent
    unfold Sys.rank
    rw [if_neg Bool.false_ne_true, if_pos halive, hc]
    change 0 * 64 + s.parent.rank s.set < 1 * 64 + s.parent.rank s.set
    omega

/-- A parent whose child is asleep or has ended takes a step towards its own end. -/
theorem parentStep_closer (h : Inv s) (hfree : ¬ Trapped s)
    (hend : s.parent ≠ .ended) (hchild : s.alive = true → s.child = .netAsleep) :
    ∃ s', s.parentStep true = some s' ∧ s'.rank < s.rank := by
  have hless {t : Sys} (ht : t.alive = s.alive) (hchild : t.child.rank ≤ s.child.rank)
      (hlt : t.parent.rank t.set < s.parent.rank s.set) : t.rank < s.rank := by
    unfold Sys.rank
    rw [ht]
    split <;> omega
  have hat := h.parent
  -- a word that is not set is the word of a child that has ended, and is seen to have
  have hdead (f : Flag) (at_ : Poll) (hp : s.parent = .polling f at_) (hword : s.word f ≠ 1) :
      s.alive = false ∧ s.reaped = false := by
    have hnot : s.alive ≠ true := fun halive => by
      have hasleep := hchild halive
      rcases h.safe.woken hasleep halive with hhost | hwaking
      · have hle := h.parent.word_le hhost
        have hc := h.child
        rw [hasleep] at hc
        have hne := hc.2.1.2 hc.1
        cases f with
        | net =>
          change s.netWord ≠ 1 at hword
          omega
        | root =>
          rw [hp] at hhost
          exact hhost
      · rw [hp] at hwaking
        cases hwaking
    refine ⟨by simpa using hnot, ?_⟩
    by_contra hreaped
    refine hfree ⟨by simpa using hreaped, by simpa using hnot, ?_, hp ▸ waits_polling f at_⟩
    cases f with
    | net =>
      rw [hp] at hat
      have hzero : s.netWord = 0 := by
        have := hat.2
        change s.netWord ≠ 1 at hword
        omega
      exact h.child.unset hat.1 hzero
    | root => exact h.child.word_root.resolve_right hword
  unfold Sys.parentStep
  cases hp : s.parent with
  | checking =>
    rw [hp] at hless
    refine ⟨_, rfl, hless rfl (Nat.le_refl _) ?_⟩
    dsimp only
    split
    · exact (by decide : 35 < 40)
    · exact Nat.lt_of_le_of_lt (Nat.add_le_add_right (Poll.rank_le _ _) 36) (by decide : 39 < 40)
  | polling f at_ =>
    rw [hp] at hless
    by_cases hword : s.word f = 1
    · cases at_ with
      | look =>
        refine ⟨_, rfl, hless rfl (Nat.le_refl _) ?_⟩
        dsimp only
        rw [if_pos hword]
        cases f <;> simp [Parent.rank, Poll.rank, readyNext, Sys.set, hword]
      | peek =>
        refine ⟨_, rfl, hless rfl (Nat.le_refl _) ?_⟩
        dsimp only
        split
        · exact deadNext_rank _ _ f .peek
        · cases f <;> simp_all [Parent.rank, Poll.rank, Sys.set, Sys.word]
      | sleep =>
        refine ⟨_, rfl, hless rfl (Nat.le_refl _) ?_⟩
        cases f <;> simp_all [Parent.rank, Poll.rank, Sys.set, Sys.word]
    · have hseen := hdead f at_ hp hword
      cases at_ with
      | look =>
        refine ⟨_, rfl, hless rfl (Nat.le_refl _) ?_⟩
        dsimp only
        rw [if_neg hword]
        cases f <;> simp_all [Parent.rank, Poll.rank, Sys.set, Sys.word]
      | peek =>
        refine ⟨_, rfl, hless rfl (Nat.le_refl _) ?_⟩
        dsimp only
        rw [if_pos hseen]
        exact deadNext_rank _ _ f .peek
      | sleep =>
        refine ⟨_, rfl, hless rfl (Nat.le_refl _) ?_⟩
        cases f <;> simp_all [Parent.rank, Poll.rank, Sys.set, Sys.word]
  | opening =>
    rw [hp] at hless
    dsimp only
    split
    · exact ⟨_, rfl, hless rfl (Nat.le_refl _) (Nat.lt_succ_self 34)⟩
    · exact ⟨_, rfl, hless rfl (Nat.le_refl _) (by decide : 29 < 35)⟩
  | connecting =>
    rw [hp] at hless
    exact ⟨_, rfl, hless rfl (Nat.le_refl _) (Nat.lt_succ_self 33)⟩
  | linking c =>
    rw [hp] at hless
    refine ⟨_, rfl, hless rfl (Nat.le_refl _) ?_⟩
    cases c <;> exact Nat.lt_succ_self _
  | storing =>
    rw [hp] at hless
    exact ⟨_, rfl, hless rfl (Nat.le_refl _) (Nat.lt_succ_self 28)⟩
  | waking =>
    rw [hp] at hless
    refine ⟨_, rfl, hless rfl ?_ ?_⟩
    · unfold Sys.wake
      split
      · rename_i hasleep
        rw [hasleep.1]
        exact (by decide : 8 ≤ 9)
      · exact Nat.le_refl _
    · exact Nat.lt_of_le_of_lt (Nat.add_le_add_right (Poll.rank_le _ _) 20) (by decide : 23 < 28)
  | removing =>
    rw [hp] at hless
    exact ⟨_, rfl, hless rfl (Nat.le_refl _) (Nat.lt_succ_self 18)⟩
  | reaping =>
    rw [hp] at hless
    have hnot : s.alive = false := by
      by_contra halive
      rcases h.safe.woken (hchild (by simpa using halive)) (by simpa using halive) with hhost | hwaking
      · rw [hp] at hhost
        exact hhost
      · rw [hp] at hwaking
        cases hwaking
    dsimp only
    rw [if_pos (.inl hnot)]
    exact ⟨_, rfl, hless rfl (Nat.le_refl _) (Nat.lt_succ_self 17)⟩
  | cleaning =>
    rw [hp] at hless
    exact ⟨_, rfl, hless rfl (Nat.le_refl _) (by decide : 0 < 17)⟩
  | ended => exact absurd hp hend

/-- From every state that a run reaches the parent can come to its end without a failure,
unless it waits for a child that has ended unseen; and then it never does. -/
theorem handshake_ends (net reaped : Bool) (s : Sys) (h : Run step Any (initial net reaped) s) :
    (¬ Trapped s → ∃ t, Run step Smooth s t ∧ t.parent = .ended) ∧
      (Trapped s → ∀ t, Run step Any s t → t.parent ≠ .ended) := by
  constructor
  · intro hfree
    refine reaches (I := fun s => Inv s ∧ ¬ Trapped s) Sys.rank ?_ ⟨run_inv h, hfree⟩
    rintro t ⟨hinv, hnot⟩ hend
    by_cases hturn : t.alive = true ∧ t.child ≠ .netAsleep
    · obtain ⟨t', hstep, hrank, hlive⟩ := childStep_closer hinv hturn.1 hturn.2
      refine ⟨.child true, t', rfl, hstep, ⟨childStep_inv hinv hstep, ?_⟩, hrank⟩
      rintro ⟨-, hdead, hword, -⟩
      rcases hlive with halive | hone
      · exact absurd (halive.symm.trans hdead) (by decide)
      · exact absurd (hone.symm.trans hword) (by decide)
    · have hchild (halive : t.alive = true) : t.child = .netAsleep := by
        by_contra hne
        exact hturn ⟨halive, hne⟩
      obtain ⟨t', hstep, hrank⟩ := parentStep_closer hinv hnot hend hchild
      exact ⟨.parent true, t', rfl, hstep, ⟨parentStep_inv hinv hstep, not_trapped_step hnot hstep⟩, hrank⟩
  · intro htrapped t hrun
    have ht : Trapped t := hrun.invariant Trapped htrapped fun _ _ _ hi _ hstep => trapped_step hi hstep
    intro hended
    exact not_waits (.inr (.inr (.inr hended))) ht.2.2.2

/-- A child that fails before it has entered its root is seen by its parent, but not if
`SIGCHLD` is ignored. -/
theorem handshake_ends_failed :
    (∃ s t, s.alive = false ∧ Run step Smooth s t ∧ t.parent = .ended) ∧
      ∃ s, s.alive = false ∧ ∀ t, Run step Any s t → t.parent ≠ .ended := by
  have hfails (reaped : Bool) : Run step Any (initial true reaped)
      { initial true reaped with alive := false } := exec_run [.child false] rfl
  obtain ⟨t, hrun, ht⟩ := (handshake_ends true false _ (hfails false)).1 fun h => by cases h.1
  refine ⟨⟨_, t, rfl, hrun, ht⟩, _, rfl, (handshake_ends true true _ (hfails true)).2 ?_⟩
  exact ⟨rfl, rfl, rfl, .inl trivial⟩

end Cage.Core.Handshake
