import Cage.Core.Proc

/-!
What `killpid` knows of its target when it unlinks the pidfile. The target is a
process that is no child of the caller. It goes its own way between any two
calls; once it is gone its pid may be anybody's.
-/

namespace Cage.Core

open Lib.Program Util

inductive Life where
  | running
  | zombie
  | gone
  deriving DecidableEq, Repr

def Life.stage : Life → Nat
  | .running => 0
  | .zombie => 1
  | .gone => 2

/-- The target, whether a pidfile that names it was read while it ran, and what
it was whenever a pidfile was unlinked. -/
structure Target where
  life : Life
  found : Bool
  unlinks : List Life
  deriving DecidableEq, Repr

def Target.start (life : Life) : Target := { life := life, found := false, unlinks := [] }

def Target.after (pid : Nat) (s : Target) : (k : ProcCall) → k.Ret → Target
  | .read _ _, some buf =>
      if parsePid (cstring buf) = some pid ∧ s.life = .running then { s with found := true } else s
  | .unlink _, _ => { s with unlinks := s.life :: s.unlinks }
  | _, _ => s

/-- The text of `/proc/pid/stat`. The name of the command may hold anything;
behind it there are letters and numbers. -/
def StatText (pid : Nat) (letter : UInt8) (text : List UInt8) : Prop :=
  ∃ comm rest, text = (intStr pid ++ lit " (" ++ comm) ++ 41 :: 32 :: letter :: rest ∧
    0 ∉ comm ∧ 0 ∉ letter :: rest ∧ 41 ∉ letter :: rest

/-- What the kernel says of the target. Anything else may be answered as it
likes, also of the pid of a target that is gone. -/
def Truthful (pid : Nat) (life : Life) : (k : ProcCall) → k.Ret → Prop
  | .kill n _, r => n = pid → life ≠ .gone → r ≠ .esrch
  | .waitpid n, r => n = pid → r = .echild
  | .readPidStat n, some text =>
      n = pid → (life = .running → ∃ letter, letter ≠ 90 ∧ StatText pid letter text) ∧
        (life = .zombie → StatText pid 90 text)
  | _, _ => True

/-- The target moves on, and the call is answered. -/
def Kills (pid : Nat) (k : ProcCall) (s : Target) (r : k.Ret) (t : Target) : Prop :=
  ∃ life, s.life.stage ≤ life.stage ∧ Truthful pid life k r ∧
    t = ({ s with life := life } : Target).after pid k r

/-- When `waitpid` refuses to wait, and when `/proc/pid/stat` cannot be read,
the target has stopped running. -/
def Stops (pid : Nat) : (k : ProcCall) → k.Ret → Target → Prop
  | .waitpid n, _, t => n = pid → t.life ≠ .running
  | .readPidStat n, none, t => n = pid → t.life ≠ .running
  | _, _, _ => True

def KillsStopped (pid : Nat) (k : ProcCall) (s : Target) (r : k.Ret) (t : Target) : Prop :=
  Kills pid k s r t ∧ Stops pid k r t

/-- `killpid` has found the target alive and returns 0: then it ran at no unlink. -/
def WaitsForDeath (r : Option Int) (t : Target) : Prop :=
  r = some 0 → t.found = true → .running ∉ t.unlinks

theorem StatText.zombie {pid : Nat} {letter : UInt8} {text : List UInt8}
    (h : StatText pid letter text) : statZombie (cstring text) = (letter == 90) := by
  obtain ⟨comm, rest, rfl, hcomm, hzero, hparen⟩ := h
  have hname : 0 ∉ intStr pid ++ lit " (" ++ comm := by
    simp only [List.mem_append, not_or]
    exact ⟨⟨zero_notin_intStr pid, by decide⟩, hcomm⟩
  have hall : 0 ∉ (intStr pid ++ lit " (" ++ comm) ++ 41 :: 32 :: letter :: rest := by
    rw [List.mem_append, not_or]
    refine ⟨hname, ?_⟩
    simp only [List.mem_cons, not_or] at hzero ⊢
    exact ⟨by decide, by decide, hzero⟩
  have hlast : (41 : UInt8) ∉ 32 :: letter :: rest := by
    rw [List.mem_cons, not_or]
    exact ⟨by decide, hparen⟩
  rw [cstring_eq_self hall, statZombie, strrchr_append hlast]
  rfl

/-- A call that leaves the pidfile alone. -/
def ProcCall.Aside : ProcCall → Prop
  | .read _ _ | .unlink _ => False
  | _ => True

theorem Kills.aside {pid : Nat} {k : ProcCall} {s t : Target} {r : k.Ret} (h : Kills pid k s r t)
    (hk : k.Aside) : Truthful pid t.life k r ∧ t.found = s.found ∧ t.unlinks = s.unlinks := by
  obtain ⟨life, -, htrue, rfl⟩ := h
  cases k with
  | read | unlink => exact hk.elim
  | _ => exact ⟨htrue, rfl, rfl⟩

/-- What has stopped running does not run again. -/
theorem stopped_later {life life' : Life} (h : life ≠ .running) (hle : life.stage ≤ life'.stage) :
    life' ≠ .running := by
  rintro rfl
  cases life with
  | running => exact h rfl
  | zombie | gone => exact absurd hle (by decide)

/-- `m` leaves the pidfile alone, and takes a target with `I` to one with `post`. -/
def Beside (pid : Nat) {A : Type} (I : Target → Prop) (m : ProcM A) (post : A → Target → Prop) :
    Prop :=
  ∀ s, I s → m.Wp (KillsStopped pid)
    (fun a t => t.found = s.found ∧ t.unlinks = s.unlinks ∧ post a t) s

section Beside

variable {pid : Nat} {A B : Type} {I : Target → Prop} {Q : A → Target → Prop}

theorem Beside.pure {a : A} (h : ∀ s, I s → Q a s) : Beside pid I (pure a) Q :=
  fun s hs => ⟨rfl, rfl, h s hs⟩

theorem Beside.bind {m : ProcM A} {f : A → ProcM B} {Q' : B → Target → Prop}
    (hm : Beside pid I m Q) (hf : ∀ a, Beside pid (Q a) (f a) Q') :
    Beside pid I (m >>= f) Q' := by
  intro s hs
  refine Wp.bind m (Wp.mono ?_ m (hm s hs))
  rintro a t ⟨hfound, hunlinks, ha⟩
  refine Wp.mono ?_ (f a) (hf a t ha)
  rintro b u ⟨hfound', hunlinks', hb⟩
  exact ⟨hfound'.trans hfound, hunlinks'.trans hunlinks, hb⟩

theorem Beside.ite {c : Prop} [Decidable c] {m n : ProcM A} (hm : c → Beside pid I m Q)
    (hn : ¬ c → Beside pid I n Q) : Beside pid I (if c then m else n) Q := by
  split
  · rename_i h
    exact hm h
  · rename_i h
    exact hn h

theorem Beside.sys {k : ProcCall} {Q : k.Ret → Target → Prop} (hk : k.Aside)
    (h : ∀ t r, Truthful pid t.life k r → Stops pid k r t → Q r t) :
    Beside pid I (ProcM.sys k) Q := by
  intro s _ r t hkills
  obtain ⟨htrue, hfound, hunlinks⟩ := hkills.1.aside hk
  exact ⟨hfound, hunlinks, h t r htrue hkills.2⟩

/-- What follows a program that leaves the pidfile alone. -/
theorem Beside.wp {m : ProcM A} {s : Target} {C : A → Target → Prop} (h : Beside pid I m Q)
    (hs : I s) (hQ : ∀ a t, t.found = s.found → t.unlinks = s.unlinks → Q a t → C a t) :
    m.Wp (KillsStopped pid) C s :=
  Wp.mono (fun a t ht => hQ a t ht.1 ht.2.1 ht.2.2) m (h s hs)

end Beside

section Stopping

variable {pid n : Nat}

/-- A return of 0 says that the target has stopped running. -/
def SaysStopped (pid n : Nat) (r : Option Int) (t : Target) : Prop :=
  n = pid → r = some 0 → t.life ≠ .running

theorem SaysStopped.other {a : Option Int} {t : Target} (h : a ≠ some 0) : SaysStopped pid n a t :=
  fun _ h0 => absurd h0 h

theorem beside_pidwait (fuel : Nat) {I : Target → Prop} :
    Beside pid I (pidwait fuel n) (SaysStopped pid n) := by
  induction fuel generalizing I with
  | zero => exact Beside.pure fun s _ => SaysStopped.other (by simp)
  | succ fuel ih =>
    refine Beside.bind (Q := fun r t => n = pid → t.life ≠ .running)
      (Beside.sys trivial fun t r _ hstops => hstops) ?_
    intro r
    cases r with
    | status | echild => exact Beside.pure fun s hs hn _ => hs hn
    | eintr => exact ih
    | other => exact Beside.pure fun s _ => SaysStopped.other (by simp)

/-- `ESRCH` is said of a target that is gone. -/
theorem beside_kill (sig : Nat) {I : Target → Prop} :
    Beside pid I (ProcM.sys (.kill n sig))
      (fun r t => n = pid → r = .esrch → t.life ≠ .running) := by
  refine Beside.sys trivial ?_
  intro t r htrue _ hn hr hrun
  refine htrue hn ?_ hr
  rw [hrun]
  decide

theorem beside_pidexists {I : Target → Prop} :
    Beside pid I (pidexists n) (fun r t => n = pid → r = 1 → t.life ≠ .running) := by
  refine Beside.bind (beside_kill 0) ?_
  intro r
  cases r with
  | ok | other => exact Beside.pure fun s _ _ h => absurd h (by decide)
  | esrch => exact Beside.pure fun s hs hn _ => hs hn rfl

theorem beside_pollExit (polls : Nat) {I : Target → Prop} :
    Beside pid I (pollExit n polls) (SaysStopped pid n) := by
  induction polls generalizing I with
  | zero => exact Beside.pure fun s _ => SaysStopped.other (by simp)
  | succ polls ih =>
    refine Beside.bind beside_pidexists fun ret => ?_
    refine Beside.ite (fun h1 => Beside.pure fun s hs hn _ => hs hn h1) fun _ => ?_
    refine Beside.ite (fun _ => Beside.pure fun s _ => SaysStopped.other (by simp)) fun _ => ?_
    exact Beside.bind (Q := fun _ _ => True) (Beside.sys trivial fun _ _ _ _ => trivial)
      fun _ => ih

theorem beside_waitpidGraceful (fuel : Nat) {I : Target → Prop} :
    Beside pid I (waitpidGraceful fuel n) (SaysStopped pid n) := by
  refine Beside.bind (beside_pollExit 50) fun ret => ?_
  cases ret with
  | some ret => exact Beside.pure fun s hs => hs
  | none =>
    refine Beside.bind (beside_kill sigkill) fun r => ?_
    cases r with
    | esrch => exact Beside.pure fun s hs hn _ => hs hn rfl
    | other => exact Beside.pure fun s _ => SaysStopped.other (by simp)
    | ok => exact beside_pidwait fuel

theorem beside_killGracefully (fuel : Nat) {I : Target → Prop} :
    Beside pid I (killGracefully fuel n) (SaysStopped pid n) := by
  refine Beside.bind (beside_kill sigterm) fun r => ?_
  cases r with
  | esrch => exact Beside.pure fun s hs hn _ => hs hn rfl
  | other => exact Beside.pure fun s _ => SaysStopped.other (by simp)
  | ok => exact beside_waitpidGraceful fuel

theorem beside_pidZombie {I : Target → Prop} :
    Beside pid I (pidZombie n) (fun z t => n = pid → z = true → t.life ≠ .running) := by
  refine Beside.bind (Q := fun r t => n = pid →
      ∀ text, (r = none ∨ r = some text ∧ statZombie (cstring text) = true) → t.life ≠ .running)
    (Beside.sys trivial ?_) ?_
  · intro t r htrue hstops hn text hr
    rcases hr with rfl | ⟨rfl, hz⟩
    · exact hstops hn
    · intro hrun
      obtain ⟨letter, hletter, htext⟩ := (htrue hn).1 hrun
      rw [htext.zombie, beq_iff_eq] at hz
      exact hletter hz
  · intro r
    cases r with
    | none => exact Beside.pure fun s hs hn _ => hs hn [] (Or.inl rfl)
    | some text => exact Beside.pure fun s hs hn hz => hs hn text (Or.inr ⟨rfl, hz⟩)

theorem beside_stopTarget (fuel : Nat) {I : Target → Prop} :
    Beside pid I (stopTarget fuel n) (SaysStopped pid n) := by
  refine Beside.bind beside_pidZombie fun z => ?_
  refine Beside.ite (fun hz => Beside.pure fun s hs hn _ => hs hn hz) fun _ => ?_
  exact beside_killGracefully fuel

theorem beside_closePid (fd : Fd) : Beside pid (fun _ => True) (closePid fd) (fun _ _ => True) :=
  Beside.bind (Q := fun _ _ => True) (Beside.sys trivial fun _ _ _ _ => trivial)
    fun _ => Beside.sys trivial fun _ _ _ _ => trivial

/-- No pidfile was unlinked, nor was one read that names the running target. -/
def Unfound (t : Target) : Prop := t.found = false ∧ t.unlinks = []

theorem unfound_sys {k : ProcCall} (hk : k.Aside) {s : Target} (hs : Unfound s) :
    (ProcM.sys k).Wp (KillsStopped pid) (fun _ t => Unfound t) s := by
  intro r t hkills
  obtain ⟨-, hfound, hunlinks⟩ := hkills.1.aside hk
  exact ⟨hfound.trans hs.1, hunlinks.trans hs.2⟩

theorem Target.after_read (s : Target) (fd : Fd) (n : Nat) (buf : List UInt8) :
    s.after pid (.read fd n) (some buf) =
      if parsePid (cstring buf) = some pid ∧ s.life = .running then { s with found := true }
      else s := rfl

theorem Unfound.read_unlinks {s : Target} (h : Unfound s) {fd : Fd} {n : Nat} {buf : List UInt8} :
    (s.after pid (.read fd n) (some buf)).unlinks = [] := by
  rw [Target.after_read]
  split
  · exact h.2
  · exact h.2

variable (pid) in
theorem Unfound.read_other {s : Target} (h : Unfound s) {fd : Fd} {n : Nat} {buf : List UInt8}
    (hother : parsePid (cstring buf) ≠ some pid) :
    Unfound (s.after pid (.read fd n) (some buf)) := by
  rw [Target.after_read, if_neg fun hread => hother hread.1]
  exact h

/-- If `readpid` finds the target alive, it returns its pid. -/
theorem readpid_found (path : CStr) {s : Target} (hs : Unfound s) :
    (readpid path).Wp (KillsStopped pid)
      (fun a t => Unfound t ∨ t.unlinks = [] ∧ ∃ fd, a = some (pid, fd)) s := by
  refine Wp.bind _ (Wp.mono ?_ _ (unfound_sys (k := .openRead path) trivial hs))
  intro f t ht
  cases f with
  | none => exact Or.inl ht
  | some f =>
    refine Wp.bind _ (Wp.mono ?_ _ (unfound_sys (k := .flock f) trivial ht))
    intro ok u hu
    cases ok with
    | false =>
      refine Wp.bind _ (Wp.mono ?_ _ (unfound_sys (k := .close f) trivial hu))
      exact fun _ v hv => Or.inl hv
    | true =>
      refine Wp.bind _ ?_
      rintro r v ⟨⟨life, -, -, rfl⟩, -⟩
      cases r with
      | none =>
        refine Wp.bind _ (Wp.mono ?_ _ (unfound_sys (k := .close f) trivial hu))
        exact fun _ v hv => Or.inl hv
      | some buf =>
        have hu' : Unfound ({ u with life := life } : Target) := hu
        simp only [Prog.Wp]
        split
        · rename_i hpid
          refine Wp.bind _ (Wp.mono ?_ _ (unfound_sys (k := .close f) trivial
            (hu'.read_other pid (by rw [hpid]; exact nofun))))
          exact fun _ v hv => Or.inl hv
        · rename_i n hpid
          by_cases hn : n = pid
          · subst hn
            exact Or.inr ⟨hu'.read_unlinks, f, rfl⟩
          · exact Or.inl (hu'.read_other pid (by rw [hpid]; exact fun h => hn (Option.some.inj h)))

/-- The end of `killPidfile`, from a state in which the target matters if it is
the one that was read. -/
theorem killPidfile_waits (fuel : Nat) (path : CStr) {s : Target} (hs : Unfound s) :
    (killPidfile fuel path).Wp (KillsStopped pid) WaitsForDeath s := by
  refine Wp.bind _ (Wp.mono ?_ _ (readpid_found path hs))
  intro a t ht
  cases a with
  | none => exact fun h0 => absurd h0 (by simp)
  | some a =>
    obtain ⟨n, fd⟩ := a
    refine Wp.bind _ ((beside_closePid fd).wp trivial ?_)
    intro _ u hfound hunlinks _
    refine Wp.bind _ ((beside_stopTarget fuel (I := fun _ => True)).wp trivial ?_)
    intro r v hfound' hunlinks' hstop
    cases r with
    | none => exact fun h0 => absurd h0 (by simp)
    | some r =>
      have hempty : t.unlinks = [] := ht.elim (fun h => h.2) fun h => h.1
      have hnamed : v.found = true → n = pid := by
        intro hv
        rcases ht with ht | ⟨-, fd', hfd⟩
        · rw [hfound', hfound, ht.1] at hv
          exact absurd hv Bool.false_ne_true
        · exact congrArg Prod.fst (Option.some.inj hfd)
      refine Wp.bind _ ?_
      rintro _ w ⟨⟨life, hle, -, rfl⟩, -⟩ hr hw
      have hv : v.unlinks = [] := by rw [hunlinks', hunlinks, hempty]
      have hgone : life ≠ .running := stopped_later (hstop (hnamed hw) hr) hle
      dsimp only [Target.after]
      rw [hv, List.mem_singleton]
      exact Ne.symm hgone

end Stopping

/-- Where `waitpid` and `/proc/pid/stat` fail only for a target that has stopped,
the pidfile is unlinked after its death. -/
theorem killpid_waits (fuel pid : Nat) (name pidfile : Option CStr) (life : Life) :
    (killpid fuel name pidfile).Wp (KillsStopped pid) WaitsForDeath (Target.start life) := by
  have hstart : Unfound (Target.start life) := ⟨rfl, rfl⟩
  refine Wp.bind _ (Wp.bind _ (Wp.mono ?_ _ (unfound_sys (k := .access _) trivial hstart)))
  intro e t ht
  show Prog.Wp _ _ (if _ then _ else _) t
  split
  · exact fun _ hfound => absurd (ht.1.symm.trans hfound) Bool.false_ne_true
  · split
    · exact killPidfile_waits fuel _ ht
    · exact fun h0 => absurd h0 (by simp)

/-- A kernel under which the target does not move: it may be signalled, and
nobody's child is waited for. -/
def stubborn (s : Target) : (k : ProcCall) → k.Ret
  | .access _ => none
  | .openRead _ | .create _ | .openNs _ _ => some 3
  | .isdir _ | .mkdir _ | .flock _ | .dprintf _ _ | .chdirRoot _ | .setns _ _ => true
  | .read _ _ => some (lit "7")
  | .readPidStat _ =>
      if s.life = .zombie then some (lit "7 (sleep) Z 1 7") else some (lit "7 (sleep) S 1 7")
  | .readPidEnviron _ => none
  | .unlock _ | .close _ | .unlink _ | .nanosleep => ()
  | .kill _ _ => .ok
  | .waitpid _ => .echild
  | .doSetup => none

theorem stubborn_kills (k : ProcCall) (s : Target) :
    Kills 7 k s (stubborn s k) (s.after 7 k (stubborn s k)) := by
  refine ⟨s.life, Nat.le_refl _, ?_, rfl⟩
  cases k with
  | kill n sig => exact fun _ _ => nofun
  | waitpid n => exact fun _ => rfl
  | readPidStat n =>
    by_cases hz : s.life = .zombie
    · have htext : stubborn s (.readPidStat n) = some (lit "7 (sleep) Z 1 7") := if_pos hz
      rw [htext]
      refine fun _ => ⟨fun hrun => absurd (hrun.symm.trans hz) (by decide), fun _ => ?_⟩
      exact ⟨lit "sleep", lit " 1 7", by decide, by decide, by decide, by decide⟩
    · have htext : stubborn s (.readPidStat n) = some (lit "7 (sleep) S 1 7") := if_neg hz
      rw [htext]
      refine fun _ => ⟨fun _ => ⟨83, by decide, ?_⟩, fun hzombie => absurd hzombie hz⟩
      exact ⟨lit "sleep", lit " 1 7", by decide, by decide, by decide, by decide⟩
  | _ => exact trivial

set_option maxRecDepth 20000 in
/-- After `SIGKILL` the wait for a process that is no child fails at once, and
the pidfile of a process that still runs is unlinked. -/
theorem killpid_unlinks_running :
    ¬ (killpid 1 none (some (lit "/run/cage/pid"))).Wp (Kills 7) WaitsForDeath
      (Target.start .running) := by
  intro h
  have hend := Wp.exec (fun k s => (stubborn s k, s.after 7 k (stubborn s k))) stubborn_kills _ h
  have hrun : (killpid 1 none (some (lit "/run/cage/pid"))).exec
      (fun k s => (stubborn s k, s.after 7 k (stubborn s k))) (Target.start .running) =
      (some 0, { life := .running, found := true, unlinks := [.running] }) := by decide
  rw [hrun] at hend
  exact hend rfl rfl List.mem_cons_self

end Cage.Core
