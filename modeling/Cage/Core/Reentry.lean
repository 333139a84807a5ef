import Cage.Lib.Runs

/-!
A first run and a second run on its pidfile: `spawn_init` and `spawn_exec` of
`src/core/cage.c` with the child of `src/sandbox/nssetup.c`, against
`detect_existing` and `spawn_existing`. One action is one system call of the
first run's parent, of its child or of the second run; it fails if its flag is
false. What the second run sees of the instance is the child's root, its mount
namespace and its environment, each at the moment of the call.
-/

namespace Cage.Core.Reentry

open Lib.Runs

/-- A root directory: the host's, or the overlay, with what `mount_all` mounts
into it or without. -/
inductive Dir where
  | host
  | overlay (prepared : Bool)
  deriving DecidableEq, Repr

/-- Whose environment block. -/
inductive Env where
  | host
  | inst
  deriving DecidableEq, Repr

inductive Pidfile where
  | absent
  | empty
  | written
  deriving DecidableEq, Repr

inductive Holder where
  | first
  | second
  deriving DecidableEq, Repr

structure Fs where
  root : Dir
  cwd : Dir
  deriving DecidableEq, Repr

/-- The next call of the first run's parent. -/
inductive Parent where
  /-- `open` with `O_EXCL` -/
  | creating
  /-- `flock` in `open_and_lock` -/
  | locking
  /-- `do_setup`, up to the fork of the child -/
  | forking
  /-- `dprintf` of the pid -/
  | writing
  /-- `close_pid` -/
  | unlocking
  /-- `pidwait` -/
  | waiting
  /-- `unlink_pidfile` -/
  | unlinking
  | ended
  deriving DecidableEq, Repr

/-- The next call of the child. -/
inductive Child where
  | unborn
  /-- `unshare` in `mount_ns_setup` -/
  | unsharing
  /-- `prepare_overlay` -/
  | overlaying
  /-- `mount_all` and what else `do_child_setup` does -/
  | mounting
  /-- `chdir` in `move_and_chroot` -/
  | entering
  /-- `mount` with `MS_MOVE` -/
  | moving
  /-- `chroot` -/
  | chrooting
  /-- the init script -/
  | scripting
  /-- `execvpe` in `launch_exec` -/
  | launching
  | launched
  deriving DecidableEq, Repr

/-- The next call of the second run. -/
inductive Second where
  /-- `io_exists` in `detect_existing` -/
  | start
  /-- `open` in `readpid` -/
  | opening
  /-- `flock` in `readpid` -/
  | locking
  /-- `read` in `readpid` -/
  | reading
  /-- `close_pid` -/
  | closing (written : Bool)
  /-- `kill(pid, 0)` and the read of `/proc/pid/stat` -/
  | probing
  /-- `chdir` to `/proc/pid/root` -/
  | chdiring
  /-- `env_read_pid_environ` -/
  | readingEnviron
  /-- `setns` of pid, cgroup and net, with the number done -/
  | joining (done : Fin 3)
  /-- `open` of `/proc/pid/ns/mnt` in `join_ns` -/
  | openingMnt
  /-- `setns` of mnt, with a descriptor of the instance's namespace or of the host's -/
  | joiningMnt (own : Bool)
  | forking
  /-- `chroot(".")` in `reuse_child` -/
  | chrooting
  /-- `execvpe` in `launch_exec` -/
  | launching
  | launched
  /-- no instance was found; the run goes on as one of its own -/
  | left
  | failed
  deriving DecidableEq, Repr

structure Sys where
  /-- `-G` was given to the second run. -/
  graphical : Bool
  pidfile : Pidfile
  lock : Option Holder
  parent : Parent
  child : Child
  alive : Bool
  childFs : Fs
  /-- The child has a mount namespace of its own. -/
  unshared : Bool
  /-- The overlay is mounted at its directory in that namespace. -/
  mounted : Option Bool
  /-- The topmost mount on the root of that namespace. -/
  nsRoot : Dir
  environ : Env
  second : Second
  secondFs : Fs
  /-- Where the second run's GUI variables come from, if it inherits any. -/
  inherited : Option Env
  deriving DecidableEq, Repr

inductive Act where
  | parent (ok : Bool)
  | child (ok : Bool)
  | second (ok : Bool)
  deriving DecidableEq, Repr

def Sys.parentStep (s : Sys) (ok : Bool) : Option Sys :=
  match s.parent with
  | .creating =>
      if ok ∧ s.pidfile = .absent then
        some { s with pidfile := .empty, parent := .locking }
      else
        some { s with parent := .ended }
  | .locking =>
      if ok then
        if s.lock = none then some { s with lock := some .first, parent := .forking } else none
      else
        some { s with parent := .ended }
  | .forking =>
      if ok then
        some { s with child := .unsharing, alive := true, parent := .writing }
      else
        some { s with lock := none, parent := .unlinking }
  | .writing => some { s with pidfile := .written, parent := .unlocking }
  | .unlocking => some { s with lock := none, parent := .waiting }
  | .waiting => if s.alive = false then some { s with parent := .unlinking } else none
  | .unlinking => some { s with pidfile := .absent, parent := .ended }
  | .ended => none

/-- A failing call ends the child; so does the end of the command. -/
def Sys.childStep (s : Sys) (ok : Bool) : Option Sys :=
  if s.alive = false then
    none
  else if ok then
    match s.child with
    | .unsharing => some { s with unshared := true, child := .overlaying }
    | .overlaying => some { s with mounted := some false, child := .mounting }
    | .mounting => some { s with mounted := s.mounted.map fun _ => true, child := .entering }
    | .entering =>
        some { s with
          childFs := { s.childFs with cwd := (s.mounted.map Dir.overlay).getD .host }
          child := .moving }
    | .moving =>
        some { s with nsRoot := (s.mounted.map Dir.overlay).getD s.nsRoot, child := .chrooting }
    | .chrooting =>
        some { s with childFs := { s.childFs with root := s.childFs.cwd }, child := .scripting }
    | .scripting => some { s with child := .launching }
    | .launching => some { s with environ := .inst, child := .launched }
    | _ => none
  else
    some { s with alive := false }

/-- `setns` puts root and cwd at the root of the joined namespace. -/
def Sys.joinedRoot (s : Sys) (own : Bool) : Dir := if own then s.nsRoot else .host

def Sys.secondStep (s : Sys) (ok : Bool) : Option Sys :=
  match s.second with
  | .start =>
      if ok then
        some { s with second := if s.pidfile = .absent then .left else .opening }
      else
        some { s with second := .failed }
  | .opening => some { s with second := if ok ∧ s.pidfile ≠ .absent then .locking else .left }
  | .locking =>
      if ok then
        if s.lock = none then some { s with lock := some .second, second := .reading } else none
      else
        some { s with second := .left }
  | .reading => some { s with second := .closing (ok ∧ s.pidfile = .written) }
  | .closing written =>
      some { s with lock := none, second := if written then .probing else .left }
  | .probing => some { s with second := if ok ∧ s.alive then .chdiring else .left }
  | .chdiring =>
      if ok ∧ s.alive then
        some { s with
          secondFs := { s.secondFs with cwd := s.childFs.root }
          second := if s.graphical then .readingEnviron else .joining 0 }
      else
        some { s with second := .failed }
  | .readingEnviron =>
      -- without the block the variables are computed from the run's own environment
      some { s with
        inherited := if ok ∧ s.alive then some s.environ else none
        second := .joining 0 }
  | .joining n =>
      if ok ∧ s.alive then
        some { s with second := if n = 2 then .openingMnt else .joining (n + 1) }
      else
        some { s with second := .failed }
  | .openingMnt =>
      if ok ∧ s.alive then
        some { s with second := .joiningMnt s.unshared }
      else
        some { s with second := .failed }
  | .joiningMnt own =>
      if ok then
        some { s with
          secondFs := { root := s.joinedRoot own, cwd := s.joinedRoot own }
          second := .forking }
      else
        some { s with second := .failed }
  | .forking => some { s with second := if ok then .chrooting else .failed }
  | .chrooting =>
      if ok then
        some { s with secondFs := { s.secondFs with root := s.secondFs.cwd }, second := .launching }
      else
        some { s with second := .failed }
  | .launching => some { s with second := if ok then .launched else .failed }
  | .launched | .left | .failed => none

def step (s : Sys) : Act → Option Sys
  | .parent ok => s.parentStep ok
  | .child ok => s.childStep ok
  | .second ok => s.secondStep ok

/-- Neither run has made a call yet. -/
def initial (graphical : Bool) : Sys where
  graphical := graphical
  pidfile := .absent
  lock := none
  parent := .creating
  child := .unborn
  alive := false
  childFs := { root := .host, cwd := .host }
  unshared := false
  mounted := none
  nsRoot := .host
  environ := .host
  second := .start
  secondFs := { root := .host, cwd := .host }
  inherited := none

/-- A second run that has executed its command runs in the prepared overlay, and
not with GUI variables of the host. -/
def Finished (s : Sys) : Prop :=
  s.second = .launched → s.secondFs.root = .overlay true ∧ s.inherited ≠ some .host

/-- The child has moved its root over that of its namespace. -/
def Child.Moved : Child → Prop
  | .chrooting | .scripting | .launching | .launched => True
  | _ => False

instance : (c : Child) → Decidable c.Moved
  | .chrooting | .scripting | .launching | .launched => .isTrue trivial
  | .unborn | .unsharing | .overlaying | .mounting | .entering | .moving => .isFalse id

/-- The second run opens the mount namespace only of a child that has one of its
own, joins it only after the child has moved its root, and reads the environment
only of a child that has executed its command. -/
def Disciplined (s : Sys) : Act → Prop
  | .second ok =>
      (s.second = .readingEnviron → ok = true → s.alive = true → s.child = .launched) ∧
        (s.second = .openingMnt → ok = true → s.alive = true → s.unshared = true) ∧
        ((∃ own, s.second = .joiningMnt own) → ok = true → s.child.Moved)
  | _ => True

instance (s : Sys) : (a : Act) → Decidable (Disciplined s a)
  | .second _ => inferInstanceAs (Decidable (_ ∧ _))
  | .parent _ | .child _ => .isTrue trivial

/-- What the child's progress says of the instance. -/
structure Built (s : Sys) : Prop where
  unborn : s.child = .unborn → s.alive = false
  mounting : s.child = .mounting → s.mounted ≠ none
  entering : s.child = .entering → s.mounted = some true
  moving : s.child = .moving → s.mounted = some true
  moved : s.child.Moved → s.nsRoot = .overlay true
  environ : s.child = .launched → s.environ = .inst

/-- The second run is past its `setns` of mnt. -/
def Second.Joined : Second → Prop
  | .forking | .chrooting | .launching | .launched => True
  | _ => False

/-- What the second run has joined. -/
structure Inv (s : Sys) : Prop where
  built : Built s
  inherited : s.inherited ≠ some .host
  own : ∀ own, s.second = .joiningMnt own → own = true
  joined : s.second.Joined → s.secondFs = { root := .overlay true, cwd := .overlay true }

theorem initial_inv (graphical : Bool) : Inv (initial graphical) where
  built := ⟨fun _ => rfl, nofun, nofun, nofun, nofun, nofun⟩
  inherited := nofun
  own := nofun
  joined := nofun

theorem parentStep_inv {s s' : Sys} {ok : Bool} (hinv : Inv s) (h : s.parentStep ok = some s') :
    Inv s' := by
  have hkeep : ∀ (pf : Pidfile) (l : Option Holder) (pa : Parent),
      Inv { s with pidfile := pf, lock := l, parent := pa } := fun _ _ _ =>
    ⟨⟨hinv.built.unborn, hinv.built.mounting, hinv.built.entering, hinv.built.moving,
      hinv.built.moved, hinv.built.environ⟩, hinv.inherited, hinv.own, hinv.joined⟩
  have hborn : Inv { s with child := .unsharing, alive := true, parent := .writing } :=
    ⟨⟨nofun, nofun, nofun, nofun, nofun, nofun⟩, hinv.inherited, hinv.own, hinv.joined⟩
  unfold Sys.parentStep at h
  cases hp : s.parent <;> simp only [hp] at h
  case creating => split at h <;> cases h <;> exact hkeep ..
  case locking =>
    split at h
    · split at h
      · cases h
        exact hkeep ..
      · cases h
    · cases h
      exact hkeep ..
  case forking =>
    split at h
    · cases h
      exact hborn
    · cases h
      exact hkeep ..
  case writing =>
    cases h
    exact hkeep ..
  case unlocking =>
    cases h
    exact hkeep ..
  case waiting =>
    split at h
    · cases h
      exact hkeep ..
    · cases h
  case unlinking =>
    cases h
    exact hkeep ..
  case ended => cases h

theorem childStep_built {s s' : Sys} {ok : Bool} (hb : Built s) (h : s.childStep ok = some s') :
    Built s' := by
  unfold Sys.childStep at h
  split at h
  · cases h
  · rename_i halive
    split at h
    · cases hc : s.child <;> simp only [hc] at h
      case unborn => cases h
      case unsharing =>
        cases h
        exact ⟨nofun, nofun, nofun, nofun, nofun, nofun⟩
      case overlaying =>
        cases h
        exact ⟨nofun, fun _ => nofun, nofun, nofun, nofun, nofun⟩
      case mounting =>
        cases h
        have hmounted := hb.mounting hc
        refine ⟨nofun, nofun, fun _ => ?_, nofun, nofun, nofun⟩
        cases hm : s.mounted with
        | none => exact absurd hm hmounted
        | some b => rfl
      case entering =>
        cases h
        exact ⟨nofun, nofun, nofun, fun _ => hb.entering hc, nofun, nofun⟩
      case moving =>
        cases h
        refine ⟨nofun, nofun, nofun, nofun, fun _ => ?_, nofun⟩
        rw [hb.moving hc]
        rfl
      case chrooting =>
        cases h
        exact ⟨nofun, nofun, nofun, nofun, fun _ => hb.moved (by rw [hc]; trivial), nofun⟩
      case scripting =>
        cases h
        exact ⟨nofun, nofun, nofun, nofun, fun _ => hb.moved (by rw [hc]; trivial), nofun⟩
      case launching =>
        cases h
        exact ⟨nofun, nofun, nofun, nofun, fun _ => hb.moved (by rw [hc]; trivial), fun _ => rfl⟩
      case launched => cases h
    · cases h
      exact ⟨fun _ => rfl, hb.mounting, hb.entering, hb.moving, hb.moved, hb.environ⟩

/-- The child does not touch what the second run has joined. -/
theorem childStep_second {s s' : Sys} {ok : Bool} (h : s.childStep ok = some s') :
    s'.second = s.second ∧ s'.secondFs = s.secondFs ∧ s'.inherited = s.inherited := by
  unfold Sys.childStep at h
  split at h
  · cases h
  · split at h
    · cases hc : s.child <;> simp only [hc] at h <;> cases h <;> exact ⟨rfl, rfl, rfl⟩
    · cases h
      exact ⟨rfl, rfl, rfl⟩

theorem childStep_inv {s s' : Sys} {ok : Bool} (hinv : Inv s) (h : s.childStep ok = some s') :
    Inv s' := by
  obtain ⟨hsecond, hfs, hinherited⟩ := childStep_second h
  exact ⟨childStep_built hinv.built h, by rw [hinherited]; exact hinv.inherited,
    by rw [hsecond]; exact hinv.own, by rw [hsecond, hfs]; exact hinv.joined⟩

theorem secondStep_inv {s s' : Sys} {ok : Bool} (hinv : Inv s) (hord : Disciplined s (.second ok))
    (h : s.secondStep ok = some s') : Inv s' := by
  have hb := hinv.built
  -- a call that joins nothing
  have hkeep : ∀ (l : Option Holder) (fs : Fs) (next : Second), ¬ next.Joined →
      (∀ own, next = .joiningMnt own → own = true) →
      Inv { s with lock := l, secondFs := fs, second := next } := fun _ _ _ hnext hown =>
    ⟨⟨hb.unborn, hb.mounting, hb.entering, hb.moving, hb.moved, hb.environ⟩, hinv.inherited, hown,
      fun hj => absurd hj hnext⟩
  -- a call after the join
  have hlast : ∀ (fs : Fs) (next : Second), (∀ own, next ≠ .joiningMnt own) →
      (next.Joined → fs = { root := .overlay true, cwd := .overlay true }) →
      Inv { s with secondFs := fs, second := next } := fun _ _ hnext hfs =>
    ⟨⟨hb.unborn, hb.mounting, hb.entering, hb.moving, hb.moved, hb.environ⟩, hinv.inherited,
      fun own ho => absurd ho (hnext own), hfs⟩
  unfold Sys.secondStep at h
  obtain ⟨henviron, hopen, hjoin⟩ := hord
  cases hp : s.second <;> simp only [hp] at h
  case start =>
    split at h <;> cases h
    · exact hkeep _ _ _ (by split <;> exact id) (by split <;> nofun)
    · exact hkeep _ _ _ id nofun
  case opening =>
    cases h
    exact hkeep _ _ _ (by split <;> exact id) (by split <;> nofun)
  case locking =>
    split at h
    · split at h <;> cases h
      exact hkeep _ _ _ id nofun
    · cases h
      exact hkeep _ _ _ id nofun
  case reading =>
    cases h
    exact hkeep _ _ _ id nofun
  case closing written =>
    cases h
    exact hkeep _ _ _ (by split <;> exact id) (by split <;> nofun)
  case probing =>
    cases h
    exact hkeep _ _ _ (by split <;> exact id) (by split <;> nofun)
  case chdiring =>
    split at h <;> cases h
    · exact hkeep _ _ _ (by split <;> exact id) (by split <;> nofun)
    · exact hkeep _ _ _ id nofun
  case readingEnviron =>
    cases h
    refine ⟨⟨hb.unborn, hb.mounting, hb.entering, hb.moving, hb.moved, hb.environ⟩, ?_, nofun, nofun⟩
    split
    · rename_i hread
      rw [hb.environ (henviron hp hread.1 hread.2)]
      nofun
    · nofun
  case joining n =>
    split at h <;> cases h
    · exact hkeep _ _ _ (by split <;> exact id) (by split <;> nofun)
    · exact hkeep _ _ _ id nofun
  case openingMnt =>
    split at h <;> cases h
    · rename_i halive
      apply hkeep _ _ _ id
      rintro own ⟨⟩
      exact hopen hp halive.1 halive.2
    · exact hkeep _ _ _ id nofun
  case joiningMnt own =>
    split at h <;> cases h
    · rename_i hok
      refine hlast _ _ (fun _ => by nofun) ?_
      intro _
      have hroot : s.joinedRoot own = .overlay true := by
        rw [Sys.joinedRoot, hinv.own own hp, if_pos rfl]
        exact hb.moved (hjoin ⟨own, hp⟩ hok)
      rw [hroot]
    · exact hkeep _ _ _ id nofun
  case forking =>
    cases h
    exact hlast _ _ (by split <;> nofun) (fun _ => hinv.joined (by rw [hp]; trivial))
  case chrooting =>
    have hfs := hinv.joined (by rw [hp]; trivial)
    split at h <;> cases h
    · refine hlast _ _ (fun _ => by nofun) ?_
      intro _
      rw [hfs]
    · exact hkeep _ _ _ id nofun
  case launching =>
    cases h
    exact hlast _ _ (by split <;> nofun) (fun _ => hinv.joined (by rw [hp]; trivial))
  all_goals cases h

/-- In every run that keeps the order, a second run that executes its command
does so in the finished sandbox. -/
theorem reentry_finished (graphical : Bool) (s : Sys)
    (hrun : Run step Disciplined (initial graphical) s) : Finished s := by
  have hinv : Inv s := by
    apply hrun.invariant Inv (initial_inv graphical)
    intro t a t' h hord hstep
    cases a with
    | parent ok => exact parentStep_inv h hstep
    | child ok => exact childStep_inv h hstep
    | second ok => exact secondStep_inv h hord hstep
  intro hlaunched
  rw [hinv.joined (by rw [hlaunched]; trivial)]
  exact ⟨rfl, hinv.inherited⟩

/-- The parent up to its wait. -/
def publishes : List Act := List.replicate 5 (.parent true)

def secondCalls (n : Nat) : List Act := List.replicate n (.second true)

/-- The second run finds a child that has executed its command. -/
theorem reentry_finished_late : ∃ s, s.second = .launched ∧ s.inherited = some .inst ∧
    Finished s :=
  ⟨_, rfl, rfl, reentry_finished true _ (exec_run_if Disciplined
    (publishes ++ List.replicate 8 (.child true) ++ secondCalls 16) rfl)⟩

/-- The second run joins a child that has not unshared its mount namespace; and
one that has moved its root but not yet executed its command, with `-G`. -/
theorem reentry_unfinished :
    (∃ s, Run step Any (initial false) s ∧ s.secondFs.root = .host ∧ ¬ Finished s) ∧
      ∃ s, Run step Any (initial true) s ∧ s.inherited = some .host ∧ ¬ Finished s := by
  refine ⟨⟨_, exec_run (publishes ++ secondCalls 15) rfl, rfl, ?_⟩,
    ⟨_, exec_run (publishes ++ List.replicate 7 (.child true) ++ secondCalls 16) rfl, rfl, ?_⟩⟩
  · intro h
    exact absurd (h rfl).1 (by decide)
  · intro h
    exact (h rfl).2 rfl

end Cage.Core.Reentry
