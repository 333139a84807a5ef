import Cage.Lib.Runs

/-!
The life of a pidfile under any number of runs: `detect_existing`, `readpid`
and `create_pidfile` of `src/core/proc.c`, `spawn_init`, `spawn_exec`,
`spawn_cleanup` and `finish_child` of `src/core/cage.c`. One action is one
system call of one process. A process is somewhere in its program; what it
shares with the others is the directory entry, the files behind it with their
locks, and the children.
-/

namespace Cage.Core

/-- A file that is or was behind the path. A process creates one file at most,
which is named by its creator; `stale` is there before the runs. -/
inductive Ino (P : Type) where
  | stale
  | made (p : P)
  deriving DecidableEq, Repr

/-- What `parse_pid` makes of a file: nothing, the pid of a process that is no
init child, or the pid of the init child of `p`. -/
inductive Content (P : Type) where
  | junk
  | other
  | init (p : P)
  deriving DecidableEq, Repr

inductive Child where
  | none
  | alive
  | zombie
  | reaped
  deriving DecidableEq, Repr

/-- The next system call of a process. The file carried by `unlinking` is the
one that `detect_existing` has read and found without a running process. -/
inductive Phase (P : Type) where
  /-- `io_exists` in `detect_existing` -/
  | start
  /-- `open` in `readpid` -/
  | opening
  /-- `flock` in `readpid` -/
  | locking (f : Ino P)
  /-- `read` in `readpid` -/
  | reading (f : Ino P)
  /-- the unlock and close at the end of `readpid`, or `close_pid` after it -/
  | closing (f : Ino P) (c : Option (Content P))
  /-- `kill(pid, 0)` in `pidexists` -/
  | probing (f : Ino P) (c : Content P)
  /-- the read of `/proc/pid/stat` in `pid_zombie` -/
  | statting (f : Ino P) (c : Content P)
  /-- `io_unlink_quiet` in `detect_existing` -/
  | unlinking (f : Option (Ino P))
  /-- `open` with `O_EXCL` in `open_and_lock` -/
  | creating
  /-- `flock` in `open_and_lock` -/
  | claiming
  /-- `do_setup`, which ends with the fork of the init child -/
  | settingUp
  /-- `dprintf` of the child's pid in `spawn_exec` -/
  | forked
  /-- `close_pid` in `spawn_exec` -/
  | written
  /-- `pidwait` in `finish_child` -/
  | waiting
  /-- `unlink_pidfile` in `finish_child` -/
  | finishing
  /-- `close_pid` in `spawn_cleanup` -/
  | failing
  /-- `unlink_pidfile` in `spawn_cleanup` -/
  | failed
  /-- `detect_existing` has returned a pid to join -/
  | joined (c : Content P)
  | done
  deriving DecidableEq, Repr

structure Sys (P : Type) where
  phase : P → Phase P
  path : Option (Ino P)
  lock : Ino P → Option P
  content : Ino P → Content P
  child : P → Child

/-- `calls p ok foreign` is the next system call of `p`. It fails if `ok` is
false; `foreign` is what the kernel says of a pid that belongs to no init child,
or to one already reaped. `exits p` ends the init child of `p`. -/
inductive Act (P : Type) where
  | calls (p : P) (ok foreign : Bool)
  | exits (p : P)
  deriving DecidableEq, Repr

variable {P : Type} [DecidableEq P]

def Sys.goto (s : Sys P) (p : P) (ph : Phase P) : Sys P :=
  { s with phase := Function.update s.phase p ph }

def Sys.take (s : Sys P) (f : Ino P) (p : P) : Sys P :=
  { s with lock := Function.update s.lock f (some p) }

def Sys.release (s : Sys P) (f : Ino P) : Sys P :=
  { s with lock := Function.update s.lock f none }

def Sys.write (s : Sys P) (f : Ino P) (c : Content P) : Sys P :=
  { s with content := Function.update s.content f c }

def Sys.setChild (s : Sys P) (p : P) (c : Child) : Sys P :=
  { s with child := Function.update s.child p c }

def Sys.setPath (s : Sys P) (f : Option (Ino P)) : Sys P := { s with path := f }

/-- `pidexists` returns 0. -/
def Sys.pidExists (s : Sys P) (foreign : Bool) : Content P → Bool
  | .junk => false
  | .other => foreign
  | .init q =>
      match s.child q with
      | .alive | .zombie => true
      | .none | .reaped => foreign

/-- `/proc/pid/stat` shows a process that is no zombie. -/
def Sys.pidRuns (s : Sys P) (foreign : Bool) : Content P → Bool
  | .junk => false
  | .other => foreign
  | .init q =>
      match s.child q with
      | .alive => true
      | .zombie => false
      | .none | .reaped => foreign

def call (s : Sys P) (p : P) (ok foreign : Bool) : Phase P → Option (Sys P)
  | .start =>
      if ok then
        some (s.goto p (if s.path.isSome then .opening else .creating))
      else
        some (s.goto p .done)
  | .opening =>
      match s.path, ok with
      | some f, true => some (s.goto p (.locking f))
      | _, _ => some (s.goto p (.unlinking none))
  | .locking f =>
      if ok then
        if s.lock f = none then some ((s.take f p).goto p (.reading f)) else none
      else
        some (s.goto p (.unlinking none))
  | .reading f => some (s.goto p (.closing f (if ok then some (s.content f) else none)))
  | .closing f c =>
      some ((s.release f).goto p
        (match c with
        | none => .unlinking none
        | some .junk => .unlinking (some f)
        | some c => .probing f c))
  | .probing f c =>
      some (s.goto p (if s.pidExists foreign c then .statting f c else .unlinking (some f)))
  | .statting f c =>
      if ok then
        some (s.goto p (if s.pidRuns foreign c then .joined c else .unlinking (some f)))
      else
        some (s.goto p (.unlinking none))
  | .unlinking _ => some ((if ok then s.setPath none else s).goto p .creating)
  | .creating =>
      if s.path = none ∧ ok then
        some ((s.setPath (some (.made p))).goto p .claiming)
      else
        some (s.goto p .done)
  | .claiming =>
      if ok then
        if s.lock (.made p) = none then some ((s.take (.made p) p).goto p .settingUp) else none
      else
        some (s.goto p .done)
  | .settingUp =>
      if ok then some ((s.setChild p .alive).goto p .forked) else some (s.goto p .failing)
  -- what `dprintf` returns is dropped
  | .forked => some ((if ok then s.write (.made p) (.init p) else s).goto p .written)
  | .written => some ((s.release (.made p)).goto p .waiting)
  | .waiting =>
      if s.child p = .zombie then some ((s.setChild p .reaped).goto p .finishing) else none
  | .finishing => some ((if ok then s.setPath none else s).goto p .done)
  | .failing => some ((s.release (.made p)).goto p .failed)
  | .failed => some ((if ok then s.setPath none else s).goto p .done)
  | .joined _ => none
  | .done => none

def step (s : Sys P) : Act P → Option (Sys P)
  | .calls p ok foreign => call s p ok foreign (s.phase p)
  | .exits p => if s.child p = .alive then some (s.setChild p .zombie) else none

/-- Nobody has started; the path is free, or a stale file is behind it. -/
structure Initial (s : Sys P) : Prop where
  phase : ∀ p, s.phase p = .start
  path : s.path = none ∨ s.path = some .stale
  lock : ∀ f, s.lock f = none
  stale : ∀ p, s.content .stale ≠ .init p
  made : ∀ p, s.content (.made p) = .junk
  child : ∀ p, s.child p = .none

/-- From the creation of its pidfile to the end of its unlock. -/
def Phase.Starting : Phase P → Prop
  | .claiming | .settingUp | .forked | .written => True
  | _ => False

/-- No two running init children have parents that created the pidfile. -/
def Exclusive (s : Sys P) : Prop :=
  ∀ p q, s.child p = .alive → s.child q = .alive → p = q

/-- `q` is still starting, or the init recorded in its pidfile is alive. -/
def Protected (s : Sys P) (q : P) : Prop :=
  (s.phase q).Starting ∨ (s.content (.made q) = .init q ∧ s.child q = .alive)

/-- The calls that unlink the path. -/
def Phase.Unlinks : Phase P → Prop
  | .unlinking _ | .finishing | .failed => True
  | _ => False

/-- The action does not unlink a file that another process needs. -/
def UnlinkSafe (s : Sys P) : Act P → Prop
  | .calls p _ _ =>
      (s.phase p).Unlinks → ∀ q, q ≠ p → s.path = some (.made q) → ¬ Protected s q
  | .exits _ => True

/-- The order of steps on which the protocol relies: no reader gets the lock of
a file between its creation and the creator's own lock, the pid of the child gets
into the file, and an unlink finds no file, or the file that the process itself
has read and found dead or has created. -/
def Disciplined (s : Sys P) : Act P → Prop
  | .calls p ok _ =>
      match s.phase p with
      | .locking f => ok = true → ∀ q, f = .made q → s.phase q ≠ .claiming
      | .forked => ok = true
      | .unlinking f => s.path = none ∨ s.path = f
      | .finishing | .failed => s.path = none ∨ s.path = some (.made p)
      | _ => True
  | .exits _ => True

end Cage.Core
