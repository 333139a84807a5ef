import Cage.Core.Proc

/-!
The host under `proc.c`: the files behind the pidfiles and the process table. A
pid belongs to the process that runs under it until that is reaped, and is then
handed out again. Nothing is said about locks; whoever asks for one may get it.
-/

namespace Cage.Core

open Lib.Program Util

/-- The init child of a process, or any other process of the host. -/
inductive Owner (P : Type) where
  | init (p : P)
  | other
  deriving DecidableEq, Repr

structure Entry (P : Type) where
  owner : Owner P
  zombie : Bool
  deriving DecidableEq, Repr

/-- A call that has reached a process by its pid. -/
structure Use (P : Type) where
  by_ : P
  call : ProcCall
  pid : Nat
  owner : Owner P

/-- `maker` is the process that has created a file, and the path it used; `child`
is the pid that the init child of a process was given, and `reaped` says that the
process of that pid is no more. -/
structure Host (P : Type) where
  path : CStr → Option Fd
  files : Nat
  text : Fd → List UInt8
  maker : Fd → Option (P × CStr)
  holder : Nat → Option (Entry P)
  child : P → Option Nat
  reaped : P → Bool
  uses : List (Use P)

/-- What happens on the host between two calls. -/
inductive Move where
  /-- a process that is no init child starts with this pid -/
  | starts (pid : Nat)
  | exits (pid : Nat)
  /-- the parent, or who took its place, has waited for the process -/
  | reaps (pid : Nat)
  deriving DecidableEq, Repr

/-- `moves` come before the call, which may fail; `pid` is what a fork returns,
`text` what a file under `/proc` holds. -/
structure Turn where
  moves : List Move
  fails : Bool
  pid : Nat
  text : List UInt8

variable {P : Type} [DecidableEq P]

def Host.setHolder (s : Host P) (n : Nat) (e : Option (Entry P)) : Host P :=
  { s with holder := Function.update s.holder n e }

def Host.setReaped (s : Host P) : Owner P → Host P
  | .init p => { s with reaped := Function.update s.reaped p true }
  | .other => s

/-- The pid is free again. -/
def Host.reap (s : Host P) (n : Nat) : Host P :=
  match s.holder n with
  | some ⟨owner, true⟩ => (s.setReaped owner).setHolder n none
  | _ => s

def Host.move (s : Host P) : Move → Host P
  | .starts n => if IsPid n ∧ s.holder n = none then s.setHolder n (some ⟨.other, false⟩) else s
  | .exits n =>
      match s.holder n with
      | some e => s.setHolder n (some { e with zombie := true })
      | none => s
  | .reaps n => s.reap n

def Host.moves (s : Host P) (ms : List Move) : Host P := ms.foldl Host.move s

def Host.use (s : Host P) (p : P) (call : ProcCall) (pid : Nat) (owner : Owner P) : Host P :=
  { s with uses := ⟨p, call, pid, owner⟩ :: s.uses }

/-- A call on the process with that pid, if there is one. -/
def Host.reach {A : Type} (s : Host P) (p : P) (call : ProcCall) (pid : Nat) (fails : Bool)
    (missing failed : A) (found : Entry P → A) : A × Host P :=
  match s.holder pid with
  | none => (missing, s)
  | some e => if fails then (failed, s) else (found e, s.use p call pid e.owner)

/-- A new file behind a free path. -/
def Host.make (s : Host P) (p : P) (path : CStr) : Host P :=
  { s with
    path := Function.update s.path path (some s.files)
    files := s.files + 1
    maker := Function.update s.maker s.files (some (p, path)) }

def Host.append (s : Host P) (fd : Fd) (data : List UInt8) : Host P :=
  { s with text := Function.update s.text fd (s.text fd ++ data) }

def Host.fork (s : Host P) (p : P) (pid : Nat) : Host P :=
  { s.setHolder pid (some ⟨.init p, false⟩) with child := Function.update s.child p (some pid) }

/-- The call itself. -/
def Host.answer (s : Host P) (p : P) (c : Turn) : (k : ProcCall) → k.Ret × Host P
  | .access path =>
      (if c.fails then some .other else if (s.path path).isSome then none else some .enoent, s)
  | .isdir _ | .mkdir _ | .flock _ | .setns _ _ => (!c.fails, s)
  | .openRead path => (if c.fails then none else s.path path, s)
  | .create path =>
      if c.fails ∨ (s.path path).isSome then (none, s) else (some s.files, s.make p path)
  | .read fd n => (if c.fails then none else some ((s.text fd).take n), s)
  | .dprintf fd pid => if c.fails then (false, s) else (true, s.append fd (intStr pid))
  | .unlock _ | .close _ | .nanosleep => ((), s)
  | .unlink path => ((), { s with path := Function.update s.path path none })
  | .kill pid sig => s.reach p (.kill pid sig) pid c.fails KillAnswer.esrch .other fun _ => .ok
  | .readPidStat pid =>
      s.reach p (.readPidStat pid) pid c.fails none none fun e =>
        some (intStr pid ++ lit " (" ++ c.text ++ lit ") " ++ (if e.zombie then lit "Z" else lit "S"))
  | .chdirRoot pid => s.reach p (.chdirRoot pid) pid c.fails false false fun _ => true
  | .readPidEnviron pid =>
      s.reach p (.readPidEnviron pid) pid c.fails none none fun _ => some c.text
  | .openNs pid ns => s.reach p (.openNs pid ns) pid c.fails none none fun _ => some c.pid
  | .waitpid pid =>
      match s.holder pid with
      | some ⟨.init q, zombie⟩ =>
          if q ≠ p then (.echild, s) else if zombie then (.status 0, s.reap pid) else (.eintr, s)
      | _ => (.echild, s)
  | .doSetup =>
      if c.fails ∨ ¬ IsPid c.pid ∨ s.holder c.pid ≠ none then (none, s)
      else (some c.pid, s.fork p c.pid)

def hostAnswer (p : P) (c : Turn) (k : ProcCall) (s : Host P) : k.Ret × Host P :=
  (s.moves c.moves).answer p c k

/-- What a process was started for: `cage -k`, or a run. -/
inductive Task where
  | kill (name pidfile : Option CStr)
  | run (graphical : Bool) (name pidfile : Option CStr)

def Task.path : Task → CStr
  | .kill name pidfile | .run _ name pidfile => resolvePidfile name pidfile

def Task.prog (fuel : Nat) : Task → ProcM (Option Int)
  | .kill name pidfile => killpid fuel name pidfile
  | .run graphical name pidfile => doSpawn fuel graphical name pidfile

abbrev HostWorld (P : Type) := World P ProcCall ProcCall.Ret (Option Int) (Host P)

/-- No cage process has done anything yet; others run as they like. -/
structure FreshHost (s : Host P) : Prop where
  path : ∀ a, s.path a = none
  maker : ∀ f, s.maker f = none
  text : ∀ f, s.text f = []
  holder : ∀ n e, s.holder n = some e → e.owner = .other
  child : ∀ p, s.child p = none
  reaped : ∀ p, s.reaped p = false
  uses : s.uses = []

structure FreshWorld (task : P → Task) (fuel : P → Nat) (w : HostWorld P) : Prop where
  shared : FreshHost w.shared
  prog : ∀ p, w.prog p = (task p).prog (fuel p)

/-- `q` has written the pid of its init child to a pidfile that it made at `path`. -/
def Recorded (s : Host P) (path : CStr) (q : P) (pid : Nat) : Prop :=
  s.child q = some pid ∧ ∃ fd, s.maker fd = some (q, path) ∧ s.text fd = intStr pid

/-- A signal, or a step of joining the process. Signal 0 and `/proc/pid/stat` only
ask whether it is there. -/
def ProcCall.acts : ProcCall → Bool
  | .kill _ sig => sig != 0
  | .chdirRoot _ | .readPidEnviron _ | .openNs _ _ => true
  | _ => false

/-- Whoever was signalled or joined by a pid from the pidfile at `path` is the init
child that was recorded there. -/
def ReachesInit (path : P → CStr) (s : Host P) : Prop :=
  ∀ u ∈ s.uses, u.call.acts = true → ∃ q, Recorded s (path u.by_) q u.pid ∧ u.owner = .init q

/-- Whoever was reached is that init child, or was given its pid after it was reaped. -/
def ReachesPid (path : P → CStr) (s : Host P) : Prop :=
  ∀ u ∈ s.uses, ∃ q, Recorded s (path u.by_) q u.pid ∧
    (u.owner = .init q ∨ s.reaped q = true)

end Cage.Core
