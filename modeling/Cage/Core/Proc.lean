import Cage.Lib.Program
import Cage.Util.Decimal
import Cage.Util.Io
import Cage.Util.Syscall

/-!
The pidfile and the process it names: `src/core/proc.c`, `spawn_cage` of
`src/core/cage.c` and `spawn_existing` of `src/core/reuse.c` as far as they use
them, each as the program of its system calls.

Memory that cannot be had ends the process, so the paths are always built. What
`io_exists` is asked of is not in its cache yet.
-/

namespace Cage.Core

open Lib.Program Util

/-- The answers to `kill`. -/
inductive KillAnswer where
  | ok
  | esrch
  | other
  deriving DecidableEq, Repr

inductive WaitAnswer where
  | status (st : Nat)
  | eintr
  | echild
  | other
  deriving DecidableEq, Repr

def sigkill : Nat := 9
def sigterm : Nat := 15

inductive ProcCall where
  | access (path : CStr)
  | isdir (path : CStr)
  | mkdir (path : CStr)
  /-- `open` with `O_RDONLY | O_CLOEXEC` -/
  | openRead (path : CStr)
  /-- `open` with `O_WRONLY | O_CREAT | O_EXCL | O_CLOEXEC` -/
  | create (path : CStr)
  | flock (fd : Fd)
  | read (fd : Fd) (n : Nat)
  /-- `dprintf` of a pid with `%d` -/
  | dprintf (fd : Fd) (pid : Nat)
  /-- `flock` with `LOCK_UN` -/
  | unlock (fd : Fd)
  | close (fd : Fd)
  | unlink (path : CStr)
  | kill (pid sig : Nat)
  | nanosleep
  | waitpid (pid : Nat)
  /-- `read_pid_stat`: the whole of `/proc/pid/stat` -/
  | readPidStat (pid : Nat)
  /-- `do_setup`, which ends with the fork of the init child -/
  | doSetup
  /-- `chdir` to `/proc/pid/root` -/
  | chdirRoot (pid : Nat)
  /-- `env_read_pid_environ` -/
  | readPidEnviron (pid : Nat)
  /-- `open` of `/proc/pid/ns/ns`, then `setns` -/
  | openNs (pid : Nat) (ns : CStr)
  | setns (fd : Fd) (ns : CStr)

abbrev ProcCall.Ret : ProcCall → Type
  | .access _ => Option Errno
  | .isdir _ | .mkdir _ | .flock _ | .dprintf _ _ | .chdirRoot _ | .setns _ _ => Bool
  | .openRead _ | .create _ | .openNs _ _ => Option Fd
  | .read _ _ | .readPidStat _ | .readPidEnviron _ => Option (List UInt8)
  | .unlock _ | .close _ | .unlink _ | .nanosleep => Unit
  | .kill _ _ => KillAnswer
  | .waitpid _ => WaitAnswer
  | .doSetup => Option Nat

abbrev ProcM (A : Type) := Prog ProcCall ProcCall.Ret A

def ProcM.sys (k : ProcCall) : ProcM k.Ret := perform k

def pidDir : CStr := lit "/run/cage"

def computePidfile : Option CStr → CStr
  | none => pidDir ++ lit "/pid"
  | some name => pidDir ++ lit "/" ++ name ++ lit ".pid"

def resolvePidfile (name pidfile : Option CStr) : CStr :=
  match pidfile with
  | some path => path
  | none => computePidfile name

def ioExistsOnce (path : CStr) : ProcM Int := do
  let r ← ProcM.sys (.access path)
  pure (accessResult r)

def ensureDir (dir : CStr) : ProcM Int := do
  let e ← ioExistsOnce dir
  if e = 1 then do
    let ok ← ProcM.sys (.mkdir dir)
    pure (if ok then 0 else -1)
  else if e ≠ 0 then pure (-1)
  else do
    let ok ← ProcM.sys (.isdir dir)
    pure (if ok then 0 else -1)

def openAndLock (path : CStr) : ProcM (Option Fd) := do
  let fd ← ProcM.sys (.create path)
  match fd with
  | none => pure none
  | some fd => do
      let ok ← ProcM.sys (.flock fd)
      if !ok then do
        ProcM.sys (.close fd)
        pure none
      else pure (some fd)

def createPidfile (path : CStr) : ProcM (Option Fd) :=
  match beforeLastSlash path with
  | none => openAndLock path
  | some dlen =>
      if dlen ≥ 4096 then pure none
      else do
        let r ← ensureDir (path.take dlen)
        if r ≠ 0 then pure none else openAndLock path

/-- What overflows `long` is too large for a pid as well, so `errno` says
nothing new. -/
def parsePid (buf : CStr) : Option Nat :=
  let r := strtol buf
  if r.2 = buf ∨ r.2 ≠ [] then none
  else if r.1 ≤ 0 ∨ r.1 > 2147483647 then none
  else some r.1.toNat

/-- The pid, and the descriptor it was read from. -/
def readpid (path : CStr) : ProcM (Option (Nat × Fd)) := do
  let f ← ProcM.sys (.openRead path)
  match f with
  | none => pure none
  | some f => do
      let ok ← ProcM.sys (.flock f)
      if !ok then do
        ProcM.sys (.close f)
        pure none
      else do
        let buf ← ProcM.sys (.read f 63)
        match buf with
        | none => do
            ProcM.sys (.close f)
            pure none
        | some buf =>
            match parsePid (cstring buf) with
            | none => do
                ProcM.sys (.close f)
                pure none
            | some pid => pure (some (pid, f))

def closePid (fd : Fd) : ProcM Unit := do
  ProcM.sys (.unlock fd)
  ProcM.sys (.close fd)

/-- `none` if `waitpid` was interrupted `fuel` times, and is asked again. -/
def pidwait : Nat → Nat → ProcM (Option Int)
  | 0, _ => pure none
  | fuel + 1, pid => do
      let r ← ProcM.sys (.waitpid pid)
      match r with
      | .status _ => pure (some 0)
      | .eintr => pidwait fuel pid
      | .echild => pure (some 0)
      | .other => pure (some (-1))

def pidexists (pid : Nat) : ProcM Int := do
  let r ← ProcM.sys (.kill pid 0)
  match r with
  | .ok => pure 0
  | .esrch => pure 1
  | .other => pure (-1)

/-- The polls of `waitpid_graceful`; `none` if the process exists after the last. -/
def pollExit (pid : Nat) : Nat → ProcM (Option Int)
  | 0 => pure none
  | polls + 1 => do
      let ret ← pidexists pid
      if ret = 1 then pure (some 0)
      else if ret < 0 then pure (some (-1))
      else do
        ProcM.sys .nanosleep
        pollExit pid polls

def waitpidGraceful (fuel pid : Nat) : ProcM (Option Int) := do
  let ret ← pollExit pid 50
  match ret with
  | some ret => pure (some ret)
  | none => do
      let r ← ProcM.sys (.kill pid sigkill)
      match r with
      | .esrch => pure (some 0)
      | .other => pure (some (-1))
      | .ok => pidwait fuel pid

def killGracefully (fuel pid : Nat) : ProcM (Option Int) := do
  let r ← ProcM.sys (.kill pid sigterm)
  match r with
  | .esrch => pure (some 0)
  | .other => pure (some (-1))
  | .ok => waitpidGraceful fuel pid

/-- What `pid_zombie` makes of `/proc/pid/stat`: the letter behind the last `)`. -/
def statZombie (text : CStr) : Bool :=
  match strrchr text 41 with
  | some (_ :: 32 :: letter :: _) => letter == 90
  | _ => true

def pidZombie (pid : Nat) : ProcM Bool := do
  let r ← ProcM.sys (.readPidStat pid)
  match r with
  | none => pure true
  | some text => pure (statZombie (cstring text))

def pidJoinable (pid : Nat) : ProcM Bool := do
  let e ← pidexists pid
  if e ≠ 0 then pure false
  else do
    let z ← pidZombie pid
    pure (!z)

def stopTarget (fuel pid : Nat) : ProcM (Option Int) := do
  let z ← pidZombie pid
  if z then pure (some 0) else killGracefully fuel pid

def killPidfile (fuel : Nat) (pidfile : CStr) : ProcM (Option Int) := do
  let pid ← readpid pidfile
  match pid with
  | none => pure (some (-1))
  | some (pid, fd) => do
      closePid fd
      let r ← stopTarget fuel pid
      match r with
      | none => pure none
      | some r => do
          ProcM.sys (.unlink pidfile)
          pure (some r)

def killpid (fuel : Nat) (name pidfile : Option CStr) : ProcM (Option Int) := do
  let path := resolvePidfile name pidfile
  let r ← ioExistsOnce path
  if r = 1 then pure (some 0)
  else if r = 0 then killPidfile fuel path
  else pure (some (-1))

/-- The pid to join, 0 if there is none, or -1. -/
def detectExisting (name pidfile : Option CStr) : ProcM Int := do
  let path := resolvePidfile name pidfile
  let e ← ioExistsOnce path
  if e ≠ 0 then pure (if e ≠ 1 then -1 else 0)
  else do
    let pid ← readpid path
    match pid with
    | some (pid, fd) => do
        closePid fd
        let joinable ← pidJoinable pid
        if joinable then pure pid
        else do
          ProcM.sys (.unlink path)
          pure 0
    | none => do
        ProcM.sys (.unlink path)
        pure 0

def joinNs (target : Nat) (ns : CStr) : ProcM Int := do
  let fd ← ProcM.sys (.openNs target ns)
  match fd with
  | none => pure (-1)
  | some fd => do
      let ok ← ProcM.sys (.setns fd ns)
      ProcM.sys (.close fd)
      pure (if ok then 0 else -1)

def joinAll (target : Nat) : List CStr → ProcM Int
  | [] => pure 0
  | ns :: rest => do
      let r ← joinNs target ns
      if r ≠ 0 then pure (-1) else joinAll target rest

def joinNamespaces (target : Nat) : ProcM Int :=
  joinAll target [lit "pid", lit "cgroup", lit "net", lit "mnt"]

/-- `spawn_existing` up to its own fork; what follows does not use the pid. -/
def spawnExisting (graphical : Bool) (oldPid : Nat) : ProcM Int := do
  let ok ← ProcM.sys (.chdirRoot oldPid)
  if !ok then pure (-1)
  else do
    let _ ← if graphical then ProcM.sys (.readPidEnviron oldPid) else pure none
    joinNamespaces oldPid

/-- `spawn_cage`, with `do_setup` as one step. What the parent does for the
network of its child stands between the write of the pid and the wait. -/
def spawnCage (fuel : Nat) (path : CStr) : ProcM (Option Int) := do
  let fd ← createPidfile path
  match fd with
  | none => pure (some (-1))
  | some fd => do
      let child ← ProcM.sys .doSetup
      match child with
      | none => do
          closePid fd
          ProcM.sys (.unlink path)
          pure (some (-1))
      | some child => do
          let _ ← ProcM.sys (.dprintf fd child)
          closePid fd
          let r ← pidwait fuel child
          match r with
          | none => pure none
          | some r => do
              ProcM.sys (.unlink path)
              pure (some r)

def doSpawn (fuel : Nat) (graphical : Bool) (name pidfile : Option CStr) : ProcM (Option Int) := do
  let existing ← detectExisting name pidfile
  if existing < 0 then pure (some 1)
  else if existing > 0 then do
    let r ← spawnExisting graphical existing.toNat
    pure (some (if r < 0 then 1 else r))
  else do
    let r ← spawnCage fuel (resolvePidfile name pidfile)
    pure (r.map fun r => if r < 0 then 1 else r)

/-- A `pid_t` that names a process. -/
def IsPid (n : Nat) : Prop := 0 < n ∧ n ≤ 2147483647

instance (n : Nat) : Decidable (IsPid n) := inferInstanceAs (Decidable (_ ∧ _))

theorem zero_notin_intStr (n : Nat) : 0 ∉ intStr n :=
  fun h => absurd (isDigit_of_mem_intStr h) (by decide)

theorem length_intStr_le {n : Nat} (h : IsPid n) : (intStr n).length ≤ 10 := by
  rw [intStr_nat, List.length_map]
  refine (Nat.length_toDigits_le_iff (by decide) (by decide)).mpr ?_
  exact Nat.lt_of_le_of_lt h.2 (by decide)

/-- A pid is read back from the file it was written to. -/
theorem parsePid_intStr {n : Nat} (h : IsPid n) : parsePid (intStr n) = some n := by
  have hlong : n < 2 ^ 63 := Nat.lt_of_le_of_lt h.2 (by decide)
  unfold parsePid
  rw [strtol_intStr hlong]
  dsimp only
  rw [if_neg, if_neg, Int.toNat_natCast]
  · have := h.1
    have := h.2
    omega
  · simp [Ne.symm (intStr_ne_nil n)]

end Cage.Core
