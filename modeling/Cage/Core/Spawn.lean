import Cage.Core.Proc
import Cage.Util.MemPath

/-!
`spawn_cage` of `src/core/cage.c` with all that it acquires and gives back:
`src/core/prep.c`, `prepare_mounts` of `src/sandbox/nssetup.c`, the cgroup leaf of
`src/sandbox/cgroup_setup.c` and `src/sandbox/cgroup.c`. What the set-up of the app
directories, of the network and of the child does inside is one call each.

Memory that cannot be had ends the process. `st->user` is never set, so it is left out.
-/

namespace Cage.Core.Spawn

open Lib.Program Util

/-- An allocation. -/
abbrev Ptr := Nat

inductive MkdirAnswer where
  | ok
  | eexist
  | other
  deriving DecidableEq, Repr

inductive WriteAnswer where
  | ok
  | ebusy
  | other
  deriving DecidableEq, Repr

inductive MountAnswer where
  | ok
  | enodev
  | other
  deriving DecidableEq, Repr

inductive ExitStatus where
  | exited (code : UInt8)
  | signaled (sig : Nat)
  | other
  deriving DecidableEq, Repr

/-- What `io_read` leaves in a buffer: its contents, if all was read, and its memory. -/
structure ReadBuf where
  text : Option CStr
  data : Option Ptr
  deriving DecidableEq, Repr

inductive SpawnCall where
  | proc (k : ProcCall)
  | alloc
  | free (p : Ptr)
  | mmap
  | munmap (p : Ptr)
  | modprobeLoad (name : CStr)
  | netlinkOpen
  | allocVethId (fd : Fd) (pfx : CStr)
  | netlinkClose (fd : Fd)
  | enableIpForward
  | setupNat
  | enableIp6Forward
  | setupNat6
  | getpid
  /-- `early_setup_appdir` -/
  | setupAppdir
  | ioRead (path : CStr)
  /-- `open` with `O_WRONLY`, `write` and `close` -/
  | writeFile (path data : CStr)
  | writePid (path : CStr) (pid : Nat)
  /-- `unshare` with `CLONE_NEWNS` -/
  | unshareMounts
  | makePrivate
  | mountCgroup2
  /-- `mkdir` alone, where `io_mkdir` makes the parents too -/
  | mkdir (path : CStr)
  | mkdtemp (template : CStr)
  /-- `ns_setup` -/
  | unsharePids
  | fork
  | rmdir (path : CStr)
  | rmtree (path : CStr)
  | cgroupRmdir (path : CStr)
  /-- `do_parent_net` -/
  | parentNet (child id : Nat)
  /-- `wait_root_ready` -/
  | rootReady (child : Nat)
  | pidwait (child : Nat)

abbrev SpawnCall.Ret : SpawnCall → Type
  | .proc k => k.Ret
  | .alloc => Ptr
  | .mmap => Option Ptr
  | .netlinkOpen => Option Fd
  | .allocVethId _ _ | .fork => Option Nat
  | .getpid => Nat
  | .ioRead _ => ReadBuf
  | .writeFile _ _ => WriteAnswer
  | .mountCgroup2 => MountAnswer
  | .mkdir _ => MkdirAnswer
  /- the directory, or what a failure leaves of the template -/
  | .mkdtemp _ => Bool × CStr
  | .unshareMounts | .makePrivate | .unsharePids | .rmdir _ | .rootReady _ => Bool
  | .modprobeLoad _ | .enableIpForward | .setupNat | .setupAppdir | .writePid _ _ | .rmtree _
  | .cgroupRmdir _ => Int
  | .pidwait _ => Int × ExitStatus
  | .free _ | .munmap _ | .netlinkClose _ | .enableIp6Forward | .setupNat6 | .parentNet _ _ => Unit

/-- What `spawn_cage` reads of the configuration. -/
structure SpawnCfg where
  name : Option CStr
  pidfile : Option CStr
  unshareNet : Bool
  unshareCgroup : Bool
  deriving DecidableEq, Repr

/-- `struct spawn_st`. The root is its memory and the path in it. -/
structure SpawnSt where
  hostXdg : Option Ptr
  pidfile : CStr
  freePidfile : Option Ptr
  root : Option (Ptr × CStr)
  child : Option Nat
  pidfd : Option Fd
  netId : Option Nat
  cgFsType : Int
  rootPrivate : Bool
  cgPid : Nat
  netFutex : Option Ptr
  rootFutex : Option Ptr
  deriving DecidableEq, Repr

def SpawnSt.init : SpawnSt :=
  { hostXdg := none, pidfile := [], freePidfile := none, root := none, child := none,
    pidfd := none, netId := none, cgFsType := 0, rootPrivate := false, cgPid := 0,
    netFutex := none, rootFutex := none }

abbrev SpawnM (A : Type) := StateT SpawnSt (Prog SpawnCall SpawnCall.Ret) A

def SpawnM.sys (k : SpawnCall) : SpawnM k.Ret := StateT.lift (perform k)

def SpawnM.proc {A : Type} (m : ProcM A) : SpawnM A :=
  StateT.lift (m.within fun k => perform (SpawnCall.proc k))

def memFree : Option Ptr → SpawnM Unit
  | none => pure ()
  | some p => SpawnM.sys (.free p)

def freeFutex : Option Ptr → SpawnM Unit
  | none => pure ()
  | some p => SpawnM.sys (.munmap p)

section Cgroup

def cgroupRoot : CStr := lit "/sys/fs/cgroup"

/-- `cgdir`, which `make_cgroup_dir` and `cgroup_cleanup_at` both build. -/
def cgdir (pid : Nat) : CStr := cgroupRoot ++ lit "/cage-" ++ intStr pid

def cgroupGetType : SpawnM Int := do
  let b ← SpawnM.sys (.ioRead (lit "/proc/filesystems"))
  match b.text with
  | none => do
      memFree b.data
      pure (-1)
  | some text => do
      memFree b.data
      pure (if lit "cgroup2" <:+: cstring text then 2
        else if lit "\tcgroup" <:+: cstring text then 1
        else 0)

/-- `trim_trailing_newline` and `trim_newline` -/
def trimNewline (s : CStr) : CStr := if s.getLast? = some 10 then s.dropLast else s

/-- What `build_subtree_value` leaves in its buffer. Its loop is the function of that
name in `Sandbox`, and `Sandbox.buildSubtreeValue_spawn` says that the two agree. -/
def buildSubtreeValue (value : CStr) (cap : Nat) : Option CStr :=
  if value.length = 0 ∨ 2 * value.length + 2 > cap then none
  else some (43 :: value.flatMap fun c => if c = 32 then [32, 43] else [c])

def writeSubtree (cg val : CStr) : SpawnM Int := do
  let p ← SpawnM.sys .alloc
  let r ← SpawnM.sys (.writeFile (memPath cg (lit "cgroup.subtree_control")) val)
  SpawnM.sys (.free p)
  pure (if r = .ok then 0 else -1)

def enableCgroupControllers (cg : CStr) : SpawnM Int := do
  let p ← SpawnM.sys .alloc
  let b ← SpawnM.sys (.ioRead (memPath cg (lit "cgroup.controllers")))
  match b.text with
  | none => do
      SpawnM.sys (.free p)
      pure 0
  | some text => do
      SpawnM.sys (.free p)
      match buildSubtreeValue (trimNewline (cstring text)) 256 with
      | none => do
          memFree b.data
          pure 0
      | some val => do
          let r ← writeSubtree cg val
          memFree b.data
          pure r

/-- The attempts of `write_subtree_value`, with a pause after each but the last. -/
def trySubtree (sub val : CStr) : Nat → SpawnM Unit
  | 0 => pure ()
  | n + 1 => do
      let r ← SpawnM.sys (.writeFile sub val)
      if r = .ebusy ∧ n ≠ 0 then do
        SpawnM.sys (.proc .nanosleep)
        trySubtree sub val n
      else pure ()

def writeSubtreeValue (dir val : CStr) : SpawnM Unit := do
  let sub ← SpawnM.sys .alloc
  trySubtree (memPath dir (lit "cgroup.subtree_control")) val 4
  SpawnM.sys (.free sub)

def writeEnableControllers (dir : CStr) : SpawnM Int := do
  let ctrlPath ← SpawnM.sys .alloc
  let b ← SpawnM.sys (.ioRead (memPath dir (lit "cgroup.controllers")))
  match b.text with
  | none => do
      SpawnM.sys (.free ctrlPath)
      pure 0
  | some text => do
      SpawnM.sys (.free ctrlPath)
      match buildSubtreeValue (trimNewline (cstring text)) 256 with
      | none => do
          memFree b.data
          pure 0
      | some val => do
          writeSubtreeValue dir val
          memFree b.data
          pure 0

def checkCgroupMount : SpawnM Int := do
  let ctrl ← SpawnM.sys .alloc
  let e ← SpawnM.proc (ioExistsOnce (memPath cgroupRoot (lit "cgroup.controllers")))
  SpawnM.sys (.free ctrl)
  if e < 0 then pure (-1)
  else if e = 0 then pure 0
  else do
    let e ← SpawnM.proc (ioExistsOnce cgroupRoot)
    if e < 0 then pure (-1)
    else if e = 1 then pure (-1)
    else pure 1

def cgroupDetectMount : SpawnM Int := do
  let r ← checkCgroupMount
  if r ≠ 1 then pure r
  else do
    let ns ← SpawnM.sys .unshareMounts
    if !ns then pure (-1)
    else do
      let ok ← SpawnM.sys .makePrivate
      if !ok then pure (-1)
      else do
        modify fun st => { st with rootPrivate := true }
        let r ← SpawnM.sys .mountCgroup2
        pure (if r = .other then -1 else 0)

def makeCgroupDir (pid : Nat) : SpawnM Int :=
  if (cgdir pid).length ≥ pathMax then pure (-1)
  else do
    let r ← SpawnM.sys (.mkdir (cgdir pid))
    pure (if r = .other then -1 else 0)

def writeProcs (dir : CStr) (pid : Nat) : SpawnM Int := do
  let procs ← SpawnM.sys .alloc
  let r ← SpawnM.sys (.writePid (memPath dir (lit "cgroup.procs")) pid)
  SpawnM.sys (.free procs)
  pure r

def cgroupPreUnshare (fsType : Int) (pid : Nat) : SpawnM Int := do
  if fsType ≠ 2 then pure 0
  else do
    let r ← enableCgroupControllers cgroupRoot
    if r ≠ 0 then pure (-1)
    else do
      let r ← makeCgroupDir pid
      if r ≠ 0 then pure (-1)
      else do
        let r ← writeProcs (cgdir pid) pid
        if r ≠ 0 then pure (-1) else writeEnableControllers (cgdir pid)

def cgroupCleanup (pid : Nat) (fsType : Int) : SpawnM Unit :=
  if fsType ≠ 2 then pure ()
  else if (cgdir pid).length ≥ pathMax then pure ()
  else do
    let e ← SpawnM.proc (ioExistsOnce (cgdir pid))
    if e ≠ 0 then pure ()
    else do
      let _ ← SpawnM.sys (.writePid (cgroupRoot ++ lit "/cgroup.procs") pid)
      let _ ← SpawnM.sys (.cgroupRmdir (cgdir pid))
      pure ()

end Cgroup

section Prep

def unprepare (root : Ptr × CStr) : SpawnM Unit := do
  let _ ← SpawnM.sys (.rmtree root.2)
  SpawnM.sys (.free root.1)

/-- The directory, and the child; or what is left of the template. -/
def prepareMounts (template : CStr) : SpawnM (CStr × Option Nat) := do
  let r ← SpawnM.sys (.mkdtemp template)
  if !r.1 then pure (r.2, none)
  else do
    let ok ← SpawnM.sys .unsharePids
    if !ok then pure (r.2, none)
    else do
      let child ← SpawnM.sys .fork
      pure (r.2, child)

def earlyPrep (fsType : Int) (pid : Nat) : SpawnM Int := do
  let r ← SpawnM.sys .setupAppdir
  if r ≠ 0 then pure (-1)
  else if fsType ≠ 2 then pure 0
  else do
    let r ← cgroupDetectMount
    if r ≠ 0 then pure (-1)
    else do
      let r ← cgroupPreUnshare fsType pid
      pure (if r ≠ 0 then -1 else 0)

/-- `do_root_prep`: the root and the child in `struct prep_result`. -/
def doRootPrep (fsType : Int) (pid : Nat) : SpawnM (Option ((Ptr × CStr) × Nat)) := do
  let r ← earlyPrep fsType pid
  if r ≠ 0 then pure none
  else do
    let root ← SpawnM.sys .alloc
    let r ← prepareMounts (lit "/tmp/cage-XXXXXX")
    match r.2 with
    | none => do
        unprepare (root, r.1)
        pure none
    | some child => pure (some ((root, r.1), child))

end Prep

def setupNetLinks : SpawnM (Option Ptr) := do
  let nfd ← SpawnM.sys .netlinkOpen
  match nfd with
  | none => pure none
  | some nfd => do
      let id ← SpawnM.sys (.allocVethId nfd (lit "cage-veth"))
      SpawnM.sys (.netlinkClose nfd)
      match id with
      | none => pure none
      | some id => do
          modify fun st => { st with netId := some id }
          let r ← SpawnM.sys .enableIpForward
          if r < 0 then pure none
          else do
            let r ← SpawnM.sys .setupNat
            if r < 0 then pure none
            else do
              SpawnM.sys .enableIp6Forward
              SpawnM.sys .setupNat6
              SpawnM.sys .mmap

def setupNetOrFail (cfg : SpawnCfg) : SpawnM Int :=
  if !cfg.unshareNet then pure 0
  else do
    let r ← SpawnM.sys (.modprobeLoad (lit "veth"))
    if r ≠ 0 then pure (-1)
    else do
      let futex ← setupNetLinks
      modify fun st => { st with netFutex := futex }
      pure (if futex.isSome then 0 else -1)

def setupCgroup (cfg : SpawnCfg) : SpawnM Int :=
  if !cfg.unshareCgroup then pure 0
  else do
    let t ← cgroupGetType
    modify fun st => { st with cgFsType := t }
    if t < 0 then pure (-1)
    else do
      let pid ← SpawnM.sys .getpid
      modify fun st => { st with cgPid := pid }
      pure 0

def doSetupPrep : SpawnM Int := do
  let futex ← SpawnM.sys .mmap
  modify fun st => { st with rootFutex := futex }
  match futex with
  | none => pure (-1)
  | some _ => do
      let st ← get
      let pr ← doRootPrep st.cgFsType st.cgPid
      match pr with
      | none => pure (-1)
      | some (root, child) => do
          modify fun st => { st with root := some root, child := some child }
          pure 0

def doSetup (cfg : SpawnCfg) : SpawnM Int := do
  let r ← setupNetOrFail cfg
  if r < 0 then pure (-1)
  else do
    let r ← setupCgroup cfg
    if r < 0 then pure (-1) else doSetupPrep

def unlinkPidfile (path : CStr) : SpawnM Unit := SpawnM.sys (.proc (.unlink path))

def removeRoot : SpawnM Unit := do
  let st ← get
  match st.root with
  | none => pure ()
  | some root => do
      let ok ← SpawnM.sys (.rmdir root.2)
      let _ ← if ok then pure 0 else SpawnM.sys (.rmtree root.2)
      SpawnM.sys (.free root.1)
      modify fun st => { st with root := none }

def closePidfd : Option Fd → SpawnM Unit
  | none => pure ()
  | some fd => SpawnM.proc (closePid fd)

def spawnCleanup : SpawnM Unit := do
  let st ← get
  freeFutex st.netFutex
  freeFutex st.rootFutex
  closePidfd st.pidfd
  unlinkPidfile st.pidfile
  cgroupCleanup st.cgPid st.cgFsType
  removeRoot
  memFree st.freePidfile
  modify fun st => { st with freePidfile := none }
  memFree st.hostXdg
  modify fun st => { st with hostXdg := none }

/-- The path, and its memory if it was computed. -/
def doEarlySetup (cfg : SpawnCfg) : SpawnM (CStr × Option Ptr) :=
  match cfg.pidfile with
  | some path => pure (path, none)
  | none => do
      let p ← SpawnM.sys .alloc
      pure (computePidfile cfg.name, some p)

def spawnInit (cfg : SpawnCfg) : SpawnM Int := do
  modify fun _ => SpawnSt.init
  let pi ← doEarlySetup cfg
  modify fun st => { st with pidfile := pi.1, freePidfile := pi.2 }
  let fd ← SpawnM.proc (createPidfile pi.1)
  modify fun st => { st with pidfd := fd }
  match fd with
  | none => do
      memFree pi.2
      modify fun st => { st with freePidfile := none }
      pure (-1)
  | some _ => do
      let r ← doSetup cfg
      if r ≠ 0 then do
        spawnCleanup
        pure (-1)
      else pure 0

def exitCodeFromStatus : ExitStatus → Int
  | .exited code => code.toNat
  | .signaled sig => 128 + sig
  | .other => 1

def finishChild (child : Nat) : SpawnM Int := do
  let r ← SpawnM.sys (.pidwait child)
  let st ← get
  unlinkPidfile st.pidfile
  cgroupCleanup st.cgPid st.cgFsType
  removeRoot
  pure (if r.1 ≠ 0 then 1 else exitCodeFromStatus r.2)

/-- After `spawn_init` there are a descriptor and a child. -/
def spawnExec (fd : Fd) (child : Nat) : SpawnM Int := do
  let _ ← SpawnM.sys (.proc (.dprintf fd child))
  SpawnM.proc (closePid fd)
  modify fun st => { st with pidfd := none }
  let st ← get
  match st.netId with
  | none => pure ()
  | some id => SpawnM.sys (.parentNet child id)
  freeFutex st.netFutex
  let ready ← SpawnM.sys (.rootReady child)
  if ready then removeRoot else pure ()
  freeFutex st.rootFutex
  finishChild child

def spawnCage (cfg : SpawnCfg) : SpawnM Int := do
  let r ← spawnInit cfg
  let st ← get
  if r < 0 then do
    memFree st.freePidfile
    pure (-1)
  else do
    let r ← spawnExec (st.pidfd.getD 0) (st.child.getD 0)
    let st ← get
    memFree st.freePidfile
    memFree st.hostXdg
    pure r

end Cage.Core.Spawn
