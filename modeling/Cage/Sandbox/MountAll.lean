import Cage.Lib.Program
import Cage.Sandbox.GuiMounts
import Cage.Sandbox.Resolv
import Cage.Sandbox.Vol

/-!
What is mounted in the root of a cage: `mount_all` of `src/sandbox/mount.c`, with
`src/sandbox/cg_mount.c`, the rest of `src/sandbox/setup.c` and `mount_user_volume` of
`src/sandbox/vol.c`. The functions of `io.c` are one call each; memory that cannot be had
ends the process.
-/

namespace Cage.Sandbox.MountAll

open Lib.Program Util

/-- The arguments of `mount`. -/
structure Mount where
  src : Option CStr
  target : CStr
  fstype : Option CStr
  flags : Nat
  data : Option CStr
  deriving DecidableEq, Repr

/-- What `lstat` says of a path. -/
inductive Seen where
  | missing
  | failed
  | found (regular : Bool) (size : Nat)
  deriving DecidableEq, Repr

inductive MountCall where
  | ioExists (path : CStr)
  | ioIsdir (path : CStr)
  | ioIslink (path : CStr)
  | ioMkdir (path : CStr)
  | ioMkdirOwn (path : CStr) (uid gid : UInt32) (mode : Nat)
  | ioMkdtmp (path : CStr) (sticky : Bool)
  | ioTouch (path : CStr)
  | ioUnlink (path : CStr)
  | ioSymlink (target path : CStr)
  | mount (m : Mount)
  | stat (path : CStr)
  | lstat (path : CStr)
  | ioReadCap (path : CStr) (cap : Nat)
  | realpath (path : CStr)
  /-- with the name of the file that is made -/
  | mkstemp (template : CStr)
  | fchmod (path : CStr) (mode : Nat)
  | write (path data : CStr)
  | close (path : CStr)
  | unlink (path : CStr)
  | readProcCgroups

abbrev MountCall.Ret : MountCall → Type
  | .lstat _ => Seen
  | .ioReadCap _ _ | .realpath _ | .mkstemp _ => Option CStr
  | .stat _ | .fchmod _ _ | .write _ _ | .close _ => Bool
  | .unlink _ => Unit
  | .readProcCgroups => Option (List CStr)
  | _ => Int

abbrev MntM (A : Type) := Prog MountCall MountCall.Ret A

def MntM.sys (k : MountCall) : MntM k.Ret := Lib.Program.perform k

def msNosuid : Nat := 2
def msNodev : Nat := 4
def msNoexec : Nat := 8
def msNoatime : Nat := 1024
def msBind : Nat := 4096
def msRec : Nat := 16384
def msPrivate : Nat := 262144

/-- What `mount_all` reads of the configuration. -/
structure MountCfg where
  unshareNet : Bool
  volumes : List Vol
  deriving DecidableEq, Repr

/-- `ensure_dir` of `mount.c` -/
def ensureDir (path : CStr) : MntM Int :=
  ensureDirBy (MntM.sys (.ioExists path)) (MntM.sys (.ioMkdir path)) (MntM.sys (.ioIsdir path))

def mountOn (p : CStr) (m : Mount) : MntM Int := mountBy (ensureDir p) (MntM.sys (.mount m))

def bindOf (root sub src : CStr) : Mount :=
  ⟨some src, memPath root sub, none, msBind ||| msRec, none⟩

def mountBind (root sub src : CStr) : MntM Int := mountOn (memPath root sub) (bindOf root sub src)

def fsOf (root sub type : CStr) (flags : Nat) (data : Option CStr) : Mount :=
  ⟨some type, memPath root sub, some type, flags, data⟩

def mountFsType (root sub type : CStr) (flags : Nat) (data : Option CStr) : MntM Int :=
  mountOn (memPath root sub) (fsOf root sub type flags data)

def mountDev (root : CStr) : MntM Int := mountBind root (lit "dev") (lit "/dev")

def mountVirtualFses (root : CStr) : MntM Int := do
  let f := msNosuid ||| msNoexec ||| msNodev
  let r ← mountFsType root (lit "proc") (lit "proc") f none
  if r ≠ 0 then pure (-1) else mountFsType root (lit "sys") (lit "sysfs") f none

def mountTmpfses (root : CStr) : MntM Int := do
  let nd := msNosuid ||| msNodev ||| msNoatime
  let ne := msNosuid ||| msNoexec
  let r ← mountFsType root (lit "run") (lit "tmpfs") ne (some (lit "mode=0755"))
  if r ≠ 0 then pure (-1)
  else do
    let r ← mountFsType root (lit "tmp") (lit "tmpfs") nd none
    if r ≠ 0 then pure (-1) else mountFsType root (lit "var/tmp") (lit "tmpfs") nd none

section Cgroups

def cgroupFlags : Nat := msNosuid ||| msNoexec ||| msNodev

def cgroupDir (root : CStr) : CStr := memPath root (lit "sys/fs/cgroup")

def cgroup2Of (root : CStr) : Mount :=
  ⟨some (lit "cgroup2"), cgroupDir root, some (lit "cgroup2"), cgroupFlags, some (lit "nsdelegate")⟩

/-- `mount_cgroup_v2`; its `ensure_dir` is one of `cg_mount.c`. -/
def mountCgroupV2 (root : CStr) : MntM Int := do
  let cg := cgroupDir root
  let e ← MntM.sys (.ioExists cg)
  if e < 0 then pure (-1)
  else do
    let d ← if e = 1 then MntM.sys (.ioMkdir cg) else pure 0
    if d ≠ 0 then pure (-1)
    else do
      let r ← MntM.sys (.mount (cgroup2Of root))
      if r ≠ 0 then pure (-1) else pure 0

def mountMade (p : CStr) (m : Mount) : MntM Int := do
  let r ← MntM.sys (.ioMkdir p)
  if r ≠ 0 then pure (-1)
  else do
    let r ← MntM.sys (.mount m)
    if r ≠ 0 then pure (-1) else pure 0

def cgroupTmpfsOf (root : CStr) : Mount :=
  ⟨some (lit "tmpfs"), cgroupDir root, some (lit "tmpfs"), cgroupFlags, none⟩

def mountCgroupTmpfs (root : CStr) : MntM Int := mountMade (cgroupDir root) (cgroupTmpfsOf root)

def cgroup1Of (root ctrl : CStr) : Mount :=
  ⟨some (lit "cgroup"), memPath (cgroupDir root) ctrl, some (lit "cgroup"), cgroupFlags, some ctrl⟩

/-- `mount_one_cgroup_v1` -/
def mountOneCgroupV1 (root ctrl : CStr) : MntM Int :=
  mountMade (memPath (cgroupDir root) ctrl) (cgroup1Of root ctrl)

def mountControllers (root : CStr) : List CStr → MntM Int
  | [] => pure 0
  | ctrl :: ctrls => do
      let r ← mountOneCgroupV1 root ctrl
      if r ≠ 0 then pure (-1) else mountControllers root ctrls

def mountCgroupV1 (root : CStr) : MntM Int := do
  let r ← mountCgroupTmpfs root
  if r ≠ 0 then pure (-1)
  else do
    let ctrls ← MntM.sys .readProcCgroups
    match ctrls with
    | none => pure (-1)
    | some ctrls => mountControllers root ctrls

def mountCgroups (root : CStr) (hasCgroup : Int) : MntM Int :=
  if hasCgroup = -2 then pure 0
  else if hasCgroup ≥ 2 then mountCgroupV2 root
  else if hasCgroup = 1 then mountCgroupV1 root
  else pure (-1)

end Cgroups

section Resolv

def hostResolv : CStr := lit "/etc/resolv.conf"

/-- `RESOLV_MAX` -/
def resolvMax : Nat := 64 * 1024

/-- `has_real_ns_in_content` of what a buffer holds. -/
def hasRealNs (data : CStr) : Bool := hasRealNsInContent (some (cstring data)) = some 1

def needsDefaultDns : MntM Bool := do
  let b ← MntM.sys (.ioReadCap hostResolv resolvMax)
  pure ((b.map fun data => !hasRealNs data).getD true)

def defaultDns : CStr := lit "nameserver 8.8.8.8\nnameserver 1.1.1.1\n"

def resolvOf (src target : CStr) : Mount := ⟨some src, target, none, msBind, none⟩

def dnsTemplate : CStr := lit "/tmp/cage-dns-XXXXXX"

/-- `setup_resolv_file_bind` -/
def setupResolvFileBind (target : CStr) : MntM Int := do
  let tmp ← MntM.sys (.mkstemp dnsTemplate)
  match tmp with
  | none => pure (-1)
  | some tmp => do
      let mode ← MntM.sys (.fchmod tmp 0o644)
      let written ← if mode then MntM.sys (.write tmp defaultDns) else pure false
      let closed ← MntM.sys (.close tmp)
      let bound ← if written && closed then MntM.sys (.mount (resolvOf tmp target)) else pure (-1)
      MntM.sys (.unlink tmp)
      if bound ≠ 0 then pure (-1) else pure 0

def setupResolvBind (path : CStr) : MntM Int := do
  let src ← MntM.sys (.realpath hostResolv)
  match src with
  | none => pure (-1)
  | some src => do
      let r ← MntM.sys (.ioTouch path)
      if r ≠ 0 then pure (-1)
      else do
        let r ← MntM.sys (.mount (resolvOf src path))
        if r ≠ 0 then pure (-1) else pure 0

def handleNonregResolv (resolv : CStr) : MntM Int := do
  let r ← MntM.sys (.ioUnlink resolv)
  if r ≠ 0 then pure (-1)
  else do
    let r ← MntM.sys (.ioTouch resolv)
    if r ≠ 0 then pure (-1) else pure 1

/-- `resolv_has_content` -/
def resolvHasContent (resolv : CStr) : MntM Int := do
  let b ← MntM.sys (.ioReadCap resolv resolvMax)
  pure ((b.map fun data => if hasRealNs data then 1 else 0).getD (-1))

def resolvExistingRegular (resolv : CStr) (size : Nat) (cfg : MountCfg) : MntM Int := do
  if size = 0 then pure 1
  else if !cfg.unshareNet then pure 0
  else do
    let has ← resolvHasContent resolv
    if has < 0 then pure (-1)
    else if has > 0 then pure 0
    else pure 1

/-- The path before the last slash. -/
def parentOf (path : CStr) : Option CStr := (beforeLastSlash path).map path.take

def createResolvFile (resolv : CStr) : MntM Int := do
  let made ← match parentOf resolv with
    | none => pure 0
    | some p => do
        let e ← MntM.sys (.ioExists p)
        if e = 1 then MntM.sys (.ioMkdir p) else pure 0
  if made ≠ 0 then pure (-1)
  else do
    let r ← MntM.sys (.ioTouch resolv)
    if r ≠ 0 then pure (-1) else pure 1

def checkOrCreateResolv (resolv : CStr) (cfg : MountCfg) : MntM Int := do
  let st ← MntM.sys (.lstat resolv)
  match st with
  | .missing => createResolvFile resolv
  | .failed => pure (-1)
  | .found false _ => handleNonregResolv resolv
  | .found true size => resolvExistingRegular resolv size cfg

def doResolvReplace (resolv : CStr) (cfg : MountCfg) : MntM Int := do
  let default ← if cfg.unshareNet then needsDefaultDns else pure false
  if default then setupResolvFileBind resolv else setupResolvBind resolv

def resolvPath (root : CStr) : CStr := memPath root (lit "etc/resolv.conf")

def setupResolv (root : CStr) (cfg : MountCfg) : MntM Int := do
  let r ← checkOrCreateResolv (resolvPath root) cfg
  if r < 0 then pure (-1)
  else if r = 0 then pure 0
  else doResolvReplace (resolvPath root) cfg

end Resolv

section Misc

def setupRunDirs (root : CStr) : MntM Int := do
  let r ← MntM.sys (.ioMkdtmp (memPath root (lit "run/lock")) true)
  if r ≠ 0 then pure (-1) else MntM.sys (.ioMkdtmp (memPath root (lit "run/user")) false)

def shmOf (root : CStr) : Mount :=
  ⟨some (lit "tmpfs"), memPath root (lit "dev/shm"), some (lit "tmpfs"), 0, none⟩

def setupDevshmSymlink (root : CStr) : MntM Int := do
  let r ← MntM.sys (.ioSymlink (lit "/dev/shm") (memPath root (lit "run/shm")))
  if r ≠ 0 then pure (-1) else mountMade (memPath root (lit "dev/shm")) (shmOf root)

def setupDevshmDir (root : CStr) : MntM Int := do
  let r ← MntM.sys (.ioMkdtmp (memPath root (lit "run/shm")) true)
  if r ≠ 0 then pure (-1) else pure 0

def setupDevshm (root : CStr) : MntM Int := do
  let r ← MntM.sys (.ioIslink (lit "/dev/shm"))
  if r < 0 then pure (-1)
  else if r = 0 then setupDevshmDir root
  else setupDevshmSymlink root

def mountMisc (root : CStr) (cfg : MountCfg) : MntM Int := do
  let r ← setupResolv root cfg
  if r ≠ 0 then pure (-1)
  else do
    let r ← setupRunDirs root
    if r ≠ 0 then pure (-1)
    else do
      let r ← setupDevshm root
      if r ≠ 0 then pure (-1) else pure 0

end Misc

section Volumes

def ensureHost (path : CStr) : MntM Int := do
  let there ← MntM.sys (.stat path)
  if there then pure 0 else MntM.sys (.ioMkdirOwn path 0 0 0o755)

/-- `create_guest_file`; a path whose last slash is its first has no parent to make. -/
def createGuestFile (guest : CStr) : MntM Int := do
  let made ← match beforeLastSlash guest with
    | none | some 0 => pure 0
    | some n => MntM.sys (.ioMkdirOwn (guest.take n) 0 0 0o755)
  if made ≠ 0 then pure (-1) else MntM.sys (.ioTouch guest)

def createGuest (guest : CStr) (dir : Int) : MntM Int :=
  if dir = 0 then MntM.sys (.ioMkdir guest)
  else if dir = 1 then createGuestFile guest
  else pure (-1)

def volumeOf (src dst : CStr) : Mount := ⟨some src, dst, none, msBind ||| msRec, none⟩

def privateOf (dst : CStr) : Mount := ⟨none, dst, none, msPrivate, none⟩

def mountBindPrivate (src dst : CStr) : MntM Int := do
  let r ← MntM.sys (.mount (volumeOf src dst))
  if r ≠ 0 then pure (-1)
  else do
    let r ← MntM.sys (.mount (privateOf dst))
    if r ≠ 0 then pure (-1) else pure 0

def mountUserVolume (v : Vol) (root : CStr) : MntM Int := do
  let guest := memPath root v.target
  let r ← ensureHost v.host
  if r ≠ 0 then pure (-1)
  else do
    let dir ← MntM.sys (.ioIsdir v.host)
    let r ← createGuest guest dir
    if r ≠ 0 then pure (-1)
    else do
      let r ← mountBindPrivate v.host guest
      if r ≠ 0 then pure (-1) else pure 0

def mountVolumes (root : CStr) : List Vol → MntM Int
  | [] => pure 0
  | v :: vs => do
      let r ← mountUserVolume v root
      if r ≠ 0 then pure (-1) else mountVolumes root vs

end Volumes

def mountAll (root : CStr) (cfg : MountCfg) (hasCgroup : Int) : MntM Int := do
  let r ← mountVirtualFses root
  if r ≠ 0 then pure (-1)
  else do
    let r ← mountDev root
    if r ≠ 0 then pure (-1)
    else do
      let r ← mountTmpfses root
      if r ≠ 0 then pure (-1)
      else do
        let r ← mountCgroups root hasCgroup
        if r ≠ 0 then pure (-1)
        else do
          let r ← mountMisc root cfg
          if r ≠ 0 then pure (-1) else mountVolumes root cfg.volumes

end Cage.Sandbox.MountAll
