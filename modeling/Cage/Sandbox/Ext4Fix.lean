import Cage.Ext4.Create
import Cage.Util.MemPath

/-!
`src/sandbox/ext4fix.c`, with `io_loop` of `src/sandbox/loop.c`: where the upper
directory would be in conflict with the lower one, it moves to a file system of
its own in a loop-mounted image. `build_ext4_img` takes the process id.
-/

namespace Cage.Sandbox

open Lib.Program Util Ext4

/-- `appdir_t`. -/
structure Dirs where
  appdir : CStr
  upperdir : CStr
  workdir : CStr
  lowerdir : CStr
  dirsCreated : Bool
  deriving DecidableEq, Repr

/-- The directories of `cage_config_t`. -/
structure Cfg where
  appdir : Option CStr
  name : Option CStr
  upperdir : Option CStr
  workdir : Option CStr
  lowerdir : Option CStr
  deriving DecidableEq, Repr

/-- `OVERLAYFS_SUPER_MAGIC`. -/
def overlayfsSuperMagic : Nat := 0x794c7630

/-- `loop_t`. -/
structure Loop where
  loopdir : CStr
  loopImg : CStr
  loopAppdir : CStr
  deriving DecidableEq, Repr

/-- `resolve_existing_parent`, at most `n` times round its loop; every round
shortens the path. -/
def resolveExistingParent : Nat → CStr → Steps (Option CStr)
  | 0, path => pure (some path)
  | n + 1, path => do
      let r ← Steps.ioExists path
      if r < 0 then pure none
      else if r = 0 then pure (some path)
      else
        match beforeLastSlash path with
        | none => pure (some path)
        | some 0 => pure (some (path.take 1))
        | some len => resolveExistingParent n (path.take len)

/-- `stat_dev` without the device it can report. -/
def statDev (a b : CStr) : Steps Int := do
  let sa ← Steps.sys (.stat a)
  match sa with
  | .error _ => pure (-1)
  | .ok sa => do
      let sb ← Steps.sys (.stat b)
      match sb with
      | .error _ => pure (-1)
      | .ok sb => pure (if sa.dev = sb.dev then 1 else 0)

/-- The `dl` bytes of `dir` are a prefix of `path` that ends at a slash or at
the end. -/
def prefixEnds (path dir : CStr) (dl : Nat) : Bool :=
  path.take dl = dir.take dl && (path.length = dl || path[dl]? = some slash)

def isWithin (path dir : CStr) : Bool :=
  let dl := dir.length
  let dl := if dl > 0 ∧ dir.getLast? = some slash then dl - 1 else dl
  if dl = 0 then path.head? = some slash else prefixEnds path dir dl

def onOverlayfs (path : CStr) : Steps Bool := do
  let r ← Steps.sys (.statfs path)
  match r with
  | none => pure false
  | some f => pure (f = overlayfsSuperMagic)

/-- `needs_loopback`, with the device of the lower directory. -/
def needsLoopback (ap lowerdir : CStr) : Steps (Int × Nat) := do
  let ls ← Steps.sys (.stat lowerdir)
  match ls with
  | .error _ => pure (-1, 0)
  | .ok ls =>
      if isWithin ap lowerdir then do
        let r ← statDev lowerdir ap
        pure (r, ls.dev)
      else do
        let o ← onOverlayfs ap
        pure (if o then 1 else 0, ls.dev)

/-- What stands before the last slash, or all of it. -/
def cutLast (path : CStr) : CStr :=
  match beforeLastSlash path with
  | none => path
  | some len => path.take len

/-- `same_fs_detect`, with the device of the lower directory. -/
def sameFsDetect (lowerdir upperdir : CStr) : Steps (Int × Nat) := do
  let ap := cutLast upperdir
  let r ← resolveExistingParent (ap.length + 1) ap
  match r with
  | none => pure (-1, 0)
  | some ap => needsLoopback ap lowerdir

/-- The size of the path buffers. -/
def bufSize : Nat := 4096

def appdirParent (appdir : CStr) : Option CStr :=
  let parent :=
    match beforeLastSlash appdir with
    | none => appdir
    | some 0 => appdir
    | some len => appdir.take len
  if parent.length ≥ bufSize then none else some parent

def loopSuffix : CStr := lit "-loop"

def deriveLoopdir (appdir : CStr) : Option CStr := do
  let parent ← appdirParent appdir
  let sfx :=
    if parent.length ≥ loopSuffix.length ∧ parent.drop (parent.length - loopSuffix.length) = loopSuffix
    then [] else loopSuffix
  if (parent ++ sfx).length ≥ bufSize then none else some (parent ++ sfx)

def pathUnder (path dir : CStr) : Bool := prefixEnds path dir dir.length

def appdirLeaf (appdir : CStr) : CStr :=
  match beforeLastSlash appdir with
  | none => lit "default"
  | some len => appdir.drop (len + 1)

def loopBuild (base leaf : CStr) : Option Loop :=
  let loopImg := base ++ lit ".img"
  let loopAppdir := base ++ slash :: leaf
  if base.length ≥ bufSize ∨ loopImg.length ≥ bufSize ∨ loopAppdir.length ≥ bufSize then none
  else some { loopdir := base, loopImg := loopImg, loopAppdir := loopAppdir }

def loopFill (appdir : CStr) : Option Loop := do
  let loopdir ← deriveLoopdir appdir
  loopBuild loopdir (appdirLeaf appdir)

def mkdirChecked (path : CStr) : Steps Int := do
  let r ← Steps.ioMkdir path
  pure (if r ≠ 0 then -1 else 0)

def setLoopAppdir (dirs : Dirs) (lp : Loop) (keepWork : Bool) : Option Dirs :=
  let appdir := lp.loopAppdir
  let upperdir := appdir ++ lit "/upper"
  let workdir := if keepWork then dirs.workdir else appdir ++ lit "/work"
  if appdir.length ≥ bufSize ∨ upperdir.length ≥ bufSize ∨ workdir.length ≥ bufSize then none
  else some { dirs with appdir := appdir, upperdir := upperdir, workdir := workdir }

def tmpName (img : CStr) (pid : Nat) : CStr := img ++ lit ".tmp." ++ intStr pid

def buildExt4Img (pid : Nat) (img : CStr) : Steps Int := do
  let tmp := tmpName img pid
  if tmp.length ≥ bufSize then pure (-1)
  else do
    let _ ← Steps.ioUnlinkQuiet tmp
    let rc ← ext4CreateImg tmp
    if rc ≠ 0 then do
      let _ ← Steps.ioUnlinkQuiet tmp
      pure (-1)
    else do
      let r ← Steps.sys (.rename tmp img)
      match r with
      | some _ => do
          let _ ← Steps.ioUnlinkQuiet tmp
          pure (-1)
      | none => pure 0

def setupExt4Img (pid : Nat) (img : CStr) : Steps Int := do
  let e ← Steps.ioExists img
  if e < 0 then pure (-1)
  else if e = 0 then do
    let ok ← ext4ImageValid img
    if ok then pure 0 else buildExt4Img pid img
  else buildExt4Img pid img

/-- `require_real_dir`. The file type of `sys_isdir_nofollow` is that of `lstat`. -/
def requireRealDir (path : CStr) : Steps Int := do
  let st ← Steps.sys (.lstat path)
  match st with
  | .error _ => pure (-1)
  | .ok st => pure (if st.kind = .dir then 0 else -1)

def useProvisionedLoopback (dirs : Dirs) (lp : Loop) (rootDev : Nat) (keepWork : Bool) :
    Steps (Option Dirs) := do
  let st ← Steps.sys (.lstat lp.loopdir)
  match st with
  | .error _ => pure none
  | .ok st => do
      let r ← requireRealDir lp.loopdir
      if r ≠ 0 then pure none
      else if st.dev = rootDev then pure none
      else
        match setLoopAppdir dirs lp keepWork with
        | none => pure none
        | some dirs => pure (some { dirs with dirsCreated := true })

/-- `io_loop`, with the number of the device for its descriptor. -/
def ioLoop (file : CStr) : Steps (Option Nat) := do
  let id ← Steps.sys .loopFree
  match id with
  | none => pure none
  | some id => do
      let fd ← Steps.sys (.openRw file)
      match fd with
      | none => pure none
      | some fd => do
          let ok ← Steps.sys (.loopSet id fd)
          Steps.sys (.close fd)
          pure (if ok then some id else none)

def setupExt4Loopback (pid : Nat) (dirs : Dirs) (lp : Loop) (keepWork : Bool) :
    Steps (Option Dirs) := do
  let r ← setupExt4Img pid lp.loopImg
  if r ≠ 0 then pure none
  else do
    let id ← ioLoop lp.loopImg
    match id with
    | none => pure none
    | some id => do
        let r ← Steps.sys (.mountLoop id lp.loopdir)
        Steps.sys (.loopClose id)
        match r with
        | some _ => pure none
        | none =>
            match setLoopAppdir dirs lp keepWork with
            | none => pure none
            | some dirs => do
                let r ← mkdirChecked dirs.appdir
                pure (if r ≠ 0 then none else some dirs)

def ensureExt4Mounted (pid : Nat) (dirs : Dirs) (lp : Loop) (rootDev : Nat) (keepWork : Bool) :
    Steps (Option Dirs) := do
  let st ← Steps.sys (.lstat lp.loopdir)
  match st with
  | .ok st => do
      let r ← requireRealDir lp.loopdir
      if r ≠ 0 then pure none
      else if st.dev ≠ rootDev then pure (setLoopAppdir dirs lp keepWork)
      else setupExt4Loopback pid dirs lp keepWork
  | .error _ => do
      let r ← Steps.ioMkdir lp.loopdir
      if r ≠ 0 then pure none else setupExt4Loopback pid dirs lp keepWork

def loopDirsSet (dirs : Dirs) (cfg : Cfg) (lp : Loop) : Option Dirs :=
  let upperdir := lp.loopAppdir ++ lit "/upper"
  let outside : Bool :=
    match cfg.workdir with
    | none => false
    | some w => !pathUnder w lp.loopdir
  if outside = true ∨ upperdir.length ≥ bufSize then none else some { dirs with upperdir := upperdir }

/-- `handle_same_fs`: the directories if it returns 0. -/
def handleSameFs (pid : Nat) (cfg : Cfg) (dirs : Dirs) : Steps (Option Dirs) := do
  let (r, lowerDev) ← sameFsDetect dirs.lowerdir dirs.upperdir
  if r < 0 then pure none
  else if r = 0 then pure (some dirs)
  else if cfg.upperdir.isSome then pure none
  else
    match loopFill dirs.appdir with
    | none => pure none
    | some lp =>
        match loopDirsSet dirs cfg lp with
        | none => pure none
        | some dirs => do
            let e ← Steps.ioExists dirs.upperdir
            if e = 0 then useProvisionedLoopback dirs lp lowerDev cfg.workdir.isSome
            else ensureExt4Mounted pid dirs lp lowerDev cfg.workdir.isSome

end Cage.Sandbox
