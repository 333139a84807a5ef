import Cage.Sandbox.Appdir
import Cage.Sandbox.Overlay

/-!
`prepare_overlay` of `src/sandbox/overlay.c`. The numbers that `Errno` tells apart are
not those the mount is repeated for, so `missing` says which of them stand for `ENODEV`;
`modprobe` is `modprobe_load` for the overlay module.
-/

namespace Cage.Sandbox

open Lib.Program Util

/-- The kernel's name for the overlay file system. -/
def overlay : CStr := lit "overlay"

variable (missing : Errno → Bool) (modprobe : Steps Int) (root : CStr)

def tryMountOverlay (opts : CStr) : Steps Int := do
  let r ← Steps.sys (.mount overlay root overlay opts)
  match r with
  | none => pure 0
  | some e =>
      if missing e = false then pure (-1)
      else do
        let rc ← modprobe
        if rc ≠ 0 then pure (-1)
        else do
          let r ← Steps.sys (.mount overlay root overlay opts)
          match r with
          | none => pure 0
          | some _ => pure (-1)

/-- `overlay_mount_result`; the file system of the upper directory only decides the
message. -/
def overlayMountResult (r : Int) (upper : CStr) : Steps Int :=
  if r = 0 then pure 0
  else do
    let _ ← Steps.sys (.statfs upper)
    pure (-1)

/-- What stands above the upper directory is made if that is possible. -/
def createUpperParent (upper : CStr) : Steps Unit :=
  match beforeLastSlash upper with
  | none => pure ()
  | some len => do
      let _ ← Steps.ioMkdir (upper.take len)
      pure ()

/-- The part of `prepare_overlay` for directories that are not known to be there. -/
def createOverlayDirs (dirs : Dirs) : Steps Int := do
  createUpperParent dirs.upperdir
  let r ← Steps.ioMkdir dirs.upperdir
  if r ≠ 0 then pure (-1)
  else do
    let r ← Steps.ioMkdir dirs.workdir
    pure (if r ≠ 0 then -1 else 0)

def prepareOverlay (dirs : Dirs) : Steps Int := do
  let made ← if dirs.dirsCreated then pure 0 else createOverlayDirs dirs
  if made ≠ 0 then pure (-1)
  else do
    let r ← tryMountOverlay missing modprobe root
      (overlayText dirs.lowerdir dirs.upperdir dirs.workdir)
    overlayMountResult r dirs.upperdir

/-- `early_setup_appdir` and `prepare_overlay`, without what `do_root_prep` does in
between with cgroups, the new root and the namespaces. -/
def setupOverlay (pid : Nat) (cfg : Cfg) : Steps Int := do
  let dirs ← earlySetupAppdir pid cfg
  match dirs with
  | none => pure (-1)
  | some dirs => prepareOverlay missing modprobe root dirs

end Cage.Sandbox
