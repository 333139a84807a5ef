import Cage.Util.MemPath

/-!
What the set-up of the GUI works on: the host it asks, the calls that change
the guest or the mounts, and the context of `src/sandbox/gui.h`. The set-up
changes nothing that it asks the host about; what a call on the guest returns
is up to the guest, and is read from a list of replies.
-/

namespace Cage.Sandbox

open Util

structure DirEntry where
  name : CStr
  isSock : Bool
  short : name.length ≤ nameMax

/-- The host: `getenv`, `io_exists` and `io_isdir` on its paths, `sys_access`,
and the directory `/tmp/.X11-unix`. -/
structure HostView where
  getenv : CStr → Option CStr
  «exists» : CStr → Int
  isdir : CStr → Int
  access : CStr → Bool
  x11Dir : Option (List DirEntry)

/-- The calls on paths of the guest, and those that mount. -/
inductive GuiCall where
  | «exists» (path : CStr)
  | isdir (path : CStr)
  | mkdir (path : CStr)
  | mkdirOwn (path : CStr) (uid gid : UInt32) (mode : Nat)
  | touch (path : CStr)
  | openRoot (path : CStr)
  | mkdirOwnAt (rel : CStr) (uid gid : UInt32) (mode : Nat)
  | mkdirParentsAt (rel : CStr) (uid gid : UInt32) (mode : Nat)
  | touchAt (rel : CStr) (uid gid : UInt32)
  | mount (src target : CStr)
  | aclGuestSet (path : CStr) (uid gid : UInt32) (groups : List UInt32)
  | aclSet (path : CStr) (uid gid : UInt32) (groups : List UInt32)
  deriving DecidableEq, Repr

/-- `struct gui_ctx` without the fields that the set-up changes. The root is the
directory that `mkdtemp` made in `/tmp`. -/
structure GuiCtx where
  root : Path
  uid : UInt32
  gid : UInt32
  groups : List UInt32
  hostWl : Option CStr
  hostPs : Option CStr
  hostPc : Option CStr
  hostXch : Option CStr
  hostXrd : Option CStr
  hostHome : Option CStr
  hostDisplay : Option CStr
  guestWl : Option CStr
  guestPs : Option CStr
  guestPc : Option CStr
  guestXrd : Option CStr
  guestXrdEnv : Bool
  guestXch : Option CStr
  guestDisplay : Option CStr

/-- The fields of `struct gui_ctx` that the set-up changes, the replies to come,
and the calls made with the reply to each. -/
structure Gui where
  xrdCreated : Bool
  guestHomeUsed : Bool
  guestX11num : Int
  replies : List Int
  log : List (GuiCall × Int)
  deriving DecidableEq, Repr

abbrev GuiM := StateM Gui

/-- A call, which returns the next reply, or 0 when there is none left. -/
def perform (c : GuiCall) : GuiM Int := fun g =>
  (g.replies.headD 0,
    { g with replies := g.replies.tail, log := g.log ++ [(c, g.replies.headD 0)] })

def setXrdCreated : GuiM Unit := fun g => ((), { g with xrdCreated := true })

def setGuestHomeUsed : GuiM Unit := fun g => ((), { g with guestHomeUsed := true })

def setGuestX11num (n : Int) : GuiM Unit := fun g => ((), { g with guestX11num := n })

end Cage.Sandbox
