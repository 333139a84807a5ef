import Cage.Sandbox.GuiWorld

/-!
`setup_gui_mounts`: `src/sandbox/gui_x11.c`, `src/sandbox/gui_xdg.c` and
`src/sandbox/gui.c`, and `mount_bind` of `src/sandbox/mount.c`.
-/

namespace Cage.Sandbox

open Util

/-- `if (r == 0) r = b;` after `r = a` -/
def thenDo (a b : GuiM Int) : GuiM Int := do
  let r ← a
  if r = 0 then b else pure r

/-- `parent_of` -/
def parentOf (rel : CStr) : Option CStr :=
  match beforeLastSlash rel with
  | none => none
  | some 0 => none
  | some len => some (rel.take len)

/-- `mkdir` of the parent, if there is one. -/
def makeParents (mkdir : CStr → GuiM Int) (rel : CStr) : GuiM Int :=
  match parentOf rel with
  | none => pure 0
  | some dir => mkdir dir

def ensureMountTarget (ctx : GuiCtx) (sub : CStr) (uid gid : UInt32) : GuiM Int := do
  let rootfd ← perform (.openRoot ctx.root.str)
  if rootfd < 0 then pure (-1)
  else
    thenDo (makeParents (fun dir => perform (.mkdirParentsAt dir uid gid 0o755)) sub)
      (perform (.touchAt sub uid gid))

def mountFile (ctx : GuiCtx) (sub src : CStr) (uid gid : UInt32) : GuiM Int := do
  let r ← ensureMountTarget ctx sub uid gid
  if r ≠ 0 then pure (-1)
  else do
    let r ← perform (.mount src (memPath ctx.root.str sub))
    if r ≠ 0 then pure (-1) else pure 0

def mountFileAcl (ctx : GuiCtx) (target source : CStr) : GuiM Int := do
  let r ← mountFile ctx target source ctx.uid ctx.gid
  if r ≠ 0 then pure r
  else perform (.aclGuestSet (memPath ctx.root.str target) ctx.uid ctx.gid ctx.groups)

section Mount

variable {M : Type → Type} [Monad M]

/-- `ensure_dir` of `mount.c`, over what `io_exists`, `io_mkdir` and `io_isdir` do of the
path. -/
def ensureDirBy (ioExists ioMkdir ioIsdir : M Int) : M Int := do
  let e ← ioExists
  if e = 1 then ioMkdir
  else if e ≠ 0 then pure (-1)
  else do
    let d ← ioIsdir
    if d = 1 then pure (-1)
    else if d ≠ 0 then pure (-1)
    else pure 0

/-- A mount on a directory that is ensured first. -/
def mountBy (dir mount : M Int) : M Int := do
  let r ← dir
  if r ≠ 0 then pure (-1)
  else do
    let r ← mount
    if r = 0 then pure 0 else pure (-1)

end Mount

def ensureDir (path : CStr) : GuiM Int :=
  ensureDirBy (perform (.exists path)) (perform (.mkdir path)) (perform (.isdir path))

/-- `mount_bind` of `mount.c` -/
def mountBind (root sub src : CStr) : GuiM Int :=
  mountBy (ensureDir (memPath root sub)) (perform (.mount src (memPath root sub)))

def x11Dir : CStr := lit "/tmp/.X11-unix"

def setSockAcl (ctx : GuiCtx) (name : CStr) : GuiM Int :=
  if fits (x11Dir ++ slash :: name) pathMax then
    perform (.aclSet (x11Dir ++ slash :: name) ctx.uid ctx.gid ctx.groups)
  else pure (-1)

def parseDisplayN (d : Option CStr) : Int :=
  match d with
  | none => -1
  | some d =>
      if d.head? ≠ some 58 then -1
      else
        let n := (strtol d.tail).1
        if (strtol d.tail).2 = d.tail ∨ n < 0 then -1 else intOfLong n

def matchX11Sock (e : DirEntry) (dispN : Int) : Bool :=
  if e.name.head? ≠ some 88 ∨ ¬e.isSock then false
  else if dispN < 0 then true
  else truncated 16 (lit "X" ++ intStr dispN) == e.name

/-- The loop of `set_x11_acls`. -/
def setX11AclsFrom (ctx : GuiCtx) (dispN : Int) : List DirEntry → GuiM Int
  | [] => pure 0
  | e :: es =>
      if matchX11Sock e dispN then do
        let r ← setSockAcl ctx e.name
        if r ≠ 0 then pure (-1) else setX11AclsFrom ctx dispN es
      else setX11AclsFrom ctx dispN es

def setX11Acls (host : HostView) (ctx : GuiCtx) (dispN : Int) : GuiM Int :=
  match host.x11Dir with
  | none => pure 0
  | some es => setX11AclsFrom ctx dispN es

def tryXDisplay (name : CStr) (best : Int) : Int :=
  if name.head? ≠ some 88 then best
  else
    let n := (strtol name.tail).1
    if (strtol name.tail).2 = [] ∧ 0 ≤ n ∧ (best < 0 ∨ n < best) then intOfLong n else best

def scanLowestXSocket (host : HostView) : Int :=
  match host.x11Dir with
  | none => -1
  | some es => es.foldl (fun best e => tryXDisplay e.name best) (-1)

/-- `resolve_x11_displays`: the numbers of the host's and the guest's display. -/
def resolveX11Displays (hostDisp guestDisp : Option CStr) : Option (Int × Int) :=
  let hostN := parseDisplayN hostDisp
  match guestDisp with
  | some d => if parseDisplayN (some d) < 0 then none else some (hostN, parseDisplayN (some d))
  | none =>
      if hostN < 0 ∧ hostDisp ≠ none ∧ hostDisp ≠ some [] then none else some (hostN, hostN)

def resolveHostX11 (host : HostView) (hostN : Int) : Option Int :=
  if 0 ≤ hostN then
    if host.access (x11Dir ++ lit "/X" ++ intStr hostN) then some hostN else none
  else if host.access x11Dir then
    if scanLowestXSocket host < 0 then none else some (scanLowestXSocket host)
  else none

def resolveX11Pair (host : HostView) (ctx : GuiCtx) : Option (Int × Int) :=
  match resolveX11Displays ctx.hostDisplay ctx.guestDisplay with
  | none => none
  | some (hostN, guestN) =>
      match resolveHostX11 host hostN with
      | none => none
      | some hostN => some (hostN, if guestN < 0 then hostN else guestN)

def mountX11Socket (host : HostView) (ctx : GuiCtx) (hostN guestN : Int) : GuiM Int :=
  if hostN = guestN then do
    let r ← mountBind ctx.root.str (lit "tmp/.X11-unix") x11Dir
    if r ≠ 0 then pure (-1) else setX11Acls host ctx guestN
  else
    mountFileAcl ctx (lit "tmp/.X11-unix/X" ++ intStr guestN) (x11Dir ++ lit "/X" ++ intStr hostN)

def x11ResolveDisplay (host : HostView) (ctx : GuiCtx) : GuiM Unit :=
  match resolveX11Pair host ctx with
  | none => pure ()
  | some (_, guestN) => setGuestX11num guestN

def mountX11 (host : HostView) (ctx : GuiCtx) : GuiM Int :=
  match resolveX11Pair host ctx with
  | none => pure 0
  | some (hostN, guestN) => do
      let r ← mountX11Socket host ctx hostN guestN
      if r ≠ 0 then pure (-1)
      else do
        setGuestX11num guestN
        pure 0

def ensureXdgParent (ctx : GuiCtx) (abspath : CStr) : GuiM Int :=
  match beforeLastSlash abspath with
  | none => pure 0
  | some 0 => pure 0
  | some len => perform (.mkdirOwn (abspath.take len) ctx.uid ctx.gid 0o700)

def runUser (uid : UInt32) : CStr := lit "/run/user/" ++ unsignedStr uid

/-- `fill_xdg`; `none` when the path does not fit. -/
def fillXdg (ctx : GuiCtx) (sz : Nat) : Option CStr :=
  let dir := ctx.guestXrd.getD (runUser ctx.uid)
  if fits dir sz then some dir else none

/-- `sizeof(xdg)` and `sizeof(target)`. -/
def xdgBuffer : Nat := 512

/-- `create_guest_xdg_root`, with the path that it writes. -/
def createGuestXdgRoot (ctx : GuiCtx) : GuiM (Option CStr) :=
  match fillXdg ctx xdgBuffer with
  | none => pure none
  | some dir => do
      let g := memPath ctx.root.str dir
      let r ← thenDo (if ctx.guestXrdEnv then pure 0 else ensureXdgParent ctx g)
        (perform (.mkdirOwn g ctx.uid ctx.gid 0o700))
      if r ≠ 0 then pure none
      else do
        setXrdCreated
        pure (some dir)

def touchTarget (ctx : GuiCtx) (target : CStr) : GuiM Int :=
  perform (.touch (memPath ctx.root.str target))

def ensureGuestXdgPulse (ctx : GuiCtx) : GuiM Int := do
  let xdg ← createGuestXdgRoot ctx
  match xdg with
  | none => pure (-1)
  | some xdg =>
      perform (.mkdirOwn (memPath (memPath ctx.root.str xdg) (lit "pulse")) ctx.uid ctx.gid 0o700)

/-- What follows `unix:`, if the value starts so. -/
def afterUnix (ps : CStr) : Option CStr :=
  if ps.take 5 = lit "unix:" then some (ps.drop 5) else none

def resolvePulseSrc (hostPs : Option CStr) (hostXrd : CStr) : Option CStr :=
  match hostPs with
  | some ps =>
      match afterUnix ps with
      | some path => some path
      | none => if slash ∈ ps then some ps else none
  | none => some (hostXrd ++ lit "/pulse/native")

def pulseTarget (ctx : GuiCtx) : Option CStr :=
  match ctx.guestPs with
  | some gp => some ((afterUnix gp).getD gp)
  | none =>
      let target := match ctx.guestXrd with
        | some xrd => xrd ++ lit "/pulse/native"
        | none => lit "run/user/" ++ unsignedStr ctx.uid ++ lit "/pulse/native"
      if fits target xdgBuffer then some target else none

/-- The part of `ensure_target_present` for a target that is missing. -/
def makeTarget (ctx : GuiCtx) (t : CStr) : GuiM Int := do
  let xdg ← createGuestXdgRoot ctx
  match xdg with
  | none => pure (-1)
  | some _ => touchTarget ctx t

def ensureTargetPresent (ctx : GuiCtx) (t : CStr) : GuiM Int := do
  let e ← perform (.exists (memPath ctx.root.str t))
  if e ≠ 0 then do
    let r ← makeTarget ctx t
    setXrdCreated
    pure r
  else do
    setXrdCreated
    pure 0

/-- `sizeof(p)` in `mount_wayland`. -/
def waylandBuffer : Nat := 1024

/-- `ensure_wayland_target`, with the path that it writes. -/
def ensureWaylandTarget (ctx : GuiCtx) (wn : CStr) : GuiM (Option CStr) :=
  match fillXdg ctx xdgBuffer with
  | none => pure none
  | some xdg =>
      if fits (xdg ++ slash :: wn) waylandBuffer then do
        let r ← ensureTargetPresent ctx (xdg ++ slash :: wn)
        if r = 0 then pure (some (xdg ++ slash :: wn)) else pure none
      else pure none

def mountWayland (host : HostView) (ctx : GuiCtx) (hostXrd wl : CStr) : GuiM Int :=
  if host.exists (memPath hostXrd wl) ≠ 0 then pure 0
  else do
    let p ← ensureWaylandTarget ctx (ctx.guestWl.getD wl)
    match p with
    | none => pure (-1)
    | some p => mountFileAcl ctx p (memPath hostXrd wl)

def prepareDefaultPulseTarget (ctx : GuiCtx) (tgt : CStr) : GuiM Int :=
  thenDo (ensureGuestXdgPulse ctx) (touchTarget ctx tgt)

def prepareCustomPulseTarget (ctx : GuiCtx) (tgt : CStr) : GuiM Int :=
  let p := memPath ctx.root.str tgt
  thenDo
    (match beforeLastSlash p with
      | none => pure 0
      | some len => perform (.mkdirOwn (p.take len) ctx.uid ctx.gid 0o700))
    (touchTarget ctx tgt)

def ensurePulseTarget (ctx : GuiCtx) (tgt : CStr) : GuiM Int := do
  let e ← perform (.exists (memPath ctx.root.str tgt))
  if e ≠ 0 then
    if ctx.guestPs = none then prepareDefaultPulseTarget ctx tgt
    else prepareCustomPulseTarget ctx tgt
  else if ctx.guestPs = none then do
    setXrdCreated
    pure 0
  else pure 0

def mountPulse (host : HostView) (ctx : GuiCtx) (hostXrd : CStr) : GuiM Int :=
  match resolvePulseSrc ctx.hostPs hostXrd with
  | none => pure 0
  | some src =>
      if host.exists src ≠ 0 then pure 0
      else
        match pulseTarget ctx with
        | none => pure (-1)
        | some tgt => thenDo (ensurePulseTarget ctx tgt) (mountFileAcl ctx tgt src)

def hostWayland (ctx : GuiCtx) : CStr := ctx.hostWl.getD (lit "wayland-0")

def mountXdgSocks (host : HostView) (ctx : GuiCtx) : GuiM Int :=
  match ctx.hostXrd with
  | none => pure 0
  | some xrd => do
      let r ← mountWayland host ctx xrd (hostWayland ctx)
      let p ← mountPulse host ctx xrd
      if p ≠ 0 then pure (-1) else pure r

def waylandSockPresent (host : HostView) (ctx : GuiCtx) (hostXrd : CStr) : Bool :=
  host.exists (memPath hostXrd (hostWayland ctx)) = 0

def pulseSockPresent (host : HostView) (ctx : GuiCtx) (hostXrd : CStr) : Bool :=
  if ctx.guestPs ≠ none then false
  else
    match resolvePulseSrc ctx.hostPs hostXrd with
    | none => false
    | some src => host.exists src = 0

/-- `xdg_detect_socks`: the new `xrd_created`. -/
def xdgDetectSocks (host : HostView) (ctx : GuiCtx) : Bool :=
  match ctx.hostXrd with
  | none => false
  | some xrd => waylandSockPresent host ctx xrd || pulseSockPresent host ctx xrd

/-- `try_cookie` and `cat_and_try`. -/
def tryCookie (host : HostView) (path : CStr) : Option CStr :=
  if host.exists path = 0 then some path else none

def findPulseCookie (host : HostView) (ctx : GuiCtx) (home : CStr) : Option CStr :=
  (ctx.hostPc.bind (tryCookie host)).or <|
    (ctx.hostXch.bind fun xch => tryCookie host (xch ++ lit "/pulse/cookie")).or <|
      (tryCookie host (home ++ lit "/.config/pulse/cookie")).or <|
        tryCookie host (home ++ lit "/.pulse-cookie")

def mountHfile (host : HostView) (ctx : GuiCtx) (h c f : CStr) : GuiM Int :=
  if host.exists (memPath h f) ≠ 0 then pure 0
  else mountFileAcl ctx (memPath c f) (memPath h f)

def resolveGuestCookiePath (ctx : GuiCtx) (containerHome : CStr) : CStr :=
  match ctx.guestPc with
  | some pc => pc
  | none =>
      match ctx.guestXch with
      | some xch => xch ++ lit "/pulse/cookie"
      | none => memPath containerHome (lit "/.config/pulse/cookie")

def mountXauthority (host : HostView) (ctx : GuiCtx) (hostHome containerHome : CStr) :
    GuiM Int :=
  if host.exists (memPath hostHome (lit "/.Xauthority")) ≠ 0 then pure 0
  else do
    setGuestHomeUsed
    mountHfile host ctx hostHome containerHome (lit "/.Xauthority")

def skipSlashes (p : CStr) : CStr := p.dropWhile (· = slash)

def ensureGuestHome (ctx : GuiCtx) (home : CStr) : GuiM Int :=
  if memPathEscapes home then pure (-1)
  else do
    let rootfd ← perform (.openRoot ctx.root.str)
    if rootfd < 0 then pure (-1)
    else perform (.mkdirParentsAt (skipSlashes home) ctx.uid ctx.gid 0o755)

def ensureGuestHomeIfNeeded (ctx : GuiCtx) (h : CStr) : GuiM Int := do
  let g ← get
  if g.guestHomeUsed ∨ ctx.guestPc ≠ none ∨ ctx.guestXch ≠ none then pure 0
  else do
    setGuestHomeUsed
    ensureGuestHome ctx h

def prepareCookieDirs (ctx : GuiCtx) (guestRel : CStr) : GuiM Int :=
  if memPathEscapes guestRel then pure (-1)
  else do
    let rootfd ← perform (.openRoot ctx.root.str)
    if rootfd < 0 then pure (-1)
    else
      let rel := skipSlashes guestRel
      thenDo (makeParents (fun dir => perform (.mkdirOwnAt dir ctx.uid ctx.gid 0o755)) rel)
        (perform (.touchAt rel ctx.uid ctx.gid))

def mountCookie (host : HostView) (ctx : GuiCtx) (hostHome containerHome : CStr) : GuiM Int :=
  match findPulseCookie host ctx hostHome with
  | none => pure 0
  | some cookie =>
      let guest := resolveGuestCookiePath ctx containerHome
      thenDo (thenDo (ensureGuestHomeIfNeeded ctx containerHome) (prepareCookieDirs ctx guest))
        (mountFileAcl ctx guest cookie)

def mountUserFiles (host : HostView) (ctx : GuiCtx) (hostHome containerHome : CStr) :
    GuiM Int := do
  let r ← mountXauthority host ctx hostHome containerHome
  if r ≠ 0 then pure r else mountCookie host ctx hostHome containerHome

def mountUserHome (host : HostView) (ctx : GuiCtx) (containerHome : Option CStr) : GuiM Int :=
  match ctx.hostHome, containerHome with
  | some hostHome, some containerHome => mountUserFiles host ctx hostHome containerHome
  | _, _ => pure 0

def setupGuiMounts (host : HostView) (ctx : GuiCtx) (containerHome : Option CStr) : GuiM Int :=
  if (containerHome.map memPathEscapes).getD false then pure (-1)
  else do
    let r ← mountX11 host ctx
    if r ≠ 0 then pure (-1)
    else do
      let r ← mountXdgSocks host ctx
      if r ≠ 0 then pure (-1) else mountUserHome host ctx containerHome

end Cage.Sandbox
