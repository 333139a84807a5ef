import Mathlib.Data.List.SplitBy
import Cage.Sandbox.GuiMounts
import Cage.Util.Env

/-!
The GUI part of `src/core/child.c`, with `find_envvar` of `src/core/prep.c` and
the GUI part of `src/util/env.c`.
-/

namespace Cage.Core

open Util Sandbox

/-- What `get_uid`, `get_gid`, `get_groups` and `get_home` return. -/
structure GuiUser where
  uid : UInt32
  gid : UInt32
  groups : List UInt32
  home : CStr
  deriving DecidableEq, Repr

/-- The fields of `cage_config_t` that the GUI set-up reads. -/
structure GuiConfig where
  graphical : Bool
  envvars : List CStr
  deriving DecidableEq, Repr

/-- `env_t` with the fields that the GUI set-up fills. -/
structure ChildEnv extends Env where
  hostXdgRuntimeDir : Option CStr
  hostHome : Option CStr
  deriving DecidableEq, Repr

def findEnvvar (envvars : List CStr) (key : CStr) : Option CStr :=
  match envvars with
  | [] => none
  | e :: es =>
      if isField key e then
        (if e.drop (key.length + 1) = [] then none else some (e.drop (key.length + 1)))
      else findEnvvar es key

def hasPath (host : HostView) (d s : CStr) : Bool := host.exists (d ++ s) = 0

/-- `env_map_put` of one pair after the other. -/
def putAll (alloc : Bool) : List (CStr × CStr) → EnvMap → Option EnvMap
  | [], m => some m
  | kv :: kvs, m => (envMapPut alloc m kv.1 kv.2).bind (putAll alloc kvs)

/-- What `add_wl_vars` puts, in its order. -/
def wlPuts (host : HostView) : List (CStr × CStr) :=
  [(lit "XDG_SESSION_TYPE", lit "wayland"), (lit "GDK_BACKEND", lit "wayland"),
    (lit "QT_QPA_PLATFORM", lit "wayland-egl"), (lit "SDL_VIDEODRIVER", lit "wayland"),
    (lit "CLUTTER_BACKEND", lit "wayland"), (lit "MOZ_ENABLE_WAYLAND", lit "1"),
    (lit "_JAVA_AWT_WM_NONREPARENTING", lit "1"),
    (lit "XDG_CURRENT_DESKTOP", (host.getenv (lit "XDG_CURRENT_DESKTOP")).getD (lit "wlroots"))]

def addWlVars (alloc : Bool) (host : HostView) (m : EnvMap) (wl : CStr) : Option EnvMap :=
  (envMapEnsure alloc m (lit "WAYLAND_DISPLAY") (some wl)).bind (putAll alloc (wlPuts host))

/-- `sizeof(wls)` -/
def wlsBuffer : Nat := 64

/-- The two tests of `detect_xdg_gui`, for a Wayland socket and for a PulseAudio
directory. -/
def wlDetected (host : HostView) (xrd : CStr) (hostWl : Option CStr) : Bool :=
  hasPath host xrd (truncated wlsBuffer (slash :: hostWl.getD (lit "wayland-0")))

def paDetected (host : HostView) (xrd : CStr) : Bool := hasPath host xrd (lit "/pulse")

def detectXdgGui (alloc : Bool) (host : HostView) (xrd : CStr) (m : EnvMap)
    (hostWl : Option CStr) : Option EnvMap :=
  let wn := hostWl.getD (lit "wayland-0")
  let wl := wlDetected host xrd hostWl
  let pa := paDetected host xrd
  (if wl || pa then envMapEnsure alloc m (lit "XDG_RUNTIME_DIR") (some xrd) else some m).bind
    fun m => if wl then addWlVars alloc host m wn else some m

def getHostXdgDir (host : HostView) (sz : Nat) (ruid : UInt32) : CStr :=
  match host.getenv (lit "XDG_RUNTIME_DIR") with
  | some (c :: x) => c :: x
  | _ =>
      match host.getenv (lit "SUDO_UID") with
      | some su => truncated sz (lit "/run/user/" ++ su)
      | none => truncated sz (lit "/run/user/" ++ unsignedStr ruid)

/-- `sizeof(buf)` of the callers of `get_host_xdg_dir`. -/
def xdgDirBuffer : Nat := 64

/-- The display that `env_set_gui_envs` puts when none is set otherwise. -/
def ensureDisplay (alloc : Bool) (m : EnvMap) (display : Option CStr) (guestX11num : Int) :
    Option EnvMap :=
  match display with
  | some (c :: d) => envMapEnsure alloc m (lit "DISPLAY") (some (c :: d))
  | _ =>
      if 0 ≤ guestX11num then
        envMapEnsure alloc m (lit "DISPLAY") (some (lit ":" ++ intStr guestX11num ++ lit ".0"))
      else some m

def envSetGuiEnvs (alloc : Bool) (host : HostView) (env : ChildEnv) (display : Option CStr)
    (guestX11num : Int) (hostWl : Option CStr) (ruid : UInt32) : Option ChildEnv :=
  (ensureDisplay alloc env.map display guestX11num).bind fun m =>
    let xrd := env.hostXdgRuntimeDir.getD (getHostXdgDir host xdgDirBuffer ruid)
    (detectXdgGui alloc host xrd m hostWl).map fun m =>
      { env with map := m, hostXdgRuntimeDir := some xrd }

/-- The names of `key_is_gui`. -/
def guiKeys : List CStr :=
  [lit "DISPLAY", lit "XDG_RUNTIME_DIR", lit "WAYLAND_DISPLAY", lit "PULSE_SERVER",
    lit "PULSE_COOKIE", lit "XDG_SESSION_TYPE", lit "XDG_CURRENT_DESKTOP", lit "GDK_BACKEND",
    lit "QT_QPA_PLATFORM", lit "SDL_VIDEODRIVER", lit "CLUTTER_BACKEND",
    lit "MOZ_ENABLE_WAYLAND", lit "_JAVA_AWT_WM_NONREPARENTING"]

def keyIsGui (key : CStr) : Bool := key ∈ guiKeys

/-- The strings of a block of them, which the first empty one ends. -/
def blobStrings (blob : List UInt8) : List CStr := (blob.splitOn 0).takeWhile (· ≠ [])

/-- The loop of `env_inherit_gui`. -/
def inheritEach (alloc : Bool) (m : EnvMap) : List CStr → Option EnvMap
  | [] => some m
  | p :: ps =>
      match strchr p equals with
      | none => inheritEach alloc m ps
      | some rest =>
          if p.length - rest.length < keyMax ∧ keyIsGui (beforeRest p rest) then
            (envMapEnsure alloc m (beforeRest p rest) (some rest.tail)).bind fun m =>
              inheritEach alloc m ps
          else inheritEach alloc m ps

def envInheritGui (alloc : Bool) (m : EnvMap) (blob : List UInt8) : Option EnvMap :=
  inheritEach alloc m (blobStrings blob)

/-- `fill_gui_ctx` and `fill_guest_env`. -/
def fillGuiCtx (host : HostView) (cfg : GuiConfig) (user : GuiUser) (root : Path)
    (env : ChildEnv) : GuiCtx where
  root := root
  uid := user.uid
  gid := user.gid
  groups := user.groups
  hostWl := host.getenv (lit "WAYLAND_DISPLAY")
  hostPs := host.getenv (lit "PULSE_SERVER")
  hostPc := host.getenv (lit "PULSE_COOKIE")
  hostXch := host.getenv (lit "XDG_CONFIG_HOME")
  hostXrd := env.hostXdgRuntimeDir
  hostHome := env.hostHome
  hostDisplay := host.getenv (lit "DISPLAY")
  guestWl := findEnvvar cfg.envvars (lit "WAYLAND_DISPLAY")
  guestPs := findEnvvar cfg.envvars (lit "PULSE_SERVER")
  guestPc := findEnvvar cfg.envvars (lit "PULSE_COOKIE")
  guestXrd := findEnvvar cfg.envvars (lit "XDG_RUNTIME_DIR")
  guestXrdEnv := (findEnvvar cfg.envvars (lit "XDG_RUNTIME_DIR")).isSome
  guestXch := findEnvvar cfg.envvars (lit "XDG_CONFIG_HOME")
  guestDisplay := findEnvvar cfg.envvars (lit "DISPLAY")

def maybeSetXdgRuntime (alloc : Bool) (ctx : GuiCtx) (xrdCreated : Bool) (env : ChildEnv)
    (uid : UInt32) : Option ChildEnv :=
  if xrdCreated ∧ ¬ctx.guestXrdEnv then
    (envMapPut alloc env.map (lit "XDG_RUNTIME_DIR") (runUser uid)).map fun m =>
      { env with map := m }
  else some env

def fixupHome (alloc : Bool) (env : ChildEnv) (user : GuiUser) : Option ChildEnv :=
  (envMapGet env.map (lit "HOME")).bind fun home =>
    match home with
    | some _ => some env
    | none =>
        (envMapPut alloc env.map (lit "HOME") user.home).map fun m => { env with map := m }

def hostHomeOk (host : HostView) (h : Option CStr) : Bool :=
  match h with
  | none => false
  | some h => h.head? = some slash && !memPathEscapes h && host.isdir h = 0

def resolveHostHome (host : HostView) : Option CStr :=
  let h := (host.getenv (lit "SUDO_HOME")).or (host.getenv (lit "HOME"))
  if hostHomeOk host h then h else none

def resolveHostPaths (host : HostView) (env : ChildEnv) (ruid : UInt32) : ChildEnv :=
  { env with
    hostXdgRuntimeDir := some (env.hostXdgRuntimeDir.getD (getHostXdgDir host xdgDirBuffer ruid))
    hostHome := env.hostHome.or (resolveHostHome host) }

def applyGuiEnv (alloc : Bool) (host : HostView) (ctx : GuiCtx) (g : Gui) (env : ChildEnv)
    (user : GuiUser) (ruid : UInt32) : Option ChildEnv :=
  let disp := ctx.guestDisplay.or ctx.hostDisplay
  (envSetGuiEnvs alloc host env disp g.guestX11num ctx.hostWl ruid).bind fun env =>
    maybeSetXdgRuntime alloc ctx g.xrdCreated env user.uid

/-- `begin_gui_ctx`, with the environment that it leaves. -/
def beginGuiCtx (alloc : Bool) (host : HostView) (cfg : GuiConfig) (user : GuiUser) (root : Path)
    (env : ChildEnv) (ruid : UInt32) : Option (GuiCtx × ChildEnv) :=
  (fixupHome alloc (resolveHostPaths host env ruid) user).map fun env =>
    (fillGuiCtx host cfg user root env, env)

def startGui (replies : List Int) : Gui where
  xrdCreated := false
  guestHomeUsed := false
  guestX11num := -1
  replies := replies
  log := []

/-- What a child leaves of the set-up: the environment, unless it exits, and the
calls that it has made. -/
structure Outcome where
  env : Option ChildEnv
  log : List (GuiCall × Int)
  deriving DecidableEq, Repr

def childSetupGui (alloc : Bool) (host : HostView) (cfg : GuiConfig) (user : GuiUser)
    (root : Path) (env : ChildEnv) (ruid : UInt32) (replies : List Int) : Option Outcome :=
  if cfg.graphical then
    (beginGuiCtx alloc host cfg user root env ruid).bind fun begun =>
      (envMapGet begun.2.map (lit "HOME")).bind fun home =>
        let r := setupGuiMounts host begun.1 home (startGui replies)
        if r.1 ≠ 0 then some { env := none, log := r.2.log }
        else
          (applyGuiEnv alloc host begun.1 r.2 begun.2 user ruid).map fun env =>
            { env := some env, log := r.2.log }
  else some { env := some env, log := [] }

def childGuiEnvOnly (alloc : Bool) (host : HostView) (cfg : GuiConfig) (user : GuiUser)
    (root : Path) (env : ChildEnv) (ruid : UInt32) : Option ChildEnv :=
  if cfg.graphical then
    (beginGuiCtx alloc host cfg user root env ruid).bind fun begun =>
      let g := (x11ResolveDisplay host begun.1 (startGui [])).2
      applyGuiEnv alloc host begun.1 { g with xrdCreated := xdgDetectSocks host begun.1 } begun.2
        user ruid
  else some env

def childGuiEnvInherit (alloc : Bool) (cfg : GuiConfig) (user : GuiUser) (env : ChildEnv)
    (blob : List UInt8) : Option ChildEnv :=
  if cfg.graphical then
    (fixupHome alloc env user).bind fun env =>
      (envInheritGui alloc env.map blob).map fun m => { env with map := m }
  else some env

/-- What `parse_envs` asks of the host. -/
def hostVars (host : HostView) : Host where
  term := host.getenv (lit "TERM")
  lang := host.getenv (lit "LANG")

/-- How the child comes by its GUI: with mounts of its own, or in an instance
that runs, whose environment may be known. -/
inductive Entrance where
  | setup (replies : List Int)
  | envOnly
  | inherit (blob : List UInt8)
  deriving DecidableEq, Repr

/-- Everything but the arguments. -/
structure Scene where
  host : HostView
  user : GuiUser
  root : Path
  ruid : UInt32

/-- `parse_envs` and what follows it, in `do_child_setup` and `reuse_setup_env`. -/
def guiEnv (alloc : Bool) (s : Scene) (cfg : GuiConfig) (entrance : Entrance) : Option Outcome :=
  (parseEnvs alloc (hostVars s.host) cfg.envvars).bind fun env =>
    match env with
    | none => some { env := none, log := [] }
    | some env =>
        let env : ChildEnv := { toEnv := env, hostXdgRuntimeDir := none, hostHome := none }
        match entrance with
        | .setup replies => childSetupGui alloc s.host cfg s.user s.root env s.ruid replies
        | .envOnly =>
            (childGuiEnvOnly alloc s.host cfg s.user s.root env s.ruid).map fun env =>
              { env := some env, log := [] }
        | .inherit blob =>
            (childGuiEnvInherit alloc cfg s.user env blob).map fun env =>
              { env := some env, log := [] }

end Cage.Core
