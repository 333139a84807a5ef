import Cage.Core.Child
import Cage.Util.EnvCorrect

/-!
What the GUI set-up leaves in the environment, as a finite map: a value that is
forced, or else the one that stands there already, or else a default.
-/

namespace Cage.Core

open Util Sandbox

/-- A value that `env_map_ensure` sets. -/
def given (v : CStr) : Option CStr := if v = [] then none else some v

theorem given_ne (v : CStr) : given v ≠ some [] := by
  unfold given
  split
  · simp
  · rename_i hv
    exact fun h => hv (Option.some.inj h)

theorem refEnsure_apply (f : CStr → Option CStr) (k : CStr) (v : CStr) (x : CStr) :
    refEnsure f k (some v) x = if x = k then (f x).or (given v) else f x := by
  cases v with
  | nil =>
    have hsame : refEnsure f k (some []) x = f x := rfl
    rw [hsame, given, if_pos rfl, Option.or_none, ite_self]
  | cons c v =>
    have hgiven : given (c :: v) = some (c :: v) := if_neg (List.cons_ne_nil c v)
    have hcase : refEnsure f k (some (c :: v)) x =
        (if (f k).isSome then f else Function.update f k (some (c :: v))) x := rfl
    rw [hcase, hgiven]
    by_cases hx : x = k
    · subst hx
      rw [if_pos rfl]
      cases hf : f x with
      | none => simp [Function.update_self]
      | some w => simp [hf]
    · rw [if_neg hx]
      split
      · rfl
      · exact Function.update_of_ne hx _ f

theorem ensure_holds {m : EnvMap} {f : CStr → Option CStr} (h : m.Holds f) (k v : CStr) :
    ∃ m', envMapEnsure true m k (some v) = some m' ∧
      m'.Holds fun x => if x = k then (f x).or (given v) else f x := by
  obtain ⟨m', hrun, hm'⟩ := envMapEnsure_holds h k (some v)
  have heq : refEnsure f k (some v) = fun x => if x = k then (f x).or (given v) else f x :=
    funext (refEnsure_apply f k v)
  exact ⟨m', hrun, heq ▸ hm'⟩

theorem lookup_none {kvs : List (CStr × CStr)} {x : CStr} (hx : x ∉ kvs.map Prod.fst) :
    kvs.lookup x = none := by
  rw [List.lookup_eq_none_iff]
  intro p hp
  have hne : x ≠ p.1 := fun heq => hx (heq ▸ List.mem_map_of_mem hp)
  simpa using hne

/-- The names that `add_wl_vars` puts a value for. -/
def wlKeys : List CStr :=
  [lit "XDG_SESSION_TYPE", lit "GDK_BACKEND", lit "QT_QPA_PLATFORM", lit "SDL_VIDEODRIVER",
    lit "CLUTTER_BACKEND", lit "MOZ_ENABLE_WAYLAND", lit "_JAVA_AWT_WM_NONREPARENTING",
    lit "XDG_CURRENT_DESKTOP"]

theorem wlPuts_keys (host : HostView) : (wlPuts host).map Prod.fst = wlKeys := rfl

theorem putAll_holds {kvs : List (CStr × CStr)} (hnodup : (kvs.map Prod.fst).Nodup)
    {m : EnvMap} {f : CStr → Option CStr} (h : m.Holds f) :
    ∃ m', putAll true kvs m = some m' ∧ m'.Holds fun x => (kvs.lookup x).or (f x) := by
  induction kvs generalizing m f with
  | nil => exact ⟨m, rfl, h⟩
  | cons kv kvs ih =>
    obtain ⟨hnotin, hrest⟩ := List.nodup_cons.mp hnodup
    obtain ⟨m₁, hput, h₁⟩ := envMapPut_holds h kv.1 kv.2
    obtain ⟨m₂, hputs, h₂⟩ := ih hrest h₁
    refine ⟨m₂, by rw [putAll, hput]; exact hputs, ?_⟩
    have heq : (fun x => (kvs.lookup x).or (Function.update f kv.1 (some kv.2) x)) =
        fun x => ((kv :: kvs).lookup x).or (f x) := by
      funext x
      by_cases hx : x = kv.1
      · subst hx
        rw [lookup_none hnotin, Function.update_self, List.lookup_cons, beq_self_eq_true]
        rfl
      · rw [Function.update_of_ne hx, List.lookup_cons, beq_eq_false_iff_ne.mpr hx]
    exact heq ▸ h₂

/-- What `apply_gui_env` has to set. -/
structure Detection where
  display : Option CStr
  runtimeDir : Option CStr
  xrd : CStr
  wl : Bool
  pa : Bool
  wn : CStr
  puts : List (CStr × CStr)

def Detection.forced (d : Detection) (x : CStr) : Option CStr :=
  (if x = lit "XDG_RUNTIME_DIR" then d.runtimeDir else none).or
    (if d.wl then d.puts.lookup x else none)

def Detection.default (d : Detection) (x : CStr) : Option CStr :=
  if x = lit "DISPLAY" then d.display
  else if x = lit "XDG_RUNTIME_DIR" then (if d.wl || d.pa then given d.xrd else none)
  else if x = lit "WAYLAND_DISPLAY" then (if d.wl then given d.wn else none)
  else none

/-- The environment with what has been detected. -/
def Detection.apply (d : Detection) (f : CStr → Option CStr) (x : CStr) : Option CStr :=
  (d.forced x).or ((f x).or (d.default x))

/-- The display that is set, unless one is given. -/
def detectedDisplay (ctx : GuiCtx) (guestX11num : Int) : Option CStr :=
  ((ctx.guestDisplay.or ctx.hostDisplay).bind given).or
    (if 0 ≤ guestX11num then some (lit ":" ++ intStr guestX11num ++ lit ".0") else none)

def detection (host : HostView) (ctx : GuiCtx) (g : Gui) (xrd : CStr) (uid : UInt32) :
    Detection where
  display := detectedDisplay ctx g.guestX11num
  runtimeDir := if g.xrdCreated ∧ ¬ctx.guestXrdEnv then some (runUser uid) else none
  xrd := xrd
  wl := wlDetected host xrd ctx.hostWl
  pa := paDetected host xrd
  wn := ctx.hostWl.getD (lit "wayland-0")
  puts := wlPuts host

section

variable {m : EnvMap} {f : CStr → Option CStr}

theorem ensureDisplay_holds (h : m.Holds f) (display : Option CStr) (n : Int) :
    ∃ m', ensureDisplay true m display n = some m' ∧
      m'.Holds fun x => if x = lit "DISPLAY" then
        (f x).or ((display.bind given).or
          (if 0 ≤ n then some (lit ":" ++ intStr n ++ lit ".0") else none))
        else f x := by
  have hnum : ∃ m', (if 0 ≤ n then
      envMapEnsure true m (lit "DISPLAY") (some (lit ":" ++ intStr n ++ lit ".0"))
      else some m) = some m' ∧
      m'.Holds fun x => if x = lit "DISPLAY" then
        (f x).or (if 0 ≤ n then some (lit ":" ++ intStr n ++ lit ".0") else none) else f x := by
    by_cases hn : 0 ≤ n
    · simp only [if_pos hn]
      exact ensure_holds h (lit "DISPLAY") (lit ":" ++ intStr n ++ lit ".0")
    · simp only [if_neg hn, Option.or_none, ite_self]
      exact ⟨m, rfl, h⟩
  match display with
  | none => exact hnum
  | some [] => exact hnum
  | some (c :: d) => exact ensure_holds h (lit "DISPLAY") (c :: d)

theorem wlPuts_nodup (host : HostView) : ((wlPuts host).map Prod.fst).Nodup := by
  rw [wlPuts_keys]
  decide

theorem detectXdgGui_holds (host : HostView) (xrd : CStr) (h : m.Holds f) (hostWl : Option CStr) :
    ∃ m', detectXdgGui true host xrd m hostWl = some m' ∧
      m'.Holds fun x =>
        (if wlDetected host xrd hostWl then (wlPuts host).lookup x else none).or
          (if x = lit "WAYLAND_DISPLAY" ∧ wlDetected host xrd hostWl then
            (f x).or (given (hostWl.getD (lit "wayland-0")))
          else if x = lit "XDG_RUNTIME_DIR" ∧ (wlDetected host xrd hostWl || paDetected host xrd)
            then (f x).or (given xrd)
          else f x) := by
  unfold detectXdgGui
  dsimp only
  generalize wlDetected host xrd hostWl = wl
  generalize paDetected host xrd = pa
  have hxrd : ∃ m', (if wl || pa then envMapEnsure true m (lit "XDG_RUNTIME_DIR") (some xrd)
      else some m) = some m' ∧
      m'.Holds fun x => if x = lit "XDG_RUNTIME_DIR" ∧ (wl || pa) then (f x).or (given xrd)
        else f x := by
    cases hany : wl || pa with
    | false =>
      refine ⟨m, rfl, ?_⟩
      simpa using h
    | true => simpa using ensure_holds h (lit "XDG_RUNTIME_DIR") xrd
  obtain ⟨m₁, hrun₁, h₁⟩ := hxrd
  rw [hrun₁]
  cases wl with
  | false =>
    refine ⟨m₁, rfl, ?_⟩
    simpa using h₁
  | true =>
    obtain ⟨m₂, hrun₂, h₂⟩ :=
      ensure_holds h₁ (lit "WAYLAND_DISPLAY") (hostWl.getD (lit "wayland-0"))
    obtain ⟨m₃, hrun₃, h₃⟩ := putAll_holds (wlPuts_nodup host) h₂
    refine ⟨m₃, ?_, ?_⟩
    · have hwl : addWlVars true host m₁ (hostWl.getD (lit "wayland-0")) = some m₃ := by
        unfold addWlVars
        rw [hrun₂]
        exact hrun₃
      simpa using hwl
    · have hne : lit "WAYLAND_DISPLAY" ≠ lit "XDG_RUNTIME_DIR" := by decide
      convert h₃ using 2 with x
      congr 1
      by_cases hx : x = lit "WAYLAND_DISPLAY"
      · simp [hx, hne]
      · simp [hx]

end

/-- The environment with the display that has been detected. -/
def withDisplay (ctx : GuiCtx) (g : Gui) (f : CStr → Option CStr) (x : CStr) : Option CStr :=
  if x = lit "DISPLAY" then (f x).or (detectedDisplay ctx g.guestX11num) else f x

/-- The steps of `apply_gui_env`, one after the other, are the detection. -/
theorem detection_apply (host : HostView) (ctx : GuiCtx) (g : Gui) (xrd : CStr) (uid : UInt32)
    (f : CStr → Option CStr) (x : CStr) :
    (detection host ctx g xrd uid).apply f x =
      (if x = lit "XDG_RUNTIME_DIR" then (detection host ctx g xrd uid).runtimeDir else none).or
        ((if wlDetected host xrd ctx.hostWl then (wlPuts host).lookup x else none).or
          (if x = lit "WAYLAND_DISPLAY" ∧ wlDetected host xrd ctx.hostWl then
            (withDisplay ctx g f x).or (given (ctx.hostWl.getD (lit "wayland-0")))
          else if x = lit "XDG_RUNTIME_DIR" ∧
              (wlDetected host xrd ctx.hostWl || paDetected host xrd) then
            (withDisplay ctx g f x).or (given xrd)
          else withDisplay ctx g f x)) := by
  have hdx : lit "DISPLAY" ≠ lit "XDG_RUNTIME_DIR" := by decide
  have hdw : lit "DISPLAY" ≠ lit "WAYLAND_DISPLAY" := by decide
  have hxw : lit "XDG_RUNTIME_DIR" ≠ lit "WAYLAND_DISPLAY" := by decide
  unfold Detection.apply Detection.forced
  rw [Option.or_assoc]
  congr 1
  change (if wlDetected host xrd ctx.hostWl then (wlPuts host).lookup x else none).or _ = _
  congr 1
  unfold withDisplay
  by_cases hd : x = lit "DISPLAY"
  · subst hd
    simp [Detection.default, detection, hdx, hdw]
  · by_cases hx : x = lit "XDG_RUNTIME_DIR"
    · subst hx
      simp only [Detection.default, detection, if_neg hdx.symm, if_neg hxw, if_true, true_and]
      split <;> simp_all
    · by_cases hw : x = lit "WAYLAND_DISPLAY"
      · subst hw
        simp only [Detection.default, detection, if_neg hdw.symm, if_neg hxw.symm, if_true,
          true_and]
        split <;> simp_all
      · simp [Detection.default, hd, hx, hw]

theorem applyGuiEnv_holds (host : HostView) (ctx : GuiCtx) (g : Gui) {env : ChildEnv}
    {f : CStr → Option CStr} (h : env.map.Holds f) {xrd : CStr}
    (hxrd : env.hostXdgRuntimeDir = some xrd) (user : GuiUser) (ruid : UInt32) :
    ∃ env', applyGuiEnv true host ctx g env user ruid = some env' ∧
      env'.map.Holds ((detection host ctx g xrd user.uid).apply f) := by
  obtain ⟨m₁, hrun₁, h₁⟩ :=
    ensureDisplay_holds h (ctx.guestDisplay.or ctx.hostDisplay) g.guestX11num
  obtain ⟨m₂, hrun₂, h₂⟩ := detectXdgGui_holds host xrd h₁ ctx.hostWl
  have hset : envSetGuiEnvs true host env (ctx.guestDisplay.or ctx.hostDisplay) g.guestX11num
      ctx.hostWl ruid = some { env with map := m₂, hostXdgRuntimeDir := some xrd } := by
    unfold envSetGuiEnvs
    rw [hrun₁, hxrd]
    change (detectXdgGui true host xrd m₁ ctx.hostWl).map _ = _
    rw [hrun₂]
    rfl
  unfold applyGuiEnv
  dsimp only
  rw [hset]
  unfold maybeSetXdgRuntime
  by_cases hforce : g.xrdCreated ∧ ¬ctx.guestXrdEnv
  · obtain ⟨m₃, hrun₃, h₃⟩ := envMapPut_holds h₂ (lit "XDG_RUNTIME_DIR") (runUser user.uid)
    refine ⟨_, by rw [Option.bind_some, if_pos hforce, hrun₃]; rfl, ?_⟩
    convert h₃ using 1
    funext x
    rw [detection_apply]
    by_cases hx : x = lit "XDG_RUNTIME_DIR"
    · subst hx
      have hdir : (detection host ctx g xrd user.uid).runtimeDir = some (runUser user.uid) :=
        if_pos hforce
      rw [if_pos rfl, hdir, Function.update_self]
      rfl
    · rw [if_neg hx, Function.update_of_ne hx]
      rfl
  · refine ⟨_, by rw [Option.bind_some, if_neg hforce], ?_⟩
    convert h₂ using 1
    funext x
    have hdir : (detection host ctx g xrd user.uid).runtimeDir = none := if_neg hforce
    rw [detection_apply, hdir, ite_self]
    rfl

/-- The arguments that `parse_envs` accepts. -/
def Accepted (cfg : GuiConfig) : Prop := ∀ e ∈ cfg.envvars, equals ∈ e

instance (cfg : GuiConfig) : Decidable (Accepted cfg) := inferInstanceAs (Decidable (∀ _ ∈ _, _))

/-- The environment after `parse_envs`. -/
def parsedEnv (s : Scene) (cfg : GuiConfig) (x : CStr) : Option CStr :=
  (lastValue cfg.envvars x).or (defaultValue (hostVars s.host) x)

/-- The home of the guest: the one that is given, or the one of its user. -/
def guestHome (s : Scene) (cfg : GuiConfig) : CStr :=
  (lastValue cfg.envvars (lit "HOME")).getD s.user.home

/-- The environment after `fixup_home`. -/
def homeEnv (s : Scene) (cfg : GuiConfig) : CStr → Option CStr :=
  Function.update (parsedEnv s cfg) (lit "HOME") (some (guestHome s cfg))

def hostXdg (s : Scene) : CStr := getHostXdgDir s.host xdgDirBuffer s.ruid

/-- The context that `begin_gui_ctx` fills. -/
def guiCtx (s : Scene) (cfg : GuiConfig) : GuiCtx :=
  fillGuiCtx s.host cfg s.user s.root
    { toEnv := setDefaultEnv (hostVars s.host) { slots := [], len := 0 }
      hostXdgRuntimeDir := some (hostXdg s)
      hostHome := resolveHostHome s.host }

section

variable (s : Scene) {cfg : GuiConfig} {env : ChildEnv}

theorem fixupHome_holds (h : env.map.Holds (parsedEnv s cfg)) :
    ∃ env', fixupHome true env s.user = some env' ∧ env'.map.Holds (homeEnv s cfg) ∧
      env'.hostXdgRuntimeDir = env.hostXdgRuntimeDir ∧ env'.hostHome = env.hostHome := by
  have hdefault : defaultValue (hostVars s.host) (lit "HOME") = none := by
    have hp : lit "HOME" ≠ lit "PATH" := by decide
    have ht : lit "HOME" ≠ lit "TERM" := by decide
    have hl : lit "HOME" ≠ lit "LANG" := by decide
    rw [defaultValue, if_neg hp, if_neg ht, if_neg hl]
  have hparsed : parsedEnv s cfg (lit "HOME") = lastValue cfg.envvars (lit "HOME") := by
    rw [parsedEnv, hdefault, Option.or_none]
  unfold fixupHome
  rw [envMapGet_holds h, Option.bind_some, hparsed]
  cases hlast : lastValue cfg.envvars (lit "HOME") with
  | some v =>
    refine ⟨env, rfl, ?_, rfl, rfl⟩
    have hsame : homeEnv s cfg = parsedEnv s cfg := by
      unfold homeEnv guestHome
      rw [hlast, Option.getD_some, ← hlast, ← hparsed, Function.update_eq_self]
    rw [hsame]
    exact h
  | none =>
    obtain ⟨m', hput, hm'⟩ := envMapPut_holds h (lit "HOME") s.user.home
    refine ⟨{ env with map := m' }, by rw [hput]; rfl, ?_, rfl, rfl⟩
    unfold homeEnv guestHome
    rw [hlast]
    exact hm'

theorem beginGuiCtx_holds (h : env.map.Holds (parsedEnv s cfg))
    (hfresh : env.hostXdgRuntimeDir = none ∧ env.hostHome = none) :
    ∃ env', beginGuiCtx true s.host cfg s.user s.root env s.ruid = some (guiCtx s cfg, env') ∧
      env'.map.Holds (homeEnv s cfg) ∧ env'.hostXdgRuntimeDir = some (hostXdg s) := by
  have hresolved : (resolveHostPaths s.host env s.ruid).map.Holds (parsedEnv s cfg) := h
  obtain ⟨env', hrun, hholds, hxdg, hhome⟩ := fixupHome_holds s hresolved
  have hxdg' : env'.hostXdgRuntimeDir = some (hostXdg s) := by
    rw [hxdg, resolveHostPaths, hfresh.1]
    rfl
  have hhome' : env'.hostHome = resolveHostHome s.host := by
    rw [hhome, resolveHostPaths, hfresh.2]
    rfl
  refine ⟨env', ?_, hholds, hxdg'⟩
  unfold beginGuiCtx
  rw [hrun, Option.map_some]
  unfold fillGuiCtx guiCtx fillGuiCtx
  rw [hxdg', hhome']

end

theorem guiEnv_refused (s : Scene) {cfg : GuiConfig} (h : ¬Accepted cfg) (entrance : Entrance) :
    guiEnv true s cfg entrance = some { env := none, log := [] } := by
  have hbad : ∃ e ∈ cfg.envvars, equals ∉ e := by
    unfold Accepted at h
    push Not at h
    exact h
  unfold guiEnv
  rw [parseEnvs_refused (hostVars s.host) hbad]
  rfl

/-- The set-up from the context that `begin_gui_ctx` fills. -/
def setupRun (s : Scene) (cfg : GuiConfig) (replies : List Int) : Int × Gui :=
  setupGuiMounts s.host (guiCtx s cfg) (some (guestHome s cfg)) (startGui replies)

theorem homeEnv_home (s : Scene) (cfg : GuiConfig) :
    homeEnv s cfg (lit "HOME") = some (guestHome s cfg) := Function.update_self _ _ _

section

variable (s : Scene) {cfg : GuiConfig} (hargs : Accepted cfg)

include hargs

theorem parsed_holds : ∃ env, parseEnvs true (hostVars s.host) cfg.envvars = some (some env) ∧
    env.map.Holds (parsedEnv s cfg) :=
  parseEnvs_holds (hostVars s.host) hargs

/-- The child that sets up its GUI makes the calls of `setup_gui_mounts`, and goes
on when that succeeds. -/
theorem guiEnv_setup (hgraphical : cfg.graphical = true) (replies : List Int) :
    ∃ o, guiEnv true s cfg (.setup replies) = some o ∧ o.log = (setupRun s cfg replies).2.log ∧
      ((setupRun s cfg replies).1 ≠ 0 → o.env = none) ∧
      ((setupRun s cfg replies).1 = 0 → ∃ env, o.env = some env ∧ env.map.Holds
        ((detection s.host (guiCtx s cfg) (setupRun s cfg replies).2 (hostXdg s) s.user.uid).apply
          (homeEnv s cfg))) := by
  obtain ⟨env₀, hparse, h₀⟩ := parsed_holds s hargs
  let fresh : ChildEnv := { toEnv := env₀, hostXdgRuntimeDir := none, hostHome := none }
  have hfresh : fresh.map.Holds (parsedEnv s cfg) := h₀
  obtain ⟨env₁, hbegin, h₁, hxdg⟩ := beginGuiCtx_holds s hfresh ⟨rfl, rfl⟩
  obtain ⟨env₂, happly, h₂⟩ := applyGuiEnv_holds s.host (guiCtx s cfg) (setupRun s cfg replies).2
    h₁ hxdg s.user s.ruid
  have hhome : envMapGet env₁.map (lit "HOME") = some (some (guestHome s cfg)) := by
    rw [envMapGet_holds h₁, homeEnv_home]
  have hrun : guiEnv true s cfg (.setup replies) =
      if (setupRun s cfg replies).1 ≠ 0 then
        some { env := none, log := (setupRun s cfg replies).2.log }
      else
        (applyGuiEnv true s.host (guiCtx s cfg) (setupRun s cfg replies).2 env₁ s.user s.ruid).map
          fun env => { env := some env, log := (setupRun s cfg replies).2.log } := by
    unfold guiEnv
    rw [hparse, Option.bind_some]
    dsimp only
    unfold childSetupGui
    rw [if_pos hgraphical, hbegin, Option.bind_some]
    dsimp only
    rw [hhome]
    rfl
  rw [hrun, happly]
  by_cases hzero : (setupRun s cfg replies).1 = 0
  · rw [if_neg (not_not.mpr hzero)]
    exact ⟨_, rfl, rfl, fun h => absurd hzero h, fun _ => ⟨env₂, rfl, h₂⟩⟩
  · rw [if_pos hzero]
    exact ⟨_, rfl, rfl, fun _ => rfl, fun h => absurd h hzero⟩

/-- What `child_gui_env_only` detects, which makes no calls. -/
def detectedGui (s : Scene) (cfg : GuiConfig) : Gui :=
  { (x11ResolveDisplay s.host (guiCtx s cfg) (startGui [])).2 with
    xrdCreated := xdgDetectSocks s.host (guiCtx s cfg) }

theorem guiEnv_envOnly (hgraphical : cfg.graphical = true) :
    ∃ env, guiEnv true s cfg .envOnly = some { env := some env, log := [] } ∧
      env.map.Holds ((detection s.host (guiCtx s cfg) (detectedGui s cfg) (hostXdg s)
        s.user.uid).apply (homeEnv s cfg)) := by
  obtain ⟨env₀, hparse, h₀⟩ := parsed_holds s hargs
  let fresh : ChildEnv := { toEnv := env₀, hostXdgRuntimeDir := none, hostHome := none }
  have hfresh : fresh.map.Holds (parsedEnv s cfg) := h₀
  obtain ⟨env₁, hbegin, h₁, hxdg⟩ := beginGuiCtx_holds s hfresh ⟨rfl, rfl⟩
  obtain ⟨env₂, happly, h₂⟩ := applyGuiEnv_holds s.host (guiCtx s cfg) (detectedGui s cfg)
    h₁ hxdg s.user s.ruid
  refine ⟨env₂, ?_, h₂⟩
  unfold guiEnv
  rw [hparse, Option.bind_some]
  dsimp only
  unfold childGuiEnvOnly
  rw [if_pos hgraphical, hbegin, Option.bind_some]
  exact congrArg (Option.map _) happly

/-- What a string of an environment gives to a variable of the GUI. -/
def inheritedFrom (x p : CStr) : Option CStr :=
  if equals ∈ p ∧ argName p = x ∧ x.length < keyMax ∧ keyIsGui x then given (argValue p) else none

/-- The value that an environment gives to a variable of the GUI, unless one is
set: the first that is not empty. -/
def inherited (blob : List UInt8) (x : CStr) : Option CStr :=
  (blobStrings blob).findSome? (inheritedFrom x)

omit hargs in
theorem inheritEach_holds {m : EnvMap} {f : CStr → Option CStr} (h : m.Holds f) (ps : List CStr) :
    ∃ m', inheritEach true m ps = some m' ∧
      m'.Holds fun x => (f x).or (ps.findSome? (inheritedFrom x)) := by
  induction ps generalizing m f with
  | nil => exact ⟨m, rfl, by simpa using h⟩
  | cons p ps ih =>
    have hcons (x : CStr) : (p :: ps).findSome? (inheritedFrom x) =
        (inheritedFrom x p).or (ps.findSome? (inheritedFrom x)) := by
      rw [List.findSome?_cons]
      cases inheritedFrom x p <;> rfl
    simp only [hcons, ← Option.or_assoc]
    by_cases hp : equals ∈ p
    · obtain ⟨a, v, rfl, ha⟩ := List.eq_append_cons_of_mem hp
      unfold inheritEach
      rw [strchr_append ha]
      dsimp only
      rw [List.length_append, Nat.add_sub_cancel, beforeRest_append, List.tail_cons]
      by_cases hkey : a.length < keyMax ∧ keyIsGui a
      · obtain ⟨m₁, hensure, h₁⟩ := ensure_holds h a v
        obtain ⟨m₂, hrest, h₂⟩ := ih h₁
        refine ⟨m₂, by rw [if_pos hkey, hensure]; exact hrest, ?_⟩
        convert h₂ using 4 with x
        unfold inheritedFrom
        rw [argName_append ha, argValue_append ha]
        by_cases hx : x = a
        · subst hx
          simp [hkey.1, hkey.2]
        · simp [hx, Ne.symm hx]
      · obtain ⟨m₂, hrest, h₂⟩ := ih h
        refine ⟨m₂, by rw [if_neg hkey]; exact hrest, ?_⟩
        convert h₂ using 4 with x
        unfold inheritedFrom
        rw [argName_append ha, if_neg, Option.or_none]
        exact fun hall => hkey (hall.2.1 ▸ hall.2.2)
    · obtain ⟨m₂, hrest, h₂⟩ := ih h
      refine ⟨m₂, by unfold inheritEach; rw [strchr_none hp]; exact hrest, ?_⟩
      convert h₂ using 4 with x
      unfold inheritedFrom
      rw [if_neg fun hall => hp hall.1, Option.or_none]

theorem guiEnv_inherit (hgraphical : cfg.graphical = true) (blob : List UInt8) :
    ∃ env, guiEnv true s cfg (.inherit blob) = some { env := some env, log := [] } ∧
      env.map.Holds fun x => (homeEnv s cfg x).or (inherited blob x) := by
  obtain ⟨env₀, hparse, h₀⟩ := parsed_holds s hargs
  let fresh : ChildEnv := { toEnv := env₀, hostXdgRuntimeDir := none, hostHome := none }
  have hfresh : fresh.map.Holds (parsedEnv s cfg) := h₀
  obtain ⟨env₁, hfix, h₁, -, -⟩ := fixupHome_holds s hfresh
  obtain ⟨m, hinherit, hm⟩ := inheritEach_holds h₁ (blobStrings blob)
  refine ⟨{ env₁ with map := m }, ?_, hm⟩
  unfold guiEnv
  rw [hparse, Option.bind_some]
  dsimp only
  unfold childGuiEnvInherit envInheritGui
  rw [if_pos hgraphical, hfix, Option.bind_some, hinherit]
  rfl

/-- Without `-G`, nothing is added. -/
theorem guiEnv_off (hgraphical : cfg.graphical = false) (entrance : Entrance) :
    ∃ env, guiEnv true s cfg entrance = some { env := some env, log := [] } ∧
      env.map.Holds (parsedEnv s cfg) := by
  obtain ⟨env, hparse, h⟩ := parsed_holds s hargs
  refine ⟨{ toEnv := env, hostXdgRuntimeDir := none, hostHome := none }, ?_, h⟩
  unfold guiEnv
  rw [hparse, Option.bind_some]
  dsimp only
  unfold childSetupGui childGuiEnvOnly childGuiEnvInherit
  rw [hgraphical]
  cases entrance <;> rfl

end

/-- A host with a Wayland socket and nothing else. -/
def waylandHost : HostView where
  getenv _ := none
  «exists» path := if path = lit "/run/user/1000/wayland-0" then 0 else 1
  isdir _ := 1
  access _ := false
  x11Dir := none

def waylandScene : Scene where
  host := waylandHost
  user := { uid := 1000, gid := 1000, groups := [], home := lit "/home/user" }
  root := { loc := [lit "tmp", lit "cage-a1B2c3"], valid := by decide }
  ruid := 1000

end Cage.Core
