import Cage.Core.ChildCorrect
import Cage.Sandbox.GuiSockets

/-!
Whose value a variable of the GUI has: the one of its last argument, or one that
the set-up puts in its place.
-/

namespace Cage.Core

open Util Sandbox

/-- The variables that `-G` sets. -/
def guiVars : List CStr :=
  [lit "DISPLAY", lit "XDG_RUNTIME_DIR", lit "WAYLAND_DISPLAY", lit "XDG_SESSION_TYPE",
    lit "XDG_CURRENT_DESKTOP", lit "GDK_BACKEND", lit "QT_QPA_PLATFORM", lit "SDL_VIDEODRIVER",
    lit "CLUTTER_BACKEND", lit "MOZ_ENABLE_WAYLAND", lit "_JAVA_AWT_WM_NONREPARENTING"]

/-- The arguments without those of a variable. -/
def without (x : CStr) (cfg : GuiConfig) : GuiConfig :=
  { cfg with envvars := cfg.envvars.filter fun e => argName e ≠ x }

/-- The guest may answer another run in another way. -/
def Entrance.Alike : Entrance → Entrance → Prop
  | .setup _, .setup _ => True
  | .envOnly, .envOnly => True
  | .inherit blob, .inherit blob' => blob = blob'
  | _, _ => False

theorem Entrance.alike_refl (entrance : Entrance) : entrance.Alike entrance := by
  cases entrance <;> trivial

/-- The value that a run leaves under `x` is one that it has without arguments for
`x`. -/
def AsWithout (s : Scene) (cfg : GuiConfig) (entrance : Entrance) (env : ChildEnv) (x : CStr) :
    Prop :=
  ∃ entrance' env' log, entrance.Alike entrance' ∧
    guiEnv true s (without x cfg) entrance' = some { env := some env', log := log } ∧
    envMapGet env'.map x = envMapGet env.map x

/-- The rule for explicit arguments: the last one wins, unless it is empty, when
none counts. -/
def Precedence (s : Scene) (cfg : GuiConfig) (entrance : Entrance) (env : ChildEnv) (x : CStr) :
    Prop :=
  match lastValue cfg.envvars x with
  | none => AsWithout s cfg entrance env x
  | some [] => AsWithout s cfg entrance env x
  | some (c :: v) => envMapGet env.map x = some (some (c :: v))

/-- The value that is put for `x`, whatever its arguments: that of a Wayland
variable when a socket is detected, and the directory that has been made, unless
the first argument for it is not empty. -/
def forcedValue (s : Scene) (cfg : GuiConfig) (entrance : Entrance) (x : CStr) : Option CStr :=
  match entrance with
  | .inherit _ => none
  | .setup _ | .envOnly =>
      if cfg.graphical then
        (if x = lit "XDG_RUNTIME_DIR" ∧ xdgDetectSocks s.host (guiCtx s cfg) ∧
            findEnvvar cfg.envvars (lit "XDG_RUNTIME_DIR") = none then
          some (runUser s.user.uid) else none).or
        (if wlDetected s.host (hostXdg s) (s.host.getenv (lit "WAYLAND_DISPLAY")) then
          (wlPuts s.host).lookup x else none)
      else none

/-- No value is put in the place of the one that is given, and one is put in the
place of an empty one. -/
def Honoured (s : Scene) (cfg : GuiConfig) (entrance : Entrance) (x : CStr) : Prop :=
  match lastValue cfg.envvars x with
  | none => True
  | some [] => forcedValue s cfg entrance x ≠ none
  | some (c :: v) => ∀ w, forcedValue s cfg entrance x = some w → w = c :: v

theorem argName_of_isField {key e : CStr} (hkey : equals ∉ key) (h : isField key e = true) :
    argName e = key := by
  unfold isField at h
  rw [Bool.and_eq_true, beq_iff_eq, beq_iff_eq] at h
  obtain ⟨htake, hget⟩ := h
  obtain ⟨hlt, hval⟩ := List.getElem?_eq_some_iff.mp hget
  have hsplit : e = key ++ equals :: e.drop (key.length + 1) := by
    calc e = e.take key.length ++ e.drop key.length := (List.take_append_drop _ e).symm
      _ = key ++ equals :: e.drop (key.length + 1) := by
        rw [htake, List.drop_eq_getElem_cons hlt, hval]
  rw [hsplit]
  exact argName_append hkey

theorem findEnvvar_without_self {key : CStr} (hkey : equals ∉ key) (envs : List CStr) :
    findEnvvar (envs.filter fun e => argName e ≠ key) key = none := by
  induction envs with
  | nil => rfl
  | cons e envs ih =>
    by_cases he : argName e = key
    · rw [List.filter_cons_of_neg (by simpa using he)]
      exact ih
    · rw [List.filter_cons_of_pos (by simpa using he), findEnvvar,
        if_neg fun h => he (argName_of_isField hkey h)]
      exact ih

theorem findEnvvar_without {key x : CStr} (hkey : equals ∉ key) (hx : key ≠ x)
    (envs : List CStr) :
    findEnvvar (envs.filter fun e => argName e ≠ x) key = findEnvvar envs key := by
  induction envs with
  | nil => rfl
  | cons e envs ih =>
    by_cases he : argName e = x
    · have hfield : ¬isField key e = true := fun h => hx ((argName_of_isField hkey h).symm.trans he)
      rw [List.filter_cons_of_neg (by simpa using he), ih, findEnvvar, if_neg hfield]
    · rw [List.filter_cons_of_pos (by simpa using he), findEnvvar, findEnvvar, ih]

theorem lastValue_without_self (envs : List CStr) (x : CStr) :
    lastValue (envs.filter fun e => argName e ≠ x) x = none := by
  unfold lastValue
  rw [← List.filter_reverse, List.find?_filter, Option.map_eq_none_iff, List.find?_eq_none]
  simp

theorem lastValue_without {k x : CStr} (hx : k ≠ x) (envs : List CStr) :
    lastValue (envs.filter fun e => argName e ≠ x) k = lastValue envs k := by
  unfold lastValue
  rw [← List.filter_reverse, List.find?_filter]
  congr 2
  funext e
  by_cases he : argName e = k
  · simp [he, hx]
  · simp [he]

theorem without_of_none {cfg : GuiConfig} {x : CStr} (h : lastValue cfg.envvars x = none) :
    without x cfg = cfg := by
  have hall : cfg.envvars.filter (fun e => argName e ≠ x) = cfg.envvars := by
    rw [List.filter_eq_self]
    intro e he
    have hne := List.find?_eq_none.mp (Option.map_eq_none_iff.mp h) e (List.mem_reverse.mpr he)
    simpa using hne
  unfold without
  rw [hall]

theorem without_accepted {cfg : GuiConfig} (h : Accepted cfg) (x : CStr) :
    Accepted (without x cfg) :=
  fun e he => h e (List.mem_of_mem_filter he)

theorem detectedDisplay_ne (ctx : GuiCtx) (n : Int) : detectedDisplay ctx n ≠ some [] := by
  unfold detectedDisplay
  cases hdisplay : (ctx.guestDisplay.or ctx.hostDisplay).bind given with
  | some v =>
    obtain ⟨w, -, hw⟩ := Option.bind_eq_some_iff.mp hdisplay
    rw [Option.some_or]
    exact fun h => given_ne w (hw.trans h)
  | none =>
    rw [Option.none_or]
    split <;> simp [lit]

theorem detection_default_ne (host : HostView) (ctx : GuiCtx) (g : Gui) (xrd : CStr) (uid : UInt32)
    (x : CStr) : (detection host ctx g xrd uid).default x ≠ some [] := by
  unfold Detection.default
  split
  · exact detectedDisplay_ne ctx g.guestX11num
  · split
    · split
      · exact given_ne xrd
      · simp
    · split
      · split
        · exact given_ne _
        · simp
      · simp

theorem inherited_ne (blob : List UInt8) (x : CStr) : inherited blob x ≠ some [] := by
  intro h
  obtain ⟨p, -, hp⟩ := List.exists_of_findSome?_eq_some h
  unfold inheritedFrom at hp
  split at hp
  · exact given_ne _ hp
  · cases hp

section

variable {s : Scene} {cfg : GuiConfig} {x : CStr}

theorem homeEnv_guiVar (hx : x ∈ guiVars) : homeEnv s cfg x = lastValue cfg.envvars x := by
  have hnames : ∀ y ∈ guiVars, y ≠ lit "HOME" ∧ y ≠ lit "PATH" ∧ y ≠ lit "TERM" ∧ y ≠ lit "LANG" := by
    decide
  obtain ⟨hhome, hpath, hterm, hlang⟩ := hnames x hx
  unfold homeEnv parsedEnv defaultValue
  rw [Function.update_of_ne hhome, if_neg hpath, if_neg hterm, if_neg hlang, Option.or_none]

theorem parsedEnv_guiVar (hx : x ∈ guiVars) : parsedEnv s cfg x = lastValue cfg.envvars x := by
  have hnames : ∀ y ∈ guiVars, y ≠ lit "HOME" := by decide
  rw [← homeEnv_guiVar (s := s) hx, homeEnv, Function.update_of_ne (hnames x hx)]

/-- What is forced in a run is what the detection has to force. -/
theorem detection_forced {g : Gui} (hgraphical : cfg.graphical = true)
    (hcreated : g.xrdCreated = xdgDetectSocks s.host (guiCtx s cfg)) {entrance : Entrance}
    (hentrance : ∀ blob, entrance ≠ .inherit blob) :
    (detection s.host (guiCtx s cfg) g (hostXdg s) s.user.uid).forced x =
      forcedValue s cfg entrance x := by
  have henv : (guiCtx s cfg).guestXrdEnv =
      (findEnvvar cfg.envvars (lit "XDG_RUNTIME_DIR")).isSome := rfl
  have hdir : (detection s.host (guiCtx s cfg) g (hostXdg s) s.user.uid).runtimeDir =
      if xdgDetectSocks s.host (guiCtx s cfg) ∧
        findEnvvar cfg.envvars (lit "XDG_RUNTIME_DIR") = none then
          some (runUser s.user.uid) else none := by
    unfold detection
    dsimp only
    rw [hcreated, henv]
    simp
  have hforced : forcedValue s cfg entrance x =
      (if x = lit "XDG_RUNTIME_DIR" ∧ xdgDetectSocks s.host (guiCtx s cfg) ∧
          findEnvvar cfg.envvars (lit "XDG_RUNTIME_DIR") = none then
        some (runUser s.user.uid) else none).or
      (if wlDetected s.host (hostXdg s) (s.host.getenv (lit "WAYLAND_DISPLAY")) then
        (wlPuts s.host).lookup x else none) := by
    unfold forcedValue
    cases entrance with
    | setup replies => exact if_pos hgraphical
    | envOnly => exact if_pos hgraphical
    | inherit blob => exact absurd rfl (hentrance blob)
  unfold Detection.forced
  rw [hforced, hdir]
  congr 1
  by_cases hx : x = lit "XDG_RUNTIME_DIR"
  · simp [hx]
  · simp [hx]

/-- A child that sets up its GUI and goes on has set it up. -/
theorem setupRun_zero (hargs : Accepted cfg) (hgraphical : cfg.graphical = true)
    {replies : List Int} {env : ChildEnv} {log : List (GuiCall × Int)}
    (hrun : guiEnv true s cfg (.setup replies) = some { env := some env, log := log }) :
    (setupRun s cfg replies).1 = 0 ∧ env.map.Holds ((detection s.host (guiCtx s cfg)
      (setupRun s cfg replies).2 (hostXdg s) s.user.uid).apply (homeEnv s cfg)) := by
  obtain ⟨o, ho, -, hexit, hgo⟩ := guiEnv_setup s hargs hgraphical replies
  rw [hrun] at ho
  have henv : o.env = some env := congrArg Outcome.env (Option.some.inj ho).symm
  have hzero : (setupRun s cfg replies).1 = 0 := by
    by_contra hne
    rw [hexit hne] at henv
    cases henv
  obtain ⟨env', henv', hholds⟩ := hgo hzero
  rw [henv] at henv'
  exact ⟨hzero, Option.some.inj henv' ▸ hholds⟩

theorem accepted_of_run {entrance : Entrance} {env : ChildEnv} {log : List (GuiCall × Int)}
    (hrun : guiEnv true s cfg entrance = some { env := some env, log := log }) : Accepted cfg := by
  by_contra hargs
  rw [guiEnv_refused s hargs] at hrun
  exact absurd (congrArg Outcome.env (Option.some.inj hrun)) (by simp)

/-- The value of a variable of the GUI after any of the three ways in. -/
theorem guiEnv_value (hx : x ∈ guiVars) {entrance : Entrance} {env : ChildEnv}
    {log : List (GuiCall × Int)}
    (hrun : guiEnv true s cfg entrance = some { env := some env, log := log }) :
    ∃ default, default ≠ some [] ∧ envMapGet env.map x =
      some ((forcedValue s cfg entrance x).or ((lastValue cfg.envvars x).or default)) := by
  have hargs := accepted_of_run hrun
  cases hgraphical : cfg.graphical with
  | false =>
    obtain ⟨env', hrun', h⟩ := guiEnv_off s hargs hgraphical entrance
    rw [hrun'] at hrun
    have henv : env' = env := Option.some.inj (congrArg Outcome.env (Option.some.inj hrun))
    have hforced : forcedValue s cfg entrance x = none := by
      unfold forcedValue
      rw [hgraphical]
      cases entrance <;> rfl
    refine ⟨none, by simp, ?_⟩
    rw [← henv, envMapGet_holds h, hforced, parsedEnv_guiVar hx, Option.or_none, Option.none_or]
  | true =>
    cases entrance with
    | setup replies =>
      obtain ⟨hzero, h⟩ := setupRun_zero hargs hgraphical hrun
      have hcreated : (setupRun s cfg replies).2.xrdCreated = xdgDetectSocks s.host (guiCtx s cfg) :=
        setupGuiMounts_created rfl rfl hzero
      have hforced : (detection s.host (guiCtx s cfg) (setupRun s cfg replies).2 (hostXdg s)
          s.user.uid).forced x = forcedValue s cfg (.setup replies) x :=
        detection_forced hgraphical hcreated fun _ h => Entrance.noConfusion h
      refine ⟨_, detection_default_ne s.host (guiCtx s cfg) (setupRun s cfg replies).2 (hostXdg s)
        s.user.uid x, ?_⟩
      rw [envMapGet_holds h, ← hforced, ← homeEnv_guiVar (s := s) hx]
      rfl
    | envOnly =>
      obtain ⟨env', hrun', h⟩ := guiEnv_envOnly s hargs hgraphical
      rw [hrun'] at hrun
      have henv : env' = env := Option.some.inj (congrArg Outcome.env (Option.some.inj hrun))
      have hforced : (detection s.host (guiCtx s cfg) (detectedGui s cfg) (hostXdg s)
          s.user.uid).forced x = forcedValue s cfg .envOnly x :=
        detection_forced hgraphical rfl fun _ h => Entrance.noConfusion h
      refine ⟨_, detection_default_ne s.host (guiCtx s cfg) (detectedGui s cfg) (hostXdg s)
        s.user.uid x, ?_⟩
      rw [← henv, envMapGet_holds h, ← hforced, ← homeEnv_guiVar (s := s) hx]
      rfl
    | inherit blob =>
      obtain ⟨env', hrun', h⟩ := guiEnv_inherit s hargs hgraphical blob
      rw [hrun'] at hrun
      have henv : env' = env := Option.some.inj (congrArg Outcome.env (Option.some.inj hrun))
      refine ⟨inherited blob x, inherited_ne blob x, ?_⟩
      rw [← henv, envMapGet_holds h, homeEnv_guiVar hx]
      rfl

/-- The names that `fill_guest_env` looks for. -/
def guestKeys : List CStr :=
  [lit "WAYLAND_DISPLAY", lit "PULSE_SERVER", lit "PULSE_COOKIE", lit "XDG_RUNTIME_DIR",
    lit "XDG_CONFIG_HOME", lit "DISPLAY"]

theorem wlPuts_guestKey {key : CStr} (hkey : key ∈ guestKeys) (host : HostView) :
    (wlPuts host).lookup key = none := by
  have hkeys : ∀ key ∈ guestKeys, key ∉ wlKeys := by decide
  exact lookup_none (wlPuts_keys host ▸ hkeys key hkey)

/-- The value that is put for a name, by the name. -/
theorem forcedValue_eq_some {entrance : Entrance} {w : CStr}
    (h : forcedValue s cfg entrance x = some w) :
    cfg.graphical = true ∧ (∀ blob, entrance ≠ .inherit blob) ∧
      ((x = lit "XDG_RUNTIME_DIR" ∧ xdgDetectSocks s.host (guiCtx s cfg) = true ∧
        findEnvvar cfg.envvars (lit "XDG_RUNTIME_DIR") = none ∧ w = runUser s.user.uid) ∨
      (wlDetected s.host (hostXdg s) (s.host.getenv (lit "WAYLAND_DISPLAY")) = true ∧
        (wlPuts s.host).lookup x = some w)) := by
  have hentrance : ∀ blob, entrance ≠ .inherit blob := by
    rintro blob rfl
    cases h
  have hbody : forcedValue s cfg entrance x = forcedValue s cfg .envOnly x := by
    cases entrance with
    | setup replies => rfl
    | envOnly => rfl
    | inherit blob => exact absurd rfl (hentrance blob)
  rw [hbody, forcedValue] at h
  split at h
  · rename_i hgraphical
    refine ⟨hgraphical, hentrance, ?_⟩
    rcases Option.or_eq_some_iff.mp h with hdir | ⟨-, hput⟩
    · left
      split at hdir
      · rename_i hcase
        exact ⟨hcase.1, hcase.2.1, hcase.2.2, (Option.some.inj hdir).symm⟩
      · cases hdir
    · right
      split at hput
      · rename_i hwl
        exact ⟨hwl, hput⟩
      · cases hput
  · cases h

/-- Where the context and the variables meet, a value is forced on the directory
only, and only when the first argument for it counts for none. -/
theorem forced_guestKey {key : CStr} (hkey : key ∈ guestKeys) {entrance : Entrance}
    (hforced : forcedValue s cfg entrance key ≠ none) : findEnvvar cfg.envvars key = none := by
  obtain ⟨w, hw⟩ := Option.ne_none_iff_exists'.mp hforced
  obtain ⟨-, -, ⟨rfl, -, hnone, -⟩ | ⟨-, hput⟩⟩ := forcedValue_eq_some hw
  · exact hnone
  · rw [wlPuts_guestKey hkey] at hput
    cases hput

theorem forced_findEnvvar {entrance : Entrance} (hforced : forcedValue s cfg entrance x ≠ none)
    {key : CStr} (hkey : key ∈ guestKeys) :
    findEnvvar (without x cfg).envvars key = findEnvvar cfg.envvars key := by
  have hequals : ∀ key ∈ guestKeys, equals ∉ key := by decide
  by_cases hx : key = x
  · subst hx
    rw [forced_guestKey hkey hforced]
    exact findEnvvar_without_self (hequals key hkey) cfg.envvars
  · exact findEnvvar_without (hequals key hkey) hx cfg.envvars

/-- A value that is forced does not depend on the arguments for its name. -/
theorem forced_guiCtx {entrance : Entrance} (hforced : forcedValue s cfg entrance x ≠ none) :
    guiCtx s (without x cfg) = guiCtx s cfg := by
  have hsame (key : CStr) (hkey : key ∈ guestKeys) := forced_findEnvvar hforced hkey
  unfold guiCtx fillGuiCtx
  rw [hsame _ (by decide), hsame _ (by decide), hsame _ (by decide), hsame _ (by decide),
    hsame _ (by decide), hsame _ (by decide)]

theorem forcedValue_same {entrance : Entrance} (hforced : forcedValue s cfg entrance x ≠ none) :
    forcedValue s (without x cfg) entrance x = forcedValue s cfg entrance x := by
  have hxrd := forced_findEnvvar hforced (show lit "XDG_RUNTIME_DIR" ∈ guestKeys by decide)
  unfold forcedValue
  rw [forced_guiCtx hforced, hxrd]
  rfl

theorem forcedValue_without {entrance entrance' : Entrance} (halike : entrance.Alike entrance')
    (hforced : forcedValue s cfg entrance x = none) :
    forcedValue s (without x cfg) entrance' x ≠ some [] := by
  intro hempty
  obtain ⟨hgraphical, hentrance, ⟨-, -, -, hdir⟩ | ⟨hwl, hput⟩⟩ := forcedValue_eq_some hempty
  · exact absurd hdir (by simp [runUser, lit])
  · have hbody : forcedValue s cfg entrance x = forcedValue s cfg .envOnly x := by
      cases entrance with
      | setup replies => rfl
      | envOnly => rfl
      | inherit blob =>
        cases entrance' with
        | inherit blob' => exact absurd rfl (hentrance blob')
        | setup replies => exact halike.elim
        | envOnly => exact halike.elim
    have hgraphical' : cfg.graphical = true := hgraphical
    rw [hbody, forcedValue, if_pos hgraphical', hwl, if_pos rfl, hput] at hforced
    exact absurd (Option.or_eq_none_iff.mp hforced).2 (by simp)

/-- Without the arguments for a name whose value is forced, the run goes the same
way. -/
theorem asWithout_of_forced (hx : x ∈ guiVars) {entrance : Entrance} {env : ChildEnv}
    {log : List (GuiCall × Int)}
    (hrun : guiEnv true s cfg entrance = some { env := some env, log := log })
    (hforced : forcedValue s cfg entrance x ≠ none) : AsWithout s cfg entrance env x := by
  have hargs := accepted_of_run hrun
  have hargs' := without_accepted hargs x
  obtain ⟨w, hw⟩ := Option.ne_none_iff_exists'.mp hforced
  obtain ⟨hgraphical, hentrance, -⟩ := forcedValue_eq_some hw
  have hhome : guestHome s (without x cfg) = guestHome s cfg := by
    have hnames : ∀ y ∈ guiVars, lit "HOME" ≠ y := by decide
    unfold guestHome
    rw [without, lastValue_without (hnames x hx)]
  have hagain : ∃ env' log', guiEnv true s (without x cfg) entrance =
      some { env := some env', log := log' } := by
    cases entrance with
    | setup replies =>
      have hsame : setupRun s (without x cfg) replies = setupRun s cfg replies := by
        unfold setupRun
        rw [forced_guiCtx hforced, hhome]
      obtain ⟨o, ho, -, -, hgo⟩ := guiEnv_setup s hargs' hgraphical replies
      rw [hsame] at hgo
      obtain ⟨env', henv', -⟩ := hgo (setupRun_zero hargs hgraphical hrun).1
      exact ⟨env', o.log, by rw [ho, ← henv']⟩
    | envOnly =>
      obtain ⟨env', hrun', -⟩ := guiEnv_envOnly s hargs' hgraphical
      exact ⟨env', [], hrun'⟩
    | inherit blob => exact absurd rfl (hentrance blob)
  obtain ⟨env', log', hrun'⟩ := hagain
  refine ⟨entrance, env', log', entrance.alike_refl, hrun', ?_⟩
  obtain ⟨_, -, hvalue⟩ := guiEnv_value hx hrun
  obtain ⟨_, -, hvalue'⟩ := guiEnv_value hx hrun'
  rw [hvalue, hvalue', forcedValue_same hforced, hw, Option.some_or, Option.some_or]

/-- The rule for explicit arguments holds exactly where no other value is forced on
a name with a last argument that is not empty, and one is forced on a name with an
empty one. -/
theorem precedence_iff (hx : x ∈ guiVars) {entrance : Entrance} {env : ChildEnv}
    {log : List (GuiCall × Int)}
    (hrun : guiEnv true s cfg entrance = some { env := some env, log := log }) :
    Precedence s cfg entrance env x ↔ Honoured s cfg entrance x := by
  obtain ⟨default, hdefault, hvalue⟩ := guiEnv_value hx hrun
  unfold Precedence Honoured
  cases hlast : lastValue cfg.envvars x with
  | none =>
    refine iff_of_true ⟨entrance, env, log, entrance.alike_refl, ?_, rfl⟩ trivial
    rw [without_of_none hlast]
    exact hrun
  | some v =>
    rw [hlast] at hvalue
    cases v with
    | nil =>
      refine ⟨fun ⟨entrance', env', log', halike, hrun', hsame⟩ hnone => ?_,
        asWithout_of_forced hx hrun⟩
      obtain ⟨default', hdefault', hvalue'⟩ := guiEnv_value hx hrun'
      have hlast' : lastValue (without x cfg).envvars x = none := lastValue_without_self _ x
      rw [hvalue, hvalue', hnone, hlast', Option.none_or, Option.none_or, Option.some_or] at hsame
      have hempty := Option.some.inj hsame
      cases hforced' : forcedValue s (without x cfg) entrance' x with
      | none =>
        rw [hforced', Option.none_or] at hempty
        exact hdefault' hempty
      | some w =>
        rw [hforced', Option.some_or] at hempty
        exact forcedValue_without halike hnone (hforced'.trans hempty)
    | cons c v =>
      dsimp only
      rw [hvalue]
      cases hforced : forcedValue s cfg entrance x with
      | none => simp
      | some w => simp

theorem precedence_iff_display : ∃ env,
    guiEnv true waylandScene { graphical := true, envvars := [lit "DISPLAY=:3"] } .envOnly =
      some { env := some env, log := [] } ∧
    Precedence waylandScene { graphical := true, envvars := [lit "DISPLAY=:3"] } .envOnly env
      (lit "DISPLAY") := by
  obtain ⟨env, hrun, -⟩ := guiEnv_envOnly waylandScene
    (show Accepted { graphical := true, envvars := [lit "DISPLAY=:3"] } by decide) rfl
  have hhonoured : Honoured waylandScene { graphical := true, envvars := [lit "DISPLAY=:3"] }
      .envOnly (lit "DISPLAY") := by
    have hforced : forcedValue waylandScene
        { graphical := true, envvars := [lit "DISPLAY=:3"] } .envOnly (lit "DISPLAY") = none := by
      decide +kernel
    intro w hw
    rw [hforced] at hw
    cases hw
  exact ⟨env, hrun, (precedence_iff (by decide) hrun).mpr hhonoured⟩

end

/-- A session type that is given gives way to the one of a detected socket. -/
theorem precedence_lost : ¬∀ s cfg, ∀ x ∈ guiVars, ∀ entrance env log,
    guiEnv true s cfg entrance = some { env := some env, log := log } →
      Precedence s cfg entrance env x := by
  intro h
  let cfg : GuiConfig := { graphical := true, envvars := [lit "XDG_SESSION_TYPE=x11"] }
  have hvalue : ((guiEnv true waylandScene cfg .envOnly).bind Outcome.env).map
      (fun env => envMapGet env.map (lit "XDG_SESSION_TYPE")) =
        some (some (some (lit "wayland"))) := by
    decide +kernel
  obtain ⟨env, henv, hget⟩ := Option.map_eq_some_iff.mp hvalue
  obtain ⟨o, ho, hoenv⟩ := Option.bind_eq_some_iff.mp henv
  have hrun : guiEnv true waylandScene cfg .envOnly = some { env := some env, log := o.log } := by
    rw [ho, ← hoenv]
  have hlast : lastValue cfg.envvars (lit "XDG_SESSION_TYPE") = some (lit "x11") := by decide
  have hkept := h waylandScene cfg (lit "XDG_SESSION_TYPE") (by decide) .envOnly env o.log hrun
  unfold Precedence at hkept
  rw [hlast] at hkept
  have heq : (some (some (lit "wayland"))) = some (some (lit "x11")) := hget.symm.trans hkept
  revert heq
  decide

end Cage.Core
