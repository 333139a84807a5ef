import Cage.Core.ChildPrecedence
import Cage.Sandbox.GuiInside

/-!
Whether the variables of the GUI say what is mounted: the mounts and the variables
are made by two tests of the host.
-/

namespace Cage.Core

open Util Sandbox Cage.Lib.Descent

/-- No argument names a variable of the GUI. -/
def NoGuiArgs (cfg : GuiConfig) : Prop := ∀ e ∈ cfg.envvars, argName e ∉ guiKeys

instance (cfg : GuiConfig) : Decidable (NoGuiArgs cfg) := inferInstanceAs (Decidable (∀ _ ∈ _, _))

/-- The set of variables that stands for a Wayland socket. -/
def waylandVars : List CStr := lit "WAYLAND_DISPLAY" :: wlKeys

/-- The place is below the directory. -/
def Below (dir l : Loc) : Prop := ∃ rest, rest ≠ [] ∧ l = dir ++ rest

/-- The directory of the sockets, in the root. -/
def runtimePlace (s : Scene) : Loc := s.root.loc ++ comps (runUser s.user.uid)

def socketsOfWayland (s : Scene) (cfg : GuiConfig) (replies : List Int) : List (CStr × CStr) :=
  waylandMounts s.host (guiCtx s cfg) (hostXdg s) (startGui replies)

def socketsOfPulse (s : Scene) (cfg : GuiConfig) (replies : List Int) : List (CStr × CStr) :=
  pulseMounts s.host (guiCtx s cfg) (hostXdg s) (startGui replies)

/-- The variables say what is mounted. -/
structure Agrees (s : Scene) (cfg : GuiConfig) (replies : List Int) (env : ChildEnv) : Prop where
  directory : (∃ v, envMapGet env.map (lit "XDG_RUNTIME_DIR") = some (some v)) ↔
    socketsOfWayland s cfg replies ≠ [] ∨ socketsOfPulse s cfg replies ≠ []
  value : socketsOfWayland s cfg replies ≠ [] ∨ socketsOfPulse s cfg replies ≠ [] →
    envMapGet env.map (lit "XDG_RUNTIME_DIR") = some (some (runUser s.user.uid))
  below : ∀ m ∈ socketsOfWayland s cfg replies ++ socketsOfPulse s cfg replies,
    Below (runtimePlace s) (resolve dots [] (comps m.2))
  present : socketsOfWayland s cfg replies ≠ [] →
    ∀ x ∈ waylandVars, ∃ v, envMapGet env.map x = some (some v)
  absent : socketsOfWayland s cfg replies = [] →
    ∀ x ∈ waylandVars, envMapGet env.map x = some none

/-- The name of the host's Wayland socket. -/
def waylandName (s : Scene) : CStr := (s.host.getenv (lit "WAYLAND_DISPLAY")).getD (lit "wayland-0")

/-- The tests before the mounts. -/
def waylandToMount (s : Scene) : Bool := s.host.exists (memPath (hostXdg s) (waylandName s)) = 0

def pulseToMount (s : Scene) : Bool :=
  match resolvePulseSrc (s.host.getenv (lit "PULSE_SERVER")) (hostXdg s) with
  | none => false
  | some src => s.host.exists src = 0

/-- The test for the Wayland variables. -/
def waylandToSet (s : Scene) : Bool :=
  wlDetected s.host (hostXdg s) (s.host.getenv (lit "WAYLAND_DISPLAY"))

/-- The host answers the two tests for a Wayland socket alike, its directory for
PulseAudio has a socket, unless there is one for Wayland, and the name of that is
not empty and leads to a place in the directory. -/
structure TestsAgree (s : Scene) : Prop where
  wayland : waylandToMount s = waylandToSet s
  pulse : paDetected s.host (hostXdg s) = true → waylandToMount s = true ∨ pulseToMount s = true
  named : waylandToMount s = true → waylandName s ≠ []
  below : waylandToMount s = true →
    Below (runtimePlace s) (resolve dots (runtimePlace s) (comps (waylandName s)))

theorem hostXdg_ne (s : Scene) : hostXdg s ≠ [] := by
  unfold hostXdg getHostXdgDir
  split
  · simp
  · split <;> simp [truncated, xdgDirBuffer, lit]

theorem lastValue_noGui {cfg : GuiConfig} (h : NoGuiArgs cfg) {x : CStr} (hx : x ∈ guiKeys) :
    lastValue cfg.envvars x = none := by
  unfold lastValue
  rw [Option.map_eq_none_iff, List.find?_eq_none]
  intro e he hname
  exact h e (List.mem_reverse.mp he) (of_decide_eq_true hname ▸ hx)

theorem findEnvvar_noGui {cfg : GuiConfig} (h : NoGuiArgs cfg) {x : CStr} (hx : x ∈ guiKeys) :
    findEnvvar cfg.envvars x = none := by
  have hequals : ∀ key ∈ guiKeys, equals ∉ key := by decide
  have hwithout := findEnvvar_without_self (hequals x hx) cfg.envvars
  have hsame : without x cfg = cfg := without_of_none (lastValue_noGui h hx)
  have henvs : cfg.envvars.filter (fun e => argName e ≠ x) = cfg.envvars :=
    congrArg GuiConfig.envvars hsame
  rwa [henvs] at hwithout

section

variable {s : Scene} {cfg : GuiConfig} (hargs : NoGuiArgs cfg)

include hargs

theorem guiCtx_pulse : (guiCtx s cfg).guestPs = none := findEnvvar_noGui hargs (by decide)

theorem guiCtx_xrd : (guiCtx s cfg).guestXrd = none := findEnvvar_noGui hargs (by decide)

theorem guiCtx_wl : (guiCtx s cfg).guestWl = none := findEnvvar_noGui hargs (by decide)

theorem created_noGui :
    xdgDetectSocks s.host (guiCtx s cfg) = (waylandToMount s || pulseToMount s) := by
  have hpulse : pulseSockPresent s.host (guiCtx s cfg) (hostXdg s) = pulseToMount s := by
    rw [pulseSockPresent_eq, guiCtx_pulse hargs, Option.isNone_none, Bool.and_true]
    rfl
  have hdetect : xdgDetectSocks s.host (guiCtx s cfg) =
      (waylandSockPresent s.host (guiCtx s cfg) (hostXdg s) ||
        pulseSockPresent s.host (guiCtx s cfg) (hostXdg s)) := rfl
  rw [hdetect, hpulse]
  rfl

end

theorem comps_runUser_plain (uid : UInt32) :
    ∀ c ∈ comps (runUser uid), c ≠ dots.here ∧ c ≠ dots.up := by
  have hdot : dot ∉ runUser uid := by
    unfold runUser
    exact fun h => (List.mem_append.mp h).elim (by decide) (noDot_unsignedStr uid)
  intro c hc
  constructor
  · rintro rfl
    exact hdot ((mem_compsFrom hc (List.mem_singleton_self dot)).resolve_left List.not_mem_nil)
  · rintro rfl
    exact hdot ((mem_compsFrom hc (show dot ∈ dots.up by decide)).resolve_left List.not_mem_nil)

theorem wlPuts_some {x : CStr} (hx : x ∈ wlKeys) (host : HostView) :
    ∃ v, (wlPuts host).lookup x = some v := by
  by_contra hnone
  have hlookup : (wlPuts host).lookup x = none := by
    by_contra hne
    exact hnone (Option.ne_none_iff_exists'.mp hne)
  rw [← wlPuts_keys host] at hx
  obtain ⟨p, hp, rfl⟩ := List.mem_map.mp hx
  exact absurd (List.lookup_eq_none_iff.mp hlookup p hp) (by simp)

section

variable {s : Scene} {cfg : GuiConfig} {replies : List Int} {env : ChildEnv}
  {log : List (GuiCall × Int)} (hargs : NoGuiArgs cfg) (hgraphical : cfg.graphical = true)
  (hrun : guiEnv true s cfg (.setup replies) = some { env := some env, log := log })

include hargs hgraphical hrun

/-- The value of a variable of the GUI without arguments for any. -/
theorem noGui_value {x : CStr} (hx : x ∈ guiVars) :
    envMapGet env.map x = some
      (((if x = lit "XDG_RUNTIME_DIR" ∧ (waylandToMount s || pulseToMount s) then
          some (runUser s.user.uid) else none).or
        (if waylandToSet s then (wlPuts s.host).lookup x else none)).or
      ((detection s.host (guiCtx s cfg) (setupRun s cfg replies).2 (hostXdg s)
        s.user.uid).default x)) := by
  have hgui : ∀ y ∈ guiVars, y ∈ guiKeys := by decide
  have hnone : homeEnv s cfg x = none := by
    rw [homeEnv_guiVar hx, lastValue_noGui hargs (hgui x hx)]
  obtain ⟨hzero, h⟩ := setupRun_zero (accepted_of_run hrun) hgraphical hrun
  have hcreated : (setupRun s cfg replies).2.xrdCreated = xdgDetectSocks s.host (guiCtx s cfg) :=
    setupGuiMounts_created rfl rfl hzero
  have hforced : (detection s.host (guiCtx s cfg) (setupRun s cfg replies).2 (hostXdg s)
      s.user.uid).forced x = forcedValue s cfg (.setup replies) x :=
    detection_forced hgraphical hcreated fun _ h => Entrance.noConfusion h
  have hxrd : findEnvvar cfg.envvars (lit "XDG_RUNTIME_DIR") = none :=
    findEnvvar_noGui hargs (by decide)
  rw [envMapGet_holds h, Detection.apply, hnone, Option.none_or, hforced, forcedValue,
    if_pos hgraphical, created_noGui hargs]
  simp only [hxrd, and_true]
  rfl

theorem noGui_directory : envMapGet env.map (lit "XDG_RUNTIME_DIR") = some
    (if waylandToMount s || pulseToMount s then some (runUser s.user.uid)
      else if waylandToSet s || paDetected s.host (hostXdg s) then some (hostXdg s) else none) := by
  have hdefault : (detection s.host (guiCtx s cfg) (setupRun s cfg replies).2 (hostXdg s)
      s.user.uid).default (lit "XDG_RUNTIME_DIR") =
      if waylandToSet s || paDetected s.host (hostXdg s) then given (hostXdg s) else none := rfl
  have hlookup : (wlPuts s.host).lookup (lit "XDG_RUNTIME_DIR") = none :=
    wlPuts_guestKey (by decide) s.host
  have hgiven : given (hostXdg s) = some (hostXdg s) := if_neg (hostXdg_ne s)
  rw [noGui_value hargs hgraphical hrun (by decide), hdefault, hlookup, hgiven]
  cases waylandToMount s || pulseToMount s <;> simp

theorem noGui_display : envMapGet env.map (lit "WAYLAND_DISPLAY") = some
    (if waylandToSet s then given (waylandName s) else none) := by
  have hdefault : (detection s.host (guiCtx s cfg) (setupRun s cfg replies).2 (hostXdg s)
      s.user.uid).default (lit "WAYLAND_DISPLAY") =
      if waylandToSet s then given (waylandName s) else none := rfl
  have hlookup : (wlPuts s.host).lookup (lit "WAYLAND_DISPLAY") = none :=
    wlPuts_guestKey (by decide) s.host
  have hne : lit "WAYLAND_DISPLAY" ≠ lit "XDG_RUNTIME_DIR" := by decide
  rw [noGui_value hargs hgraphical hrun (by decide), hdefault, hlookup, if_neg fun h => hne h.1,
    ite_self, Option.none_or, Option.none_or]

theorem noGui_wayland {x : CStr} (hx : x ∈ wlKeys) : envMapGet env.map x = some
    (if waylandToSet s then (wlPuts s.host).lookup x else none) := by
  have hgui : ∀ y ∈ wlKeys, y ∈ guiVars ∧ y ≠ lit "DISPLAY" ∧ y ≠ lit "XDG_RUNTIME_DIR" ∧
      y ≠ lit "WAYLAND_DISPLAY" := by decide
  obtain ⟨hvar, hdisplay, hxrd, hwl⟩ := hgui x hx
  have hdefault : (detection s.host (guiCtx s cfg) (setupRun s cfg replies).2 (hostXdg s)
      s.user.uid).default x = none := by
    unfold Detection.default
    rw [if_neg hdisplay, if_neg hxrd, if_neg hwl]
  rw [noGui_value hargs hgraphical hrun hvar, hdefault, if_neg fun h => hxrd h.1, Option.none_or,
    Option.or_none]

omit hargs in
theorem socketsDone : SocketsDone s.host (guiCtx s cfg) (hostXdg s) (startGui replies)
    (setupRun s cfg replies).2 :=
  setupGuiMounts_done rfl (startGui replies) _ rfl
    (setupRun_zero (accepted_of_run hrun) hgraphical hrun).1

/-- What is mounted is what is there, and where. -/
theorem noGui_waylandMounts :
    (socketsOfWayland s cfg replies ≠ [] ↔ waylandToMount s = true) ∧
    ∀ m ∈ socketsOfWayland s cfg replies, resolve dots [] (comps m.2) =
      resolve dots (runtimePlace s) (comps (waylandName s)) := by
  obtain ⟨hthere, habsent⟩ := (socketsDone hgraphical hrun).waylandMounts_eq
  cases hwl : waylandToMount s with
  | false =>
    have hnone : socketsOfWayland s cfg replies = [] := habsent hwl
    rw [hnone]
    exact ⟨by simp, fun m hm => absurd hm List.not_mem_nil⟩
  | true =>
    obtain ⟨p, hp, hmounts⟩ := hthere hwl
    have hsome : socketsOfWayland s cfg replies =
        [(memPath (hostXdg s) (waylandName s), memPath s.root.str p)] := hmounts
    have hpath : p = runUser s.user.uid ++ slash :: waylandName s := by
      have heq := waylandTarget_eq hp
      rw [guiCtx_xrd hargs, guiCtx_wl hargs] at heq
      exact heq
    rw [hsome]
    refine ⟨by simp, fun m hm => ?_⟩
    rw [List.mem_singleton.mp hm, comps_inRoot, hpath, comps_append_slash,
      resolve_root (root_plain s.root), resolve_append, resolve_plain (comps_runUser_plain _)]
    rfl

theorem noGui_pulseMounts :
    (socketsOfPulse s cfg replies ≠ [] ↔ pulseToMount s = true) ∧
    ∀ m ∈ socketsOfPulse s cfg replies, Below (runtimePlace s) (resolve dots [] (comps m.2)) := by
  obtain ⟨hthere, habsent⟩ := (socketsDone hgraphical hrun).pulseMounts_eq
  cases hps : pulseToMount s with
  | false =>
    have hnone : socketsOfPulse s cfg replies = [] := habsent hps
    rw [hnone]
    exact ⟨by simp, fun m hm => absurd hm List.not_mem_nil⟩
  | true =>
    obtain ⟨src, p, hp, hmounts⟩ := hthere hps
    have hsome : socketsOfPulse s cfg replies = [(src, memPath s.root.str p)] := hmounts
    have hpath : comps p = comps (runUser s.user.uid) ++ [lit "pulse", lit "native"] := by
      have heq := pulseTarget_comps (guiCtx_pulse hargs) hp
      rw [guiCtx_xrd hargs] at heq
      exact heq
    rw [hsome]
    refine ⟨by simp, fun m hm => ⟨[lit "pulse", lit "native"], by simp, ?_⟩⟩
    rw [List.mem_singleton.mp hm, comps_inRoot, hpath, resolve_root (root_plain s.root),
      resolve_append, resolve_plain (comps_runUser_plain _)]
    exact resolve_plain (by decide) _

/-- The variables and the mounts agree exactly on the hosts whose answers do. -/
theorem agrees_iff : Agrees s cfg replies env ↔ TestsAgree s := by
  obtain ⟨hwl, hwlPlace⟩ := noGui_waylandMounts hargs hgraphical hrun
  obtain ⟨hps, hpsPlace⟩ := noGui_pulseMounts hargs hgraphical hrun
  have hdirectory := noGui_directory hargs hgraphical hrun
  have hdisplay := noGui_display hargs hgraphical hrun
  constructor
  · intro h
    have hset : waylandToMount s = waylandToSet s := by
      cases hmount : waylandToMount s with
      | true =>
        obtain ⟨v, hv⟩ := h.present (hwl.mpr hmount) (lit "WAYLAND_DISPLAY") List.mem_cons_self
        rw [hdisplay] at hv
        cases hset : waylandToSet s with
        | true => rfl
        | false =>
          rw [hset] at hv
          exact absurd hv (by simp)
      | false =>
        have hnone : socketsOfWayland s cfg replies = [] := by
          by_contra hne
          exact Bool.noConfusion ((hwl.mp hne).symm.trans hmount)
        have hkey : lit "XDG_SESSION_TYPE" ∈ wlKeys := by decide
        have habsent := h.absent hnone (lit "XDG_SESSION_TYPE") (List.mem_cons_of_mem _ hkey)
        rw [noGui_wayland hargs hgraphical hrun hkey] at habsent
        cases hset : waylandToSet s with
        | false => rfl
        | true =>
          obtain ⟨v, hv⟩ := wlPuts_some hkey s.host
          rw [hset, if_pos rfl, hv] at habsent
          exact absurd habsent (by simp)
    refine ⟨hset, ?_, ?_, ?_⟩
    · intro hpa
      by_contra hnone
      obtain ⟨hnwl, hnps⟩ := not_or.mp hnone
      rw [Bool.eq_false_iff.mpr hnwl, Bool.eq_false_iff.mpr hnps, hpa, Bool.or_true] at hdirectory
      exact hnone ((h.directory.mp ⟨_, hdirectory⟩).imp hwl.mp hps.mp)
    · rintro hmount hempty
      obtain ⟨v, hv⟩ := h.present (hwl.mpr hmount) (lit "WAYLAND_DISPLAY") List.mem_cons_self
      rw [hdisplay, hempty] at hv
      exact absurd hv (by cases waylandToSet s <;> simp [given])
    · intro hmount
      obtain ⟨m, hm⟩ := List.exists_mem_of_ne_nil _ (hwl.mpr hmount)
      rw [← hwlPlace m hm]
      exact h.below m (List.mem_append_left _ hm)
  · intro h
    have hmounted : socketsOfWayland s cfg replies ≠ [] ∨ socketsOfPulse s cfg replies ≠ [] ↔
        (waylandToMount s || pulseToMount s) = true := by
      rw [hwl, hps, Bool.or_eq_true]
    refine ⟨?_, ?_, ?_, ?_, ?_⟩
    · rw [hmounted, hdirectory]
      cases hany : waylandToMount s || pulseToMount s with
      | true => simp
      | false =>
        obtain ⟨hnwl, hnps⟩ := Bool.or_eq_false_iff.mp hany
        have hset : waylandToSet s = false := h.wayland ▸ hnwl
        have hpa : paDetected s.host (hostXdg s) = false := by
          by_contra hpa
          rcases h.pulse (Bool.not_eq_false _ ▸ hpa) with hthere | hthere
          · exact Bool.noConfusion (hnwl.symm.trans hthere)
          · exact Bool.noConfusion (hnps.symm.trans hthere)
        simp [hset, hpa]
    · intro hsome
      rw [hdirectory, if_pos (hmounted.mp hsome)]
    · intro m hm
      rcases List.mem_append.mp hm with hm | hm
      · rw [hwlPlace m hm]
        exact h.below (hwl.mp (List.ne_nil_of_mem hm))
      · exact hpsPlace m hm
    · intro hsome x hx
      have hset : waylandToSet s = true := h.wayland ▸ hwl.mp hsome
      rcases List.mem_cons.mp hx with rfl | hx
      · rw [hdisplay, hset, if_pos rfl, given, if_neg (h.named (hwl.mp hsome))]
        exact ⟨_, rfl⟩
      · obtain ⟨v, hv⟩ := wlPuts_some hx s.host
        rw [noGui_wayland hargs hgraphical hrun hx, hset, if_pos rfl, hv]
        exact ⟨v, rfl⟩
    · intro hnone x hx
      have hset : waylandToSet s = false := by
        rw [← h.wayland]
        by_contra hmount
        exact hwl.mpr (Bool.not_eq_false _ ▸ hmount) hnone
      rcases List.mem_cons.mp hx with rfl | hx
      · rw [hdisplay, hset]
        rfl
      · rw [noGui_wayland hargs hgraphical hrun hx, hset]
        rfl

end

theorem waylandScene_agrees : TestsAgree waylandScene where
  wayland := by decide +kernel
  pulse h := absurd h (by decide +kernel)
  named _ := by decide +kernel
  below _ := ⟨[lit "wayland-0"], by decide +kernel, by decide +kernel⟩

/-- A run that goes on has an outcome with an environment. -/
theorem outcome_some {o : Option Outcome} (h : (o.bind Outcome.env).isSome = true) :
    ∃ env log, o = some { env := some env, log := log } := by
  obtain ⟨env, henv⟩ := Option.isSome_iff_exists.mp h
  obtain ⟨out, hout, hoenv⟩ := Option.bind_eq_some_iff.mp henv
  exact ⟨env, out.log, by rw [hout, ← hoenv]⟩

theorem agrees_iff_wayland : ∃ env log,
    guiEnv true waylandScene { graphical := true, envvars := [] } (.setup []) =
      some { env := some env, log := log } ∧
    Agrees waylandScene { graphical := true, envvars := [] } [] env := by
  obtain ⟨env, log, hrun⟩ := outcome_some (show ((guiEnv true waylandScene
    { graphical := true, envvars := [] } (.setup [])).bind Outcome.env).isSome = true by
      decide +kernel)
  exact ⟨env, log, hrun, (agrees_iff (by decide) rfl hrun).mpr waylandScene_agrees⟩

/-- A host with an empty directory for PulseAudio. -/
def pulseScene : Scene :=
  { waylandScene with
    host := { waylandHost with
      «exists» := fun path => if path = lit "/run/user/1000/pulse" then 0 else 1 } }

/-- The directory of the host is set, and nothing is mounted. -/
theorem agrees_not : ¬∀ s cfg replies env log, NoGuiArgs cfg → cfg.graphical = true →
    guiEnv true s cfg (.setup replies) = some { env := some env, log := log } →
      Agrees s cfg replies env := by
  intro h
  let cfg : GuiConfig := { graphical := true, envvars := [] }
  have hvalue : (((guiEnv true pulseScene cfg (.setup [])).bind Outcome.env).map
      fun env => envMapGet env.map (lit "XDG_RUNTIME_DIR")) =
        some (some (some (lit "/run/user/1000"))) := by
    decide +kernel
  obtain ⟨env, henv, hget⟩ := Option.map_eq_some_iff.mp hvalue
  obtain ⟨o, ho, hoenv⟩ := Option.bind_eq_some_iff.mp henv
  have hrun : guiEnv true pulseScene cfg (.setup []) = some { env := some env, log := o.log } := by
    rw [ho, ← hoenv]
  have hagrees := h pulseScene cfg [] env o.log (by decide) rfl hrun
  rcases hagrees.directory.mp ⟨_, hget⟩ with hsome | hsome
  · exact hsome (by decide +kernel)
  · exact hsome (by decide +kernel)

end Cage.Core
