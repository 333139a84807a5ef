import Cage.Core.ChildCorrect
import Cage.Sandbox.GuiSockets
import Cage.Util.Decimal
import Cage.Util.Slashes

/-!
Which sockets of the host `-G` takes: the documented resolution of the Wayland
and of the PulseAudio socket, and the paths that the set-up binds and that a
re-entry looks for.
-/

namespace Cage.Core

open Util Sandbox

/-- The variables of the host that decide on the sockets. -/
structure HostVars where
  xdgRuntimeDir : Option CStr
  sudoUid : Option CStr
  waylandDisplay : Option CStr
  pulseServer : Option CStr

def hostVarsOf (host : HostView) : HostVars where
  xdgRuntimeDir := host.getenv (lit "XDG_RUNTIME_DIR")
  sudoUid := host.getenv (lit "SUDO_UID")
  waylandDisplay := host.getenv (lit "WAYLAND_DISPLAY")
  pulseServer := host.getenv (lit "PULSE_SERVER")

/-- A value that is neither unset nor empty, or the default: `${v:-d}`. -/
def orDefault (v : Option CStr) (d : CStr) : CStr :=
  match v with
  | some (c :: s) => c :: s
  | some [] | none => d

def documentedDir (v : HostVars) (ruid : UInt32) : CStr :=
  orDefault v.xdgRuntimeDir (lit "/run/user/" ++ orDefault v.sudoUid (unsignedStr ruid))

def documentedWayland (v : HostVars) (ruid : UInt32) : CStr :=
  documentedDir v ruid ++ slash :: orDefault v.waylandDisplay (lit "wayland-0")

/-- The first `unix:` path of a list of servers. -/
def unixPath (servers : CStr) : Option CStr := (servers.splitOnP isSpace).findSome? afterUnix

def documentedPulse (v : HostVars) (ruid : UInt32) : CStr :=
  ((v.pulseServer.bind unixPath).getD (documentedDir v ruid ++ lit "/pulse/native"))

/-- Repeated slashes make no difference to what is there. -/
def SlashBlind (host : HostView) : Prop :=
  ∀ p q, SamePath p q → host.exists p = host.exists q

/-- What has been mounted is the socket at `src`, if it is there. -/
def Takes (mounts : List (CStr × CStr)) (host : HostView) (src : CStr) : Prop :=
  if host.exists src = 0 then ∃ p target, mounts = [(p, target)] ∧ SamePath p src
  else mounts = []

/-- The set-up binds the documented sockets and the re-entry tests the same; for a
server that `-e` gives, no socket is put into the runtime directory. -/
structure TakesDocumented (s : Scene) (cfg : GuiConfig) : Prop where
  wayland : ∀ g, (mountWayland s.host (guiCtx s cfg) (hostXdg s)
      (hostWayland (guiCtx s cfg)) g).1 = 0 →
    Takes (mountsIn (mountWayland s.host (guiCtx s cfg) (hostXdg s)
      (hostWayland (guiCtx s cfg))) g) s.host (documentedWayland (hostVarsOf s.host) s.ruid)
  pulse : ∀ g, (mountPulse s.host (guiCtx s cfg) (hostXdg s) g).1 = 0 →
    Takes (mountsIn (mountPulse s.host (guiCtx s cfg) (hostXdg s)) g) s.host
      (documentedPulse (hostVarsOf s.host) s.ruid)
  detected : xdgDetectSocks s.host (guiCtx s cfg) = true ↔
    s.host.exists (documentedWayland (hostVarsOf s.host) s.ruid) = 0 ∨
      (guiCtx s cfg).guestPs = none ∧
        s.host.exists (documentedPulse (hostVarsOf s.host) s.ruid) = 0

/-- The runtime directory is found: given, or made of a `SUDO_UID` that is not empty
and fits, but for slashes at its end. -/
def DirFound (v : HostVars) : Prop :=
  (∃ c x, v.xdgRuntimeDir = some (c :: x)) ∨ v.sudoUid = none ∨
    ∃ c u, v.sudoUid = some (c :: u) ∧ ∀ d ∈ (c :: u).drop 53, d = slash

/-- The server is none, one `unix:` path, or the default socket without `unix:`. -/
def ServerFound (v : HostVars) (ruid : UInt32) : Prop :=
  v.pulseServer = none ∨ (∃ path, v.pulseServer = some (lit "unix:" ++ path) ∧ ∀ c ∈ path, isSpace c = false) ∨
    ∃ server, v.pulseServer = some server ∧ unixPath server = none ∧
      SamePath server (documentedDir v ruid ++ lit "/pulse/native")

/-- The bytes of a path that are no slashes. -/
def weight (p : CStr) : Nat := (p.filter (· ≠ slash)).length

theorem weight_of_same {p q : CStr} (h : SamePath p q) : weight p = weight q :=
  congrArg List.length h.filter

theorem weight_append (p q : CStr) : weight (p ++ q) = weight p + weight q := by
  simp [weight]

theorem weight_eq_zero_iff {p : CStr} : weight p = 0 ↔ ∀ c ∈ p, c = slash := by
  simp [weight]

theorem unsignedStr_length (n : UInt32) : (unsignedStr n).length ≤ 10 := by
  have hstr : unsignedStr n = intStr n.toNat := rfl
  rw [hstr, intStr_nat, List.length_map]
  refine (Nat.length_toDigits_le_iff (by decide) (by decide)).mpr ?_
  have hlt := n.toNat_lt
  omega

theorem weight_unsignedStr (n : UInt32) : 0 < weight (unsignedStr n) := by
  refine Nat.pos_of_ne_zero fun hzero => ?_
  obtain ⟨c, hc⟩ := List.exists_mem_of_ne_nil _ (intStr_ne_nil n.toNat)
  have hslash : c = slash := weight_eq_zero_iff.mp hzero c hc
  have hdigit := isDigit_of_mem_intStr hc
  rw [hslash] at hdigit
  exact absurd hdigit (by decide)

section

variable (v : HostVars) (ruid : UInt32)

/-- `get_host_xdg_dir` of the variables. -/
def foundDir : CStr :=
  match v.xdgRuntimeDir with
  | some (c :: x) => c :: x
  | _ =>
      match v.sudoUid with
      | some su => truncated xdgDirBuffer (lit "/run/user/" ++ su)
      | none => truncated xdgDirBuffer (lit "/run/user/" ++ unsignedStr ruid)

theorem hostXdg_eq (s : Scene) : hostXdg s = foundDir (hostVarsOf s.host) s.ruid := rfl

theorem truncated_runUser (su : CStr) :
    truncated xdgDirBuffer (lit "/run/user/" ++ su) = lit "/run/user/" ++ su.take 53 := by
  unfold truncated xdgDirBuffer
  rw [List.take_append]
  rfl

theorem foundDir_same (h : DirFound v) :
    SamePath (foundDir v ruid ++ [slash]) (documentedDir v ruid ++ [slash]) := by
  obtain ⟨xdg, sudoUid, wl, ps⟩ := v
  unfold foundDir documentedDir orDefault
  rcases xdg with _ | (_ | ⟨c, x⟩)
  case some.cons => rfl
  all_goals
    dsimp only
    rcases h with ⟨c, x, h⟩ | h | ⟨c, u, h, hslashes⟩
    · cases h
    · obtain rfl : sudoUid = none := h
      dsimp only
      rw [truncated_runUser, List.take_of_length_le (by have := unsignedStr_length ruid; omega)]
    · obtain rfl : sudoUid = some (c :: u) := h
      dsimp only
      rw [truncated_runUser]
      conv_rhs => rw [← List.take_append_drop 53 (c :: u)]
      simp only [List.append_assoc]
      exact .append rfl (.append rfl (samePath_slashes hslashes []).symm)

theorem foundDir_weight_le : weight (foundDir v ruid) ≤ weight (documentedDir v ruid) := by
  obtain ⟨xdg, sudoUid, wl, ps⟩ := v
  unfold foundDir documentedDir orDefault
  rcases xdg with _ | (_ | ⟨c, x⟩)
  case some.cons => exact Nat.le_refl _
  all_goals
    dsimp only
    rcases sudoUid with _ | (_ | ⟨c, u⟩)
    · dsimp only
      rw [truncated_runUser, List.take_of_length_le (by have := unsignedStr_length ruid; omega)]
    · dsimp only
      rw [truncated_runUser, weight_append, weight_append]
      exact Nat.add_le_add_left (Nat.zero_le _) _
    · dsimp only
      rw [truncated_runUser, weight_append, weight_append]
      conv_rhs => rw [← List.take_append_drop 53 (c :: u), weight_append]
      omega

/-- A directory that is not found has lost a byte. -/
theorem foundDir_weight_lt (h : ¬ DirFound v) :
    weight (foundDir v ruid) < weight (documentedDir v ruid) := by
  obtain ⟨xdg, sudoUid, wl, ps⟩ := v
  unfold foundDir documentedDir orDefault
  rcases xdg with _ | (_ | ⟨c, x⟩)
  case some.cons => exact absurd (.inl ⟨c, x, rfl⟩) h
  all_goals
    dsimp only
    rcases sudoUid with _ | (_ | ⟨c, u⟩)
    · exact absurd (.inr (.inl rfl)) h
    · dsimp only
      rw [truncated_runUser, weight_append, weight_append]
      exact Nat.add_lt_add_left (weight_unsignedStr ruid) _
    · dsimp only
      rw [truncated_runUser, weight_append, weight_append]
      conv_rhs => rw [← List.take_append_drop 53 (c :: u), weight_append]
      have hpos : 0 < weight ((c :: u).drop 53) := by
        refine Nat.pos_of_ne_zero fun hzero => h (.inr (.inr ⟨c, u, rfl, ?_⟩))
        exact weight_eq_zero_iff.mp hzero
      omega

/-- `mount_wayland` looks at the documented path, exactly if the directory is found
and the name is not empty. -/
theorem foundWayland_same_iff :
    SamePath (memPath (foundDir v ruid) (v.waylandDisplay.getD (lit "wayland-0")))
        (documentedWayland v ruid) ↔ DirFound v ∧ v.waylandDisplay ≠ some [] := by
  have hjoin := samePath_memPath (foundDir v ruid) (v.waylandDisplay.getD (lit "wayland-0"))
  have hslash (d w : CStr) : weight (d ++ slash :: w) = weight d + weight w := by
    rw [weight_append]
    rfl
  constructor
  · intro h
    have hweight := weight_of_same (hjoin.symm.trans h)
    unfold documentedWayland at hweight
    rw [hslash, hslash] at hweight
    have hle := foundDir_weight_le v ruid
    have hname : weight (v.waylandDisplay.getD (lit "wayland-0")) ≤
        weight (orDefault v.waylandDisplay (lit "wayland-0")) := by
      rcases v.waylandDisplay with _ | (_ | ⟨c, w⟩)
      · exact Nat.le_refl _
      · exact Nat.zero_le _
      · exact Nat.le_refl _
    constructor
    · by_contra hdir
      have hlt := foundDir_weight_lt v ruid hdir
      omega
    · intro hempty
      have hlost : weight (v.waylandDisplay.getD (lit "wayland-0")) <
          weight (orDefault v.waylandDisplay (lit "wayland-0")) := by
        rw [hempty]
        decide
      omega
  · rintro ⟨hdir, hname⟩
    have hsame : v.waylandDisplay.getD (lit "wayland-0") =
        orDefault v.waylandDisplay (lit "wayland-0") := by
      rcases hwl : v.waylandDisplay with _ | (_ | ⟨c, w⟩)
      · rfl
      · exact absurd hwl hname
      · rfl
    refine hjoin.trans ?_
    unfold documentedWayland
    rw [hsame, List.append_cons, List.append_cons (documentedDir v ruid)]
    exact (foundDir_same v ruid hdir).append rfl

theorem afterUnix_append (path : CStr) : afterUnix (lit "unix:" ++ path) = some path := rfl

theorem afterUnix_eq {server path : CStr} (h : afterUnix server = some path) :
    server = lit "unix:" ++ path := by
  unfold afterUnix at h
  split at h
  · rename_i htake
    cases h
    rw [← htake, List.take_append_drop]
  · cases h

theorem not_space_of_mem_splitOnP {s e : CStr} (h : e ∈ s.splitOnP isSpace) :
    ∀ c ∈ e, isSpace c = false := by
  induction s generalizing e with
  | nil => simp_all
  | cons d s ih =>
    rw [List.splitOnP_cons_eq_if_modifyHead] at h
    split at h
    · rcases List.mem_cons.mp h with rfl | h
      · simp
      · exact ih h
    · rename_i hd
      cases hsplit : s.splitOnP isSpace with
      | nil => exact absurd hsplit (List.splitOnP_ne_nil _ _)
      | cons f fs =>
        rw [hsplit] at h ih
        rcases List.mem_cons.mp h with rfl | h
        · intro c hc
          rcases List.mem_cons.mp hc with rfl | hc
          · exact Bool.eq_false_iff.mpr hd
          · exact ih (List.mem_cons_self ..) c hc
        · exact ih (List.mem_cons_of_mem f h)

theorem unixPath_not_space {server path : CStr} (h : unixPath server = some path) :
    ∀ c ∈ path, isSpace c = false := by
  obtain ⟨e, he, hafter⟩ := List.exists_of_findSome?_eq_some h
  rw [afterUnix_eq hafter] at he
  exact fun c hc => not_space_of_mem_splitOnP he c (List.mem_append_right _ hc)

theorem unixPath_single {server : CStr} (h : ∀ c ∈ server, isSpace c = false) :
    unixPath server = afterUnix server := by
  unfold unixPath
  rw [List.splitOnP_eq_singleton h]
  cases hafter : afterUnix server <;> simp [hafter]

/-- A server that starts with `unix:` has a `unix:` path. -/
theorem unixPath_ne_none (path : CStr) : unixPath (lit "unix:" ++ path) ≠ none := by
  have hunix : ∀ c ∈ lit "unix:", isSpace c = false := by decide +kernel
  have hfront : ∀ c ∈ lit "unix:" ++ path.takeWhile (!isSpace ·), isSpace c = false := by
    intro c hc
    rcases List.mem_append.mp hc with hc | hc
    · exact hunix c hc
    · simpa using List.mem_takeWhile_imp hc
  cases hrest : path.dropWhile (!isSpace ·) with
  | nil =>
    have hall : path.takeWhile (!isSpace ·) = path := by
      have hsplit := List.takeWhile_append_dropWhile (p := (!isSpace ·)) (l := path)
      rwa [hrest, List.append_nil] at hsplit
    rw [hall] at hfront
    rw [unixPath_single hfront, afterUnix_append]
    simp
  | cons c rest =>
    have hc : isSpace c = true := by
      have hhead := List.head?_dropWhile_not (!isSpace ·) path
      rw [hrest] at hhead
      simpa using hhead
    unfold unixPath
    conv in path => rw [← List.takeWhile_append_dropWhile (p := (!isSpace ·)) (l := path), hrest]
    rw [← List.append_assoc, List.splitOnP_append_cons_of_forall_mem hfront c hc,
      List.findSome?_cons, afterUnix_append]
    simp

theorem not_same_of_space {p q : CStr} (hp : ∃ c ∈ p, isSpace c = true)
    (hq : ∀ c ∈ q, isSpace c = false) : ¬ SamePath p q := by
  intro h
  obtain ⟨c, hc, hspace⟩ := hp
  have hne : c ≠ slash := by
    rintro rfl
    exact absurd hspace (by decide)
  have hmem : c ∈ p.filter (· ≠ slash) := List.mem_filter.mpr ⟨hc, decide_eq_true hne⟩
  rw [h.filter] at hmem
  rw [hq c (List.mem_filter.mp hmem).1] at hspace
  exact absurd hspace (by decide)

/-- Once the directory is found, the server is the documented one in these cases. -/
theorem foundPulse_same_iff (hdir : DirFound v) :
    (∃ src, resolvePulseSrc v.pulseServer (foundDir v ruid) = some src ∧
      SamePath src (documentedPulse v ruid)) ↔ ServerFound v ruid := by
  have hnative : SamePath (foundDir v ruid ++ lit "/pulse/native")
      (documentedDir v ruid ++ lit "/pulse/native") := by
    have hcut (d : CStr) : d ++ lit "/pulse/native" = d ++ [slash] ++ lit "pulse/native" := by
      rw [List.append_assoc]
      rfl
    rw [hcut, hcut]
    exact (foundDir_same v ruid hdir).append rfl
  unfold ServerFound documentedPulse resolvePulseSrc
  cases hps : v.pulseServer with
  | none => exact iff_of_true ⟨_, rfl, hnative⟩ (.inl rfl)
  | some server =>
    dsimp only [Option.bind_some]
    constructor
    · rintro ⟨src, hsrc, hsame⟩
      refine .inr ?_
      cases hafter : afterUnix server with
      | some path =>
        obtain rfl := afterUnix_eq hafter
        rw [hafter] at hsrc
        obtain rfl : path = src := Option.some.inj hsrc
        refine .inl ⟨path, rfl, ?_⟩
        obtain ⟨p, hp⟩ := Option.ne_none_iff_exists'.mp (unixPath_ne_none path)
        rw [hp, Option.getD_some] at hsame
        by_contra hspace
        refine not_same_of_space ?_ (unixPath_not_space hp) hsame
        simpa using hspace
      | none =>
        rw [hafter] at hsrc
        dsimp only at hsrc
        split at hsrc
        · obtain rfl : server = src := Option.some.inj hsrc
          cases hunix : unixPath server with
          | none =>
            rw [hunix] at hsame
            exact .inr ⟨server, rfl, hunix, hsame⟩
          | some p =>
            rw [hunix, Option.getD_some] at hsame
            refine absurd hsame (not_same_of_space ?_ (unixPath_not_space hunix))
            by_contra hspace
            have hall : ∀ c ∈ server, isSpace c = false := by simpa using hspace
            rw [unixPath_single hall, hafter] at hunix
            cases hunix
        · cases hsrc
    · rintro (h | ⟨path, h, hspace⟩ | ⟨server', h, hunix, hsame⟩)
      · cases h
      · obtain rfl : server = lit "unix:" ++ path := Option.some.inj h
        have hall : ∀ c ∈ lit "unix:" ++ path, isSpace c = false := fun c hc =>
          (List.mem_append.mp hc).elim
            ((show ∀ c ∈ lit "unix:", isSpace c = false by decide +kernel) c) (hspace c)
        refine ⟨path, rfl, ?_⟩
        rw [unixPath_single hall, afterUnix_append]
        rfl
      · obtain rfl : server = server' := Option.some.inj h
        rw [hunix, Option.getD_none]
        have hnone : afterUnix server = none := by
          cases hafter : afterUnix server with
          | none => rfl
          | some path =>
            rw [afterUnix_eq hafter] at hunix
            exact absurd hunix (unixPath_ne_none path)
        have hslash : slash ∈ server := by
          refine hsame.symm.mem_slash (List.mem_append_right _ ?_)
          decide
        rw [hnone]
        dsimp only
        rw [if_pos hslash]
        exact ⟨server, rfl, hsame⟩

end

section

variable {s : Scene} {cfg : GuiConfig}

theorem takes_of_mounts {ms : List (CStr × CStr)} {host : HostView} (hblind : SlashBlind host)
    {src p : CStr} (hsame : SamePath p src)
    (hthere : host.exists p = 0 → ∃ target, ms = [(p, target)])
    (habsent : host.exists p ≠ 0 → ms = []) : Takes ms host src := by
  unfold Takes
  rw [← hblind p src hsame]
  split
  · rename_i h
    obtain ⟨target, hms⟩ := hthere h
    exact ⟨p, target, hms, hsame⟩
  · rename_i h
    exact habsent h

theorem mountsIn_wayland {g : Gui} (hdone : (mountWayland s.host (guiCtx s cfg) (hostXdg s)
    (hostWayland (guiCtx s cfg)) g).1 = 0) :
    let p := memPath (hostXdg s) (hostWayland (guiCtx s cfg))
    let ms := mountsIn (mountWayland s.host (guiCtx s cfg) (hostXdg s)
      (hostWayland (guiCtx s cfg))) g
    (s.host.exists p = 0 → ∃ target, ms = [(p, target)]) ∧ (s.host.exists p ≠ 0 → ms = []) := by
  obtain ⟨hthere, habsent⟩ := mountWayland_at (hostXdg s) g ⟨rfl, rfl⟩ hdone
  refine ⟨fun h => ?_, fun h => ?_⟩
  · obtain ⟨target, -, hat⟩ := hthere (decide_eq_true h)
    refine ⟨memPath (guiCtx s cfg).root.str target, ?_⟩
    unfold mountsIn
    rw [hat.2, List.drop_left]
  · unfold mountsIn
    rw [(habsent (decide_eq_false h)).2, List.drop_length]

theorem mountsIn_pulse {src : CStr} (hsrc : resolvePulseSrc (guiCtx s cfg).hostPs (hostXdg s) =
    some src) {g : Gui} (hdone : (mountPulse s.host (guiCtx s cfg) (hostXdg s) g).1 = 0) :
    let ms := mountsIn (mountPulse s.host (guiCtx s cfg) (hostXdg s)) g
    (s.host.exists src = 0 → ∃ target, ms = [(src, target)]) ∧
      (s.host.exists src ≠ 0 → ms = []) := by
  obtain ⟨hthere, habsent⟩ := mountPulse_at (hostXdg s) g ⟨rfl, rfl⟩ hdone
  have hpulse : pulseThere s.host (guiCtx s cfg) (hostXdg s) = decide (s.host.exists src = 0) := by
    unfold pulseThere
    rw [hsrc]
  rw [hpulse] at hthere habsent
  refine ⟨fun h => ?_, fun h => ?_⟩
  · obtain ⟨src', target, hsrc', -, hat⟩ := hthere (decide_eq_true h)
    obtain rfl := Option.some.inj (hsrc.symm.trans hsrc')
    refine ⟨memPath (guiCtx s cfg).root.str target, ?_⟩
    unfold mountsIn
    rw [hat.2, List.drop_left]
  · unfold mountsIn
    rw [(habsent (decide_eq_false h)).2, List.drop_length]

theorem takesDocumented_of_found (hblind : SlashBlind s.host)
    (hdir : DirFound (hostVarsOf s.host))
    (hname : (hostVarsOf s.host).waylandDisplay ≠ some [])
    (hserver : ServerFound (hostVarsOf s.host) s.ruid) : TakesDocumented s cfg := by
  have hwayland := (foundWayland_same_iff (hostVarsOf s.host) s.ruid).mpr ⟨hdir, hname⟩
  obtain ⟨src, hsrc, hpulse⟩ :=
    (foundPulse_same_iff (hostVarsOf s.host) s.ruid hdir).mpr hserver
  rw [← hostXdg_eq] at hwayland hsrc
  refine ⟨fun g hdone => ?_, fun g hdone => ?_, ?_⟩
  · obtain ⟨hthere, habsent⟩ := mountsIn_wayland hdone
    exact takes_of_mounts hblind hwayland hthere habsent
  · obtain ⟨hthere, habsent⟩ := mountsIn_pulse hsrc hdone
    exact takes_of_mounts hblind hpulse hthere habsent
  · have hdetect : xdgDetectSocks s.host (guiCtx s cfg) =
        (waylandSockPresent s.host (guiCtx s cfg) (hostXdg s) ||
          pulseSockPresent s.host (guiCtx s cfg) (hostXdg s)) := rfl
    have hthere : pulseThere s.host (guiCtx s cfg) (hostXdg s) =
        decide (s.host.exists src = 0) := by
      unfold pulseThere
      rw [show (guiCtx s cfg).hostPs = (hostVarsOf s.host).pulseServer from rfl, hsrc]
    have hwl : waylandSockPresent s.host (guiCtx s cfg) (hostXdg s) = true ↔
        s.host.exists (documentedWayland (hostVarsOf s.host) s.ruid) = 0 := by
      unfold waylandSockPresent
      rw [decide_eq_true_eq, ← hblind _ _ hwayland]
      rfl
    rw [hdetect, Bool.or_eq_true, pulseSockPresent_eq, hthere, Bool.and_eq_true,
      decide_eq_true_eq, Option.isNone_iff_eq_none, hblind _ _ hpulse, hwl, and_comm]

end

/-- A host with one socket. -/
def oneSocket (v : HostVars) (socket : CStr) : HostView where
  getenv k :=
    if k = lit "XDG_RUNTIME_DIR" then v.xdgRuntimeDir
    else if k = lit "SUDO_UID" then v.sudoUid
    else if k = lit "WAYLAND_DISPLAY" then v.waylandDisplay
    else if k = lit "PULSE_SERVER" then v.pulseServer
    else none
  «exists» p := if SamePath p socket then 0 else 1
  isdir _ := 1
  access _ := false
  x11Dir := none

theorem hostVarsOf_oneSocket (v : HostVars) (socket : CStr) :
    hostVarsOf (oneSocket v socket) = v := rfl

theorem slashBlind_oneSocket (v : HostVars) (socket : CStr) : SlashBlind (oneSocket v socket) := by
  intro p q h
  exact if_congr ⟨h.symm.trans, h.trans⟩ rfl rfl

def socketScene (v : HostVars) (ruid : UInt32) (socket : CStr) : Scene :=
  { waylandScene with host := oneSocket v socket, ruid := ruid }

def plainConfig : GuiConfig := { graphical := true, envvars := [] }

/-- Doing nothing does not take a socket that is there. -/
theorem not_takes_of_idle {m : GuiM Int} (hm : m = pure 0) {host : HostView} {src : CStr}
    (hthere : host.exists src = 0) (g : Gui) :
    ¬ ((m g).1 = 0 → Takes (mountsIn m g) host src) := by
  subst hm
  intro h
  have htakes := h rfl
  unfold Takes at htakes
  rw [if_pos hthere] at htakes
  obtain ⟨p, target, hms, -⟩ := htakes
  have hnone : mountsIn (pure 0) g = [] := List.drop_length
  rw [hnone] at hms
  cases hms

/-- If the one socket of the host, at the documented place, is taken, the set-up has
looked there. -/
theorem wayland_looked_at {v : HostVars} {ruid : UInt32}
    (h : TakesDocumented (socketScene v ruid (documentedWayland v ruid)) plainConfig) :
    SamePath (memPath (foundDir v ruid) (v.waylandDisplay.getD (lit "wayland-0")))
      (documentedWayland v ruid) := by
  by_contra hother
  refine not_takes_of_idle ?_ (if_pos rfl) (startGui []) (h.wayland (startGui []))
  refine if_pos ?_
  have habsent : (oneSocket v (documentedWayland v ruid)).exists
      (memPath (foundDir v ruid) (v.waylandDisplay.getD (lit "wayland-0"))) = 1 := if_neg hother
  exact fun hzero => absurd (habsent.symm.trans hzero) (by decide)

theorem pulse_looked_at {v : HostVars} {ruid : UInt32}
    (h : TakesDocumented (socketScene v ruid (documentedPulse v ruid)) plainConfig) :
    ∃ src, resolvePulseSrc v.pulseServer (foundDir v ruid) = some src ∧
      SamePath src (documentedPulse v ruid) := by
  by_contra hother
  refine not_takes_of_idle ?_ (if_pos rfl) (startGui []) (h.pulse (startGui []))
  have hps : (guiCtx (socketScene v ruid (documentedPulse v ruid)) plainConfig).hostPs =
      v.pulseServer := rfl
  have hdir : hostXdg (socketScene v ruid (documentedPulse v ruid)) = foundDir v ruid := rfl
  unfold mountPulse
  rw [hps, hdir]
  cases hsrc : resolvePulseSrc v.pulseServer (foundDir v ruid) with
  | none => rfl
  | some src =>
    refine if_pos ?_
    have habsent : (oneSocket v (documentedPulse v ruid)).exists src = 1 :=
      if_neg fun hsame => hother ⟨src, hsrc, hsame⟩
    exact fun hzero => absurd (habsent.symm.trans hzero) (by decide)

/-- The set-up and the re-entry take the documented sockets for these values of the
variables, whatever else the host, the guest and the arguments are, and for no
others. -/
theorem takesDocumented_iff (v : HostVars) (ruid : UInt32) :
    (∀ (s : Scene) (cfg : GuiConfig), hostVarsOf s.host = v → s.ruid = ruid →
      SlashBlind s.host → TakesDocumented s cfg) ↔
      DirFound v ∧ v.waylandDisplay ≠ some [] ∧ ServerFound v ruid := by
  constructor
  · intro h
    have htakes (socket : CStr) : TakesDocumented (socketScene v ruid socket) plainConfig :=
      h _ _ (hostVarsOf_oneSocket v socket) rfl (slashBlind_oneSocket v socket)
    obtain ⟨hdir, hname⟩ := (foundWayland_same_iff v ruid).mp (wayland_looked_at (htakes _))
    exact ⟨hdir, hname, (foundPulse_same_iff v ruid hdir).mp (pulse_looked_at (htakes _))⟩
  · rintro ⟨hdir, hname, hserver⟩ s cfg rfl rfl hblind
    exact takesDocumented_of_found hblind hdir hname hserver

/-- With `SUDO_UID=`, `WAYLAND_DISPLAY=` or `PULSE_SERVER=` the documented socket is
left out. -/
theorem empty_values_missed :
    (¬ TakesDocumented (socketScene ⟨none, some [], none, none⟩ 1000
      (lit "/run/user/1000/wayland-0")) plainConfig) ∧
    (¬ TakesDocumented (socketScene ⟨none, none, some [], none⟩ 1000
      (lit "/run/user/1000/wayland-0")) plainConfig) ∧
    ¬ ∀ (s : Scene) (cfg : GuiConfig), SlashBlind s.host → TakesDocumented s cfg := by
  have hsudo : documentedWayland ⟨none, some [], none, none⟩ 1000 =
      lit "/run/user/1000/wayland-0" := by decide
  have hempty : documentedWayland ⟨none, none, some [], none⟩ 1000 =
      lit "/run/user/1000/wayland-0" := by decide
  refine ⟨fun h => ?_, fun h => ?_, fun h => ?_⟩
  · rw [← hsudo] at h
    exact absurd (wayland_looked_at h) (by decide)
  · rw [← hempty] at h
    exact absurd (wayland_looked_at h) (by decide)
  · obtain ⟨src, hsrc, -⟩ := pulse_looked_at (h
      (socketScene ⟨none, none, none, some []⟩ 1000 _) plainConfig
      (slashBlind_oneSocket _ _))
    have hnone : resolvePulseSrc (some []) (foundDir ⟨none, none, none, some []⟩ 1000) = none := rfl
    exact absurd (hnone.symm.trans hsrc) (by simp)

end Cage.Core
