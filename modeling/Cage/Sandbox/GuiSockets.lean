import Cage.Sandbox.GuiRules

/-!
The sockets that the set-up mounts when it succeeds, and the note that it makes
of the directory for them.
-/

namespace Cage.Sandbox

open Util Cage.Lib.Hoare

/-- What has been mounted, and where. -/
def Gui.mounts (g : Gui) : List (CStr × CStr) :=
  g.log.filterMap fun e =>
    match e with
    | (.mount src target, 0) => some (src, target)
    | _ => none

/-- What `m` mounts from `g` on. -/
def mountsIn (m : GuiM Int) (g : Gui) : List (CStr × CStr) :=
  (m g).2.mounts.drop g.mounts.length

def SocksAt (created : Bool) (mounts : List (CStr × CStr)) (g : Gui) : Prop :=
  g.xrdCreated = created ∧ g.mounts = mounts

/-- Not a mount. -/
def GuiCall.Plain (c : GuiCall) : Prop := ∀ src target, c ≠ .mount src target

theorem at_kept (created : Bool) (mounts : List (CStr × CStr)) :
    Kept (SocksAt created mounts) GuiCall.Plain where
  call c hc g hg := by
    refine ⟨hg.1, ?_⟩
    have hlog : (perform c g).2.log = g.log ++ [(c, g.replies.headD 0)] := rfl
    unfold Gui.mounts
    rw [hlog, List.filterMap_append]
    have hnone : (match ((c, g.replies.headD 0) : GuiCall × Int) with
        | (.mount src target, 0) => some (src, target)
        | _ => none) = none := by
      cases c with
      | mount src target => exact absurd rfl (hc src target)
      | _ => rfl
    rw [List.filterMap_cons, hnone, List.filterMap_nil, List.append_nil]
    exact hg.2
  home _ hg := hg
  x11num _ _ hg := hg

theorem created_kept (created : Bool) : Kept (fun g => g.xrdCreated = created) fun _ => True where
  call _ _ _ hg := hg
  home _ hg := hg
  x11num _ _ hg := hg

section

variable {created : Bool} {mounts : List (CStr × CStr)} {host : HostView} {ctx : GuiCtx}

theorem mount_at (src target : CStr) :
    Triple (SocksAt created mounts) (perform (.mount src target)) fun r g =>
      r = 0 → SocksAt created (mounts ++ [(src, target)]) g := by
  intro g hg hzero
  refine ⟨hg.1, ?_⟩
  have hlog : (perform (.mount src target) g).2.log =
      g.log ++ [(.mount src target, g.replies.headD 0)] := rfl
  have hhead : g.replies.headD 0 = 0 := hzero
  unfold Gui.mounts
  rw [hlog, hhead, List.filterMap_append]
  exact congrArg (· ++ [(src, target)]) hg.2

/-- A result other than 0 says nothing. -/
theorem pure_failed {P : Gui → Prop} {Q : Gui → Prop} {r : Int} (h : r ≠ 0) :
    Triple P (pure r : GuiM Int) fun r g => r = 0 → Q g :=
  Triple.pure fun _ _ hzero => absurd hzero h

theorem thenDo_both {P Q R : Gui → Prop} {a b : GuiM Int}
    (ha : Triple P a fun r g => r = 0 → Q g) (hb : Triple Q b fun r g => r = 0 → R g) :
    Triple P (thenDo a b) fun r g => r = 0 → R g := by
  refine Triple.bind ha fun r => Triple.ite (fun hzero => ?_) fun hr => pure_failed hr
  exact fun g hg => hb g (hg hzero)

theorem mountFileAcl_at (target src : CStr) :
    Triple (SocksAt created mounts) (mountFileAcl ctx target src) fun r g =>
      r = 0 → SocksAt created (mounts ++ [(src, memPath ctx.root.str target)]) g := by
  have hplain : PermitsTarget GuiCall.Plain target :=
    ⟨fun _ _ _ _ _ _ _ => GuiCall.noConfusion, fun _ _ _ _ => GuiCall.noConfusion⟩
  have hfile : Triple (SocksAt created mounts) (mountFile ctx target src ctx.uid ctx.gid)
      fun r g => r = 0 → SocksAt created (mounts ++ [(src, memPath ctx.root.str target)]) g := by
    refine Triple.bind (ensureMountTarget_keeps (at_kept created mounts) hplain
      (fun _ _ => GuiCall.noConfusion) _ _) fun r => ?_
    refine Triple.ite (fun _ => pure_failed (by decide)) fun _ => ?_
    refine Triple.bind (mount_at src (memPath ctx.root.str target)) fun r => ?_
    refine Triple.ite (fun _ => pure_failed (by decide)) fun hzero => ?_
    exact Triple.pure fun g hg _ => hg (not_not.mp hzero)
  refine Triple.bind hfile fun r => Triple.ite (fun hr => pure_failed hr) fun hzero => ?_
  intro g hg _
  exact (at_kept _ _).call (.aclGuestSet _ _ _ _) (fun _ _ => GuiCall.noConfusion) g
    (hg (not_not.mp hzero))

theorem setXrdCreated_at :
    Triple (SocksAt created mounts) setXrdCreated fun _ => SocksAt true mounts :=
  fun _ hg => ⟨rfl, hg.2⟩

theorem createGuestXdgRoot_at :
    Triple (SocksAt created mounts) (createGuestXdgRoot ctx)
      fun r g => (r = none → SocksAt created mounts g) ∧ (r ≠ none → SocksAt true mounts g) := by
  have hplain (dir : CStr) : PermitsXdg GuiCall.Plain ctx dir :=
    ⟨fun _ _ _ _ _ => GuiCall.noConfusion, fun _ _ _ _ _ _ _ _ => GuiCall.noConfusion⟩
  have hnone : Triple (SocksAt created mounts) (pure none : GuiM (Option CStr))
      fun r g => (r = none → SocksAt created mounts g) ∧ (r ≠ none → SocksAt true mounts g) :=
    Triple.pure fun _ hg => ⟨fun _ => hg, fun h => absurd rfl h⟩
  unfold createGuestXdgRoot
  cases fillXdg ctx xdgBuffer with
  | none => exact hnone
  | some dir =>
    refine Triple.bind (xdgDirs_keeps (at_kept created mounts) (hplain dir)) fun r => ?_
    refine Triple.ite (fun _ => hnone) fun _ => Triple.bind setXrdCreated_at fun _ => ?_
    exact Triple.pure fun _ hg => ⟨fun h => absurd h (by simp), fun _ => hg⟩

theorem touchTarget_at (target : CStr) :
    Keeps (SocksAt created mounts) (touchTarget ctx target) :=
  (at_kept created mounts).call _ fun _ _ => GuiCall.noConfusion

theorem ensureTargetPresent_at (target : CStr) :
    Triple (SocksAt created mounts) (ensureTargetPresent ctx target)
      fun _ => SocksAt true mounts := by
  have hmake : Triple (SocksAt created mounts) (makeTarget ctx target)
      fun _ g => g.mounts = mounts := by
    refine Triple.bind createGuestXdgRoot_at fun r => ?_
    cases r with
    | none => exact fun _ hg => (hg.1 rfl).2
    | some xdg => exact fun g hg => (touchTarget_at target g (hg.2 (by simp))).2
  have hmark : Triple (fun g => g.mounts = mounts) setXrdCreated fun _ => SocksAt true mounts :=
    fun _ hg => ⟨rfl, hg⟩
  refine Triple.bind ((at_kept created mounts).call _ fun _ _ => GuiCall.noConfusion) fun e => ?_
  refine Triple.ite (fun _ => ?_) fun _ => ?_
  · exact Triple.bind hmake fun r => Triple.bind hmark fun _ => Triple.pure fun _ hg => hg
  · exact Triple.bind setXrdCreated_at fun _ => Triple.pure fun _ hg => hg

theorem ensureWaylandTarget_at (wn : CStr) :
    Triple (SocksAt created mounts) (ensureWaylandTarget ctx wn)
      fun r g => r ≠ none → SocksAt true mounts g := by
  have hnone {P : Gui → Prop} : Triple P (pure none : GuiM (Option CStr))
      fun r g => r ≠ none → SocksAt true mounts g :=
    Triple.pure fun _ _ h => absurd rfl h
  unfold ensureWaylandTarget
  cases fillXdg ctx xdgBuffer with
  | none => exact hnone
  | some dir =>
    refine Triple.ite (fun _ => ?_) fun _ => hnone
    refine Triple.bind (ensureTargetPresent_at _) fun r => Triple.ite (fun _ => ?_) fun _ => hnone
    exact Triple.pure fun _ hg _ => hg

theorem ensurePulseTarget_at (target : CStr) :
    Triple (SocksAt created mounts) (ensurePulseTarget ctx target)
      fun r g => r = 0 → SocksAt (created || ctx.guestPs.isNone) mounts g := by
  have hdefault : Triple (SocksAt created mounts) (ensureGuestXdgPulse ctx)
      fun r g => r = 0 → SocksAt true mounts g := by
    refine Triple.bind createGuestXdgRoot_at fun xdg => ?_
    cases xdg with
    | none => exact pure_failed (by decide)
    | some xdg =>
      intro g hg _
      exact (at_kept true mounts).call _ (fun _ _ => GuiCall.noConfusion) g (hg.2 (by simp))
  have htouch (c : Bool) : Triple (SocksAt c mounts) (touchTarget ctx target)
      fun r g => r = 0 → SocksAt c mounts g := fun g hg _ => touchTarget_at target g hg
  refine Triple.bind ((at_kept created mounts).call _ fun _ _ => GuiCall.noConfusion) fun e => ?_
  cases hps : ctx.guestPs with
  | none =>
    rw [Option.isNone_none, Bool.or_true]
    refine Triple.ite (fun _ => ?_) fun _ => ?_
    · exact thenDo_both hdefault (htouch true)
    · exact Triple.bind setXrdCreated_at fun _ => Triple.pure fun _ hg _ => hg
  | some ps =>
    rw [Option.isNone_some, Bool.or_false]
    refine Triple.ite (fun _ => ?_) fun _ => Triple.pure fun _ hg _ => hg
    refine thenDo_both (Q := SocksAt created mounts) ?_ (htouch created)
    cases beforeLastSlash (memPath ctx.root.str target) with
    | none => exact Triple.pure fun _ hg _ => hg
    | some len =>
      exact fun g hg _ => (at_kept created mounts).call _ (fun _ _ => GuiCall.noConfusion) g hg

/-- A Wayland socket of the host is mounted, and there is a directory for it. -/
theorem mountWayland_at (xrd : CStr) :
    Triple (SocksAt created mounts) (mountWayland host ctx xrd (hostWayland ctx)) fun r g => r = 0 →
      (waylandSockPresent host ctx xrd = true → ∃ p, waylandTarget ctx = some p ∧ SocksAt true
        (mounts ++ [(memPath xrd (hostWayland ctx), memPath ctx.root.str p)]) g) ∧
      (waylandSockPresent host ctx xrd = false → SocksAt created mounts g) := by
  refine Triple.ite (fun habsent => ?_) fun hthere => ?_
  · exact Triple.pure fun g hg _ => ⟨fun h => absurd (of_decide_eq_true h) habsent, fun _ => hg⟩
  · have hpresent : waylandSockPresent host ctx xrd = true := decide_eq_true (not_not.mp hthere)
    have htarget : Triple (SocksAt created mounts)
        (ensureWaylandTarget ctx (ctx.guestWl.getD (hostWayland ctx))) fun r g =>
          ∀ p, r = some p → waylandTarget ctx = some p ∧ SocksAt true mounts g := by
      intro g hg p hp
      obtain ⟨dir, hfill, hfits, hdir⟩ := ensureWaylandTarget_value _ g trivial p hp
      refine ⟨?_, ensureWaylandTarget_at _ g hg (by rw [hp]; simp)⟩
      unfold waylandTarget
      rw [hfill, Option.bind_some, if_pos hfits, hdir]
    refine Triple.bind htarget fun r => ?_
    cases r with
    | none => exact pure_failed (by decide)
    | some p =>
      intro g hg hzero
      obtain ⟨hp, hcreated⟩ := hg p rfl
      refine ⟨fun _ => ⟨p, hp, mountFileAcl_at p _ g hcreated hzero⟩, fun h => ?_⟩
      exact absurd hpresent (Bool.eq_false_iff.mp h)

/-- So is a PulseAudio socket, but a directory of its own does not count. -/
theorem mountPulse_at (xrd : CStr) :
    Triple (SocksAt created mounts) (mountPulse host ctx xrd) fun r g => r = 0 →
      (pulseThere host ctx xrd = true → ∃ src p, resolvePulseSrc ctx.hostPs xrd = some src ∧
        pulseTarget ctx = some p ∧ SocksAt (created || ctx.guestPs.isNone)
          (mounts ++ [(src, memPath ctx.root.str p)]) g) ∧
      (pulseThere host ctx xrd = false → SocksAt created mounts g) := by
  unfold mountPulse pulseThere
  cases resolvePulseSrc ctx.hostPs xrd with
  | none => exact Triple.pure fun _ hg _ => ⟨fun h => Bool.noConfusion h, fun _ => hg⟩
  | some src =>
    refine Triple.ite (fun habsent => ?_) fun hthere => ?_
    · exact Triple.pure fun _ hg _ => ⟨fun h => absurd (of_decide_eq_true h) habsent, fun _ => hg⟩
    · cases pulseTarget ctx with
      | none => exact pure_failed (by decide)
      | some target =>
        have hrun : Triple (SocksAt created mounts)
            (thenDo (ensurePulseTarget ctx target) (mountFileAcl ctx target src)) fun r g => r = 0 →
              SocksAt (created || ctx.guestPs.isNone)
                (mounts ++ [(src, memPath ctx.root.str target)]) g :=
          thenDo_both (ensurePulseTarget_at target) (mountFileAcl_at target src)
        intro g hg hzero
        refine ⟨fun _ => ⟨src, target, rfl, rfl, hrun g hg hzero⟩, fun h => ?_⟩
        exact absurd (not_not.mp hthere) (of_decide_eq_false h)

/-- The states of a set-up before the two sockets and between them. -/
def beforeWayland (host : HostView) (ctx : GuiCtx) (g : Gui) : Gui := (mountX11 host ctx g).2

def beforePulse (host : HostView) (ctx : GuiCtx) (xrd : CStr) (g : Gui) : Gui :=
  (mountWayland host ctx xrd (hostWayland ctx) (beforeWayland host ctx g)).2

/-- The parts of a set-up that starts from `g` and succeeds. -/
structure SocketsDone (host : HostView) (ctx : GuiCtx) (xrd : CStr) (g s : Gui) : Prop where
  wayland : (mountWayland host ctx xrd (hostWayland ctx) (beforeWayland host ctx g)).1 = 0
  pulse : (mountPulse host ctx xrd (beforePulse host ctx xrd g)).1 = 0
  created : s.xrdCreated = (mountPulse host ctx xrd (beforePulse host ctx xrd g)).2.xrdCreated

theorem setupGuiMounts_done {home : CStr} {xrd : CStr} (hxrd : ctx.hostXrd = some xrd) (g : Gui) :
    Triple (fun s => s = g) (setupGuiMounts host ctx (some home)) fun r s =>
      r = 0 → SocketsDone host ctx xrd g s := by
  have hself {A : Type} (m : GuiM A) (g : Gui) :
      Triple (fun s => s = g) m fun r s => r = (m g).1 ∧ s = (m g).2 := by
    rintro s rfl
    exact ⟨rfl, rfl⟩
  have hsocks : Triple (fun s => s = beforeWayland host ctx g) (mountXdgSocks host ctx)
      fun r s => r = 0 → SocketsDone host ctx xrd g s := by
    unfold mountXdgSocks
    rw [hxrd]
    refine Triple.bind (hself _ _) fun r => ?_
    refine Triple.bind (Q := fun p s => r = (mountWayland host ctx xrd (hostWayland ctx)
      (beforeWayland host ctx g)).1 ∧ p = (mountPulse host ctx xrd (beforePulse host ctx xrd g)).1 ∧
        s = (mountPulse host ctx xrd (beforePulse host ctx xrd g)).2) ?_ fun p => ?_
    · rintro s ⟨hr, rfl⟩
      exact ⟨hr, rfl, rfl⟩
    · refine Triple.ite (fun _ => pure_failed (by decide)) fun hzero => Triple.pure ?_
      rintro s ⟨hr, hp, hs⟩ hr0
      exact ⟨hr ▸ hr0, hp ▸ not_not.mp hzero, congrArg Gui.xrdCreated hs⟩
  have huser (s₀ : Gui) : Keeps (fun s => s.xrdCreated = s₀.xrdCreated)
      (mountUserHome host ctx (some home)) :=
    have hpermits : PermitsAll (fun _ => True) host ctx home := permitsAll_true home
    mountUserHome_keeps (created_kept _) trivial hpermits.xauthority (fun _ => hpermits.homeDir)
      hpermits.cookie
  refine Triple.ite (fun _ => pure_failed (by decide)) fun _ => ?_
  refine Triple.bind (hself _ g) fun r => Triple.ite (fun _ => pure_failed (by decide)) fun _ => ?_
  refine Triple.bind (Q := fun r s => r = 0 → SocketsDone host ctx xrd g s) ?_ fun r => ?_
  · rintro s ⟨-, rfl⟩
    exact hsocks _ rfl
  · refine Triple.ite (fun _ => pure_failed (by decide)) fun hzero s hs _ => ?_
    have hdone := hs (not_not.mp hzero)
    exact ⟨hdone.wayland, hdone.pulse, (huser s s rfl).trans hdone.created⟩

theorem pulseSockPresent_eq (xrd : CStr) :
    pulseSockPresent host ctx xrd = (pulseThere host ctx xrd && ctx.guestPs.isNone) := by
  unfold pulseSockPresent pulseThere
  cases ctx.guestPs with
  | none => exact (Bool.and_true _).symm
  | some ps => exact (Bool.and_false _).symm

theorem mountX11_created (g : Gui) :
    (beforeWayland host ctx g).xrdCreated = g.xrdCreated := by
  have hpermits : PermitsAll (fun _ => True) host ctx [] := permitsAll_true []
  exact mountX11_keeps (created_kept g.xrdCreated) hpermits.hostAcl hpermits.x11 hpermits.x11Node
    trivial g rfl

/-- The mounts of the two sockets, each after what is mounted before it. -/
def waylandMounts (host : HostView) (ctx : GuiCtx) (xrd : CStr) (g : Gui) : List (CStr × CStr) :=
  mountsIn (mountWayland host ctx xrd (hostWayland ctx)) (beforeWayland host ctx g)

def pulseMounts (host : HostView) (ctx : GuiCtx) (xrd : CStr) (g : Gui) : List (CStr × CStr) :=
  mountsIn (mountPulse host ctx xrd) (beforePulse host ctx xrd g)

section

variable {xrd : CStr} {g s : Gui} (h : SocketsDone host ctx xrd g s)

include h

theorem SocketsDone.wayland_created (hfresh : g.xrdCreated = false) :
    (beforePulse host ctx xrd g).xrdCreated = waylandSockPresent host ctx xrd := by
  have hstart : SocksAt false (beforeWayland host ctx g).mounts (beforeWayland host ctx g) :=
    ⟨(mountX11_created g).trans hfresh, rfl⟩
  obtain ⟨hthere, habsent⟩ := mountWayland_at xrd _ hstart h.wayland
  cases hwl : waylandSockPresent host ctx xrd with
  | true =>
    obtain ⟨p, -, hat⟩ := hthere hwl
    exact hat.1
  | false => exact (habsent hwl).1

theorem SocketsDone.created_eq (hfresh : g.xrdCreated = false) :
    s.xrdCreated = (waylandSockPresent host ctx xrd || pulseSockPresent host ctx xrd) := by
  have hstart : SocksAt (waylandSockPresent host ctx xrd) (beforePulse host ctx xrd g).mounts
      (beforePulse host ctx xrd g) := ⟨h.wayland_created hfresh, rfl⟩
  obtain ⟨hthere, habsent⟩ := mountPulse_at xrd _ hstart h.pulse
  rw [h.created, pulseSockPresent_eq]
  cases hps : pulseThere host ctx xrd with
  | true =>
    obtain ⟨src, p, -, -, hat⟩ := hthere hps
    rw [Bool.true_and]
    exact hat.1
  | false =>
    rw [Bool.false_and, Bool.or_false]
    exact (habsent hps).1

/-- The Wayland socket is mounted if and only if the host has it. -/
theorem SocketsDone.waylandMounts_eq :
    (waylandSockPresent host ctx xrd = true → ∃ p, waylandTarget ctx = some p ∧
      waylandMounts host ctx xrd g =
        [(memPath xrd (hostWayland ctx), memPath ctx.root.str p)]) ∧
    (waylandSockPresent host ctx xrd = false → waylandMounts host ctx xrd g = []) := by
  have hstart : SocksAt (beforeWayland host ctx g).xrdCreated (beforeWayland host ctx g).mounts
      (beforeWayland host ctx g) := ⟨rfl, rfl⟩
  obtain ⟨hthere, habsent⟩ := mountWayland_at xrd _ hstart h.wayland
  constructor
  · intro hwl
    obtain ⟨p, hp, -, hmounts⟩ := hthere hwl
    refine ⟨p, hp, ?_⟩
    unfold waylandMounts mountsIn
    rw [hmounts, List.drop_left]
  · intro hwl
    unfold waylandMounts mountsIn
    rw [(habsent hwl).2, List.drop_length]

theorem SocketsDone.pulseMounts_eq :
    (pulseThere host ctx xrd = true → ∃ src p, pulseTarget ctx = some p ∧
      pulseMounts host ctx xrd g = [(src, memPath ctx.root.str p)]) ∧
    (pulseThere host ctx xrd = false → pulseMounts host ctx xrd g = []) := by
  have hstart : SocksAt (beforePulse host ctx xrd g).xrdCreated (beforePulse host ctx xrd g).mounts
      (beforePulse host ctx xrd g) := ⟨rfl, rfl⟩
  obtain ⟨hthere, habsent⟩ := mountPulse_at xrd _ hstart h.pulse
  constructor
  · intro hps
    obtain ⟨src, p, -, hp, -, hmounts⟩ := hthere hps
    refine ⟨src, p, hp, ?_⟩
    unfold pulseMounts mountsIn
    rw [hmounts, List.drop_left]
  · intro hps
    unfold pulseMounts mountsIn
    rw [(habsent hps).2, List.drop_length]

end

/-- The note of the directory, after a set-up that succeeds, is what
`xdg_detect_socks` makes of the host. -/
theorem setupGuiMounts_created {home : CStr} {xrd : CStr} (hxrd : ctx.hostXrd = some xrd)
    {g : Gui} (hfresh : g.xrdCreated = false)
    (hzero : (setupGuiMounts host ctx (some home) g).1 = 0) :
    (setupGuiMounts host ctx (some home) g).2.xrdCreated = xdgDetectSocks host ctx := by
  have hdone : SocketsDone host ctx xrd g (setupGuiMounts host ctx (some home) g).2 :=
    setupGuiMounts_done hxrd g g rfl hzero
  rw [hdone.created_eq hfresh, xdgDetectSocks, hxrd]

end

end Cage.Sandbox
