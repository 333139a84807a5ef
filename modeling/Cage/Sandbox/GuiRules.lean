import Cage.Lib.Hoare
import Cage.Sandbox.GuiMounts

/-!
Rules for the set-up of the GUI: what every permitted call keeps, a function
that makes permitted calls only keeps.
-/

namespace Cage.Sandbox

open Util Cage.Lib.Hoare

/-- Where the Wayland socket is mounted, if its name fits. -/
def waylandTarget (ctx : GuiCtx) : Option CStr :=
  (fillXdg ctx xdgBuffer).bind fun dir =>
    let p := dir ++ slash :: ctx.guestWl.getD (hostWayland ctx)
    if fits p waylandBuffer then some p else none

/-- The PulseAudio socket of the host is there. -/
def pulseThere (host : HostView) (ctx : GuiCtx) (xrd : CStr) : Bool :=
  match resolvePulseSrc ctx.hostPs xrd with
  | none => false
  | some src => host.exists src = 0

/-- `P` survives the calls that `Ok` permits, and the notes that the set-up makes
for itself. -/
structure Kept (P : Gui → Prop) (Ok : GuiCall → Prop) : Prop where
  call : ∀ c, Ok c → Keeps P (perform c)
  home : Keeps P setGuestHomeUsed
  x11num : ∀ n, Keeps P (setGuestX11num n)

/-- Every call so far is permitted. -/
def AllOk (Ok : GuiCall → Prop) (g : Gui) : Prop := ∀ e ∈ g.log, Ok e.1

theorem allOk_kept (Ok : GuiCall → Prop) : Kept (AllOk Ok) Ok where
  call c hc g hg e he := by
    rcases List.mem_append.mp he with hold | hnew
    · exact hg e hold
    · rw [List.mem_singleton.mp hnew]
      exact hc
  home _ hg := hg
  x11num _ _ hg := hg

/-- `Ok` permits what it takes to make the file `sub`. -/
structure PermitsTarget (Ok : GuiCall → Prop) (sub : CStr) : Prop where
  parents : ∀ dir uid gid mode, parentOf sub = some dir → Ok (.mkdirParentsAt dir uid gid mode)
  touchAt : ∀ uid gid, Ok (.touchAt sub uid gid)

/-- `Ok` permits what a mount on `sub` takes. -/
structure Permits (Ok : GuiCall → Prop) (ctx : GuiCtx) (sub : CStr) : Prop extends
    PermitsTarget Ok sub where
  mount : ∀ src, Ok (.mount src (memPath ctx.root.str sub))
  acl : ∀ uid gid groups, Ok (.aclGuestSet (memPath ctx.root.str sub) uid gid groups)

section

variable {P : Gui → Prop} {Ok : GuiCall → Prop} {host : HostView} {ctx : GuiCtx}

theorem thenDo_keeps {a b : GuiM Int} (ha : Keeps P a) (hb : Keeps P b) : Keeps P (thenDo a b) :=
  Keeps.bind ha fun r => Keeps.ite (fun _ => hb) fun _ => Keeps.pure r

theorem makeParents_keeps {mkdir : CStr → GuiM Int} {rel : CStr}
    (h : ∀ dir, parentOf rel = some dir → Keeps P (mkdir dir)) :
    Keeps P (makeParents mkdir rel) := by
  unfold makeParents
  cases hdir : parentOf rel with
  | none => exact Keeps.pure 0
  | some dir => exact h dir hdir

theorem ensureMountTarget_keeps (h : Kept P Ok) {sub : CStr} (hsub : PermitsTarget Ok sub)
    (hroot : Ok (.openRoot ctx.root.str)) (uid gid : UInt32) :
    Keeps P (ensureMountTarget ctx sub uid gid) := by
  refine Keeps.bind (h.call _ hroot) fun rootfd => Keeps.ite (fun _ => Keeps.pure _) fun _ => ?_
  refine thenDo_keeps (makeParents_keeps fun dir hdir => ?_) (h.call _ (hsub.touchAt uid gid))
  exact h.call _ (hsub.parents dir uid gid 0o755 hdir)

theorem mountFile_keeps (h : Kept P Ok) {sub : CStr} (hsub : Permits Ok ctx sub)
    (hroot : Ok (.openRoot ctx.root.str)) (src : CStr) (uid gid : UInt32) :
    Keeps P (mountFile ctx sub src uid gid) := by
  refine Keeps.bind (ensureMountTarget_keeps h hsub.toPermitsTarget hroot uid gid) fun r =>
    Keeps.ite (fun _ => Keeps.pure _) fun _ => ?_
  refine Keeps.bind (h.call _ (hsub.mount src)) fun r => ?_
  exact Keeps.ite (fun _ => Keeps.pure _) fun _ => Keeps.pure _

theorem mountFileAcl_keeps (h : Kept P Ok) {sub : CStr} (hsub : Permits Ok ctx sub)
    (hroot : Ok (.openRoot ctx.root.str)) (src : CStr) :
    Keeps P (mountFileAcl ctx sub src) := by
  refine Keeps.bind (mountFile_keeps h hsub hroot src ctx.uid ctx.gid) fun r => ?_
  exact Keeps.ite (fun _ => Keeps.pure r) fun _ => h.call _ (hsub.acl _ _ _)

theorem ensureDir_keeps (h : Kept P Ok) {path : CStr} (hexists : Ok (.exists path))
    (hisdir : Ok (.isdir path)) (hmkdir : Ok (.mkdir path)) : Keeps P (ensureDir path) := by
  refine Keeps.bind (h.call _ hexists) fun e => Keeps.ite (fun _ => h.call _ hmkdir) fun _ => ?_
  refine Keeps.ite (fun _ => Keeps.pure _) fun _ => Keeps.bind (h.call _ hisdir) fun d => ?_
  refine Keeps.ite (fun _ => Keeps.pure _) fun _ => ?_
  exact Keeps.ite (fun _ => Keeps.pure _) fun _ => Keeps.pure _

/-- `Ok` permits what `mount_bind` on `sub` takes. -/
structure PermitsBind (Ok : GuiCall → Prop) (ctx : GuiCtx) (sub : CStr) : Prop where
  «exists» : Ok (.exists (memPath ctx.root.str sub))
  isdir : Ok (.isdir (memPath ctx.root.str sub))
  mkdir : Ok (.mkdir (memPath ctx.root.str sub))
  mount : ∀ src, Ok (.mount src (memPath ctx.root.str sub))

theorem mountBind_keeps (h : Kept P Ok) {sub : CStr} (hsub : PermitsBind Ok ctx sub)
    (src : CStr) : Keeps P (mountBind ctx.root.str sub src) := by
  refine Keeps.bind (ensureDir_keeps h hsub.exists hsub.isdir hsub.mkdir) fun r =>
    Keeps.ite (fun _ => Keeps.pure _) fun _ => ?_
  refine Keeps.bind (h.call _ (hsub.mount src)) fun r => ?_
  exact Keeps.ite (fun _ => Keeps.pure _) fun _ => Keeps.pure _

theorem setX11AclsFrom_keeps (h : Kept P Ok)
    (hacl : ∀ path uid gid groups, Ok (.aclSet path uid gid groups)) (dispN : Int)
    (es : List DirEntry) : Keeps P (setX11AclsFrom ctx dispN es) := by
  induction es with
  | nil => exact Keeps.pure 0
  | cons e es ih =>
    refine Keeps.ite (fun _ => ?_) fun _ => ih
    have hsock : Keeps P (setSockAcl ctx e.name) :=
      Keeps.ite (fun _ => h.call _ (hacl _ _ _ _)) fun _ => Keeps.pure _
    exact Keeps.bind hsock fun r => Keeps.ite (fun _ => Keeps.pure _) fun _ => ih

theorem setX11Acls_keeps (h : Kept P Ok)
    (hacl : ∀ path uid gid groups, Ok (.aclSet path uid gid groups)) (dispN : Int) :
    Keeps P (setX11Acls host ctx dispN) := by
  unfold setX11Acls
  cases host.x11Dir with
  | none => exact Keeps.pure 0
  | some es => exact setX11AclsFrom_keeps h hacl dispN es

theorem mountX11_keeps (h : Kept P Ok)
    (hacl : ∀ path uid gid groups, Ok (.aclSet path uid gid groups))
    (hbind : PermitsBind Ok ctx (lit "tmp/.X11-unix"))
    (hnode : ∀ n, Permits Ok ctx (lit "tmp/.X11-unix/X" ++ intStr n))
    (hroot : Ok (.openRoot ctx.root.str)) : Keeps P (mountX11 host ctx) := by
  have hsocket (hostN guestN : Int) : Keeps P (mountX11Socket host ctx hostN guestN) := by
    refine Keeps.ite (fun _ => ?_) fun _ => mountFileAcl_keeps h (hnode guestN) hroot _
    refine Keeps.bind (mountBind_keeps h hbind x11Dir) fun r => ?_
    exact Keeps.ite (fun _ => Keeps.pure _) fun _ => setX11Acls_keeps h hacl guestN
  unfold mountX11
  cases resolveX11Pair host ctx with
  | none => exact Keeps.pure 0
  | some pair =>
    obtain ⟨hostN, guestN⟩ := pair
    refine Keeps.bind (hsocket hostN guestN) fun r => ?_
    refine Keeps.ite (fun _ => Keeps.pure _) fun _ => ?_
    exact Keeps.bind (h.x11num guestN) fun _ => Keeps.pure _

/-- `Ok` permits what the cookie at `rel` takes. -/
structure PermitsCookie (Ok : GuiCall → Prop) (ctx : GuiCtx) (rel : CStr) : Prop where
  parents : ∀ dir uid gid mode, parentOf (skipSlashes rel) = some dir →
    Ok (.mkdirOwnAt dir uid gid mode)
  touchAt : ∀ uid gid, Ok (.touchAt (skipSlashes rel) uid gid)
  permits : Permits Ok ctx rel

theorem prepareCookieDirs_keeps (h : Kept P Ok) (hroot : Ok (.openRoot ctx.root.str))
    {rel : CStr} (hrel : memPathEscapes rel = false → PermitsCookie Ok ctx rel) :
    Keeps P (prepareCookieDirs ctx rel) := by
  refine Keeps.ite (fun _ => Keeps.pure _) fun hstays => ?_
  have hpermits := hrel (Bool.eq_false_iff.mpr hstays)
  refine Keeps.bind (h.call _ hroot) fun rootfd => Keeps.ite (fun _ => Keeps.pure _) fun _ => ?_
  refine thenDo_keeps (makeParents_keeps fun dir hdir => ?_) (h.call _ (hpermits.touchAt _ _))
  exact h.call _ (hpermits.parents dir _ _ _ hdir)

theorem ensureGuestHomeIfNeeded_keeps (h : Kept P Ok) (hroot : Ok (.openRoot ctx.root.str))
    {home : CStr} (hhome : memPathEscapes home = false →
      ∀ uid gid mode, Ok (.mkdirParentsAt (skipSlashes home) uid gid mode)) :
    Keeps P (ensureGuestHomeIfNeeded ctx home) := by
  have hensure : Keeps P (ensureGuestHome ctx home) := by
    refine Keeps.ite (fun _ => Keeps.pure _) fun hstays => ?_
    refine Keeps.bind (h.call _ hroot) fun rootfd => ?_
    refine Keeps.ite (fun _ => Keeps.pure _) fun _ => ?_
    exact h.call _ (hhome (Bool.eq_false_iff.mpr hstays) _ _ _)
  refine Keeps.bind (m := get) (fun _ hs => hs) fun g => ?_
  refine Keeps.ite (fun _ => Keeps.pure _) fun _ => ?_
  exact Keeps.bind h.home fun _ => hensure

theorem thenDo_run (a b : GuiM Int) (g : Gui) :
    thenDo a b g = if (a g).1 = 0 then b (a g).2 else a g := by
  have hrun : thenDo a b g = ((if (a g).1 = 0 then b else pure (a g).1) : GuiM Int) (a g).2 := rfl
  rw [hrun]
  split <;> rfl

theorem mountCookie_keeps (h : Kept P Ok) (hroot : Ok (.openRoot ctx.root.str))
    {home : CStr} (hhome : memPathEscapes home = false →
      ∀ uid gid mode, Ok (.mkdirParentsAt (skipSlashes home) uid gid mode))
    (hcookie : memPathEscapes (resolveGuestCookiePath ctx home) = false →
      PermitsCookie Ok ctx (resolveGuestCookiePath ctx home)) (hostHome : CStr) :
    Keeps P (mountCookie host ctx hostHome home) := by
  have hdirs : Keeps P (thenDo (ensureGuestHomeIfNeeded ctx home)
      (prepareCookieDirs ctx (resolveGuestCookiePath ctx home))) :=
    thenDo_keeps (ensureGuestHomeIfNeeded_keeps h hroot hhome)
      (prepareCookieDirs_keeps h hroot hcookie)
  unfold mountCookie
  cases findPulseCookie host ctx hostHome with
  | none => exact Keeps.pure 0
  | some cookie =>
    cases hescapes : memPathEscapes (resolveGuestCookiePath ctx home) with
    | false => exact thenDo_keeps hdirs (mountFileAcl_keeps h (hcookie hescapes).permits hroot cookie)
    | true =>
      -- `prepare_cookie_dirs` refuses, so that the mount is not reached.
      have hrefused : prepareCookieDirs ctx (resolveGuestCookiePath ctx home) = pure (-1) := by
        unfold prepareCookieDirs
        rw [if_pos hescapes]
      intro g hg
      have hne : (thenDo (ensureGuestHomeIfNeeded ctx home)
          (prepareCookieDirs ctx (resolveGuestCookiePath ctx home)) g).1 ≠ 0 := by
        rw [hrefused, thenDo_run]
        split
        · have hneg : (-1 : Int) ≠ 0 := by decide
          exact hneg
        · assumption
      dsimp only
      rw [thenDo_run, if_neg hne]
      exact hdirs g hg

theorem mountUserHome_keeps (h : Kept P Ok) (hroot : Ok (.openRoot ctx.root.str))
    {home : CStr} (hxauth : Permits Ok ctx (memPath home (lit "/.Xauthority")))
    (hhome : memPathEscapes home = false →
      ∀ uid gid mode, Ok (.mkdirParentsAt (skipSlashes home) uid gid mode))
    (hcookie : memPathEscapes (resolveGuestCookiePath ctx home) = false →
      PermitsCookie Ok ctx (resolveGuestCookiePath ctx home)) :
    Keeps P (mountUserHome host ctx (some home)) := by
  unfold mountUserHome
  cases ctx.hostHome with
  | none => exact Keeps.pure 0
  | some hostHome =>
    have hfile : Keeps P (mountXauthority host ctx hostHome home) := by
      refine Keeps.ite (fun _ => Keeps.pure 0) fun _ => Keeps.bind h.home fun _ => ?_
      exact Keeps.ite (fun _ => Keeps.pure 0) fun _ => mountFileAcl_keeps h hxauth hroot _
    refine Keeps.bind hfile fun r => Keeps.ite (fun _ => Keeps.pure r) fun _ => ?_
    exact mountCookie_keeps h hroot hhome hcookie hostHome

/-- `Ok` permits what `create_guest_xdg_root` takes for `dir`. -/
structure PermitsXdg (Ok : GuiCall → Prop) (ctx : GuiCtx) (dir : CStr) : Prop where
  own : ∀ uid gid mode, Ok (.mkdirOwn (memPath ctx.root.str dir) uid gid mode)
  parent : ctx.guestXrdEnv = false → ∀ len, beforeLastSlash (memPath ctx.root.str dir) = some len →
    ∀ uid gid mode, Ok (.mkdirOwn ((memPath ctx.root.str dir).take len) uid gid mode)

/-- `Ok` permits what a socket at `target` takes, with the tests before it. -/
structure PermitsSocket (Ok : GuiCall → Prop) (ctx : GuiCtx) (target : CStr) : Prop where
  look : Ok (.exists (memPath ctx.root.str target))
  touch : Ok (.touch (memPath ctx.root.str target))
  permits : Permits Ok ctx target

/-- The directories of `create_guest_xdg_root`. -/
theorem xdgDirs_keeps (h : Kept P Ok) {dir : CStr} (hpermits : PermitsXdg Ok ctx dir) :
    Keeps P (thenDo
      (if ctx.guestXrdEnv then pure 0 else ensureXdgParent ctx (memPath ctx.root.str dir))
      (perform (.mkdirOwn (memPath ctx.root.str dir) ctx.uid ctx.gid 0o700))) := by
  refine thenDo_keeps (Keeps.ite (fun _ => Keeps.pure 0) fun henv => ?_)
    (h.call _ (hpermits.own _ _ _))
  unfold ensureXdgParent
  cases hlast : beforeLastSlash (memPath ctx.root.str dir) with
  | none => exact Keeps.pure 0
  | some len =>
    cases len with
    | zero => exact Keeps.pure 0
    | succ len =>
      exact h.call _ (hpermits.parent (Bool.eq_false_iff.mpr henv) (len + 1) hlast _ _ _)

theorem createGuestXdgRoot_value :
    Triple (fun _ => True) (createGuestXdgRoot ctx)
      fun r _ => ∀ dir, r = some dir → fillXdg ctx xdgBuffer = some dir := by
  unfold createGuestXdgRoot
  cases fillXdg ctx xdgBuffer with
  | none => exact Triple.pure fun _ _ dir hdir => hdir
  | some d =>
    refine Triple.bind (Q := fun _ _ => True) (fun _ _ => trivial) fun r => ?_
    refine Triple.ite (fun _ => ?_) fun _ => ?_
    · exact Triple.pure fun _ _ dir hdir => by simp at hdir
    · exact Triple.bind (Q := fun _ _ => True) (fun _ _ => trivial) fun _ =>
        Triple.pure fun _ _ dir hdir => hdir

theorem ensureWaylandTarget_value (wn : CStr) :
    Triple (fun _ => True) (ensureWaylandTarget ctx wn)
      fun r _ => ∀ p, r = some p → ∃ dir, fillXdg ctx xdgBuffer = some dir ∧
        fits (dir ++ slash :: wn) waylandBuffer ∧ p = dir ++ slash :: wn := by
  unfold ensureWaylandTarget
  cases fillXdg ctx xdgBuffer with
  | none => exact Triple.pure fun _ _ p hp => by simp at hp
  | some d =>
    refine Triple.ite (fun hfits => ?_) fun _ => Triple.pure fun _ _ p hp => by simp at hp
    refine Triple.bind (Q := fun _ _ => True) (fun _ _ => trivial) fun r => ?_
    refine Triple.ite (fun _ => ?_) fun _ => Triple.pure fun _ _ p hp => by simp at hp
    exact Triple.pure fun _ _ p hp => ⟨d, rfl, hfits, (Option.some.inj hp).symm⟩

variable (hcreated : Keeps P setXrdCreated)

include hcreated

theorem createGuestXdgRoot_keeps (h : Kept P Ok)
    (hdir : ∀ dir, fillXdg ctx xdgBuffer = some dir → PermitsXdg Ok ctx dir) :
    Keeps P (createGuestXdgRoot ctx) := by
  unfold createGuestXdgRoot
  cases hfill : fillXdg ctx xdgBuffer with
  | none => exact Keeps.pure none
  | some dir =>
    refine Keeps.bind (xdgDirs_keeps h (hdir dir hfill)) fun r => ?_
    refine Keeps.ite (fun _ => Keeps.pure none) fun _ => ?_
    exact Keeps.bind hcreated fun _ => Keeps.pure (some dir)

/-- `Ok` permits what the Wayland socket of the name `wn` takes. -/
def PermitsWayland (Ok : GuiCall → Prop) (ctx : GuiCtx) (wn : CStr) : Prop :=
  ∀ dir, fillXdg ctx xdgBuffer = some dir → fits (dir ++ slash :: wn) waylandBuffer →
    PermitsXdg Ok ctx dir ∧ PermitsSocket Ok ctx (dir ++ slash :: wn)

theorem ensureWaylandTarget_keeps (h : Kept P Ok) {wn : CStr} (hwl : PermitsWayland Ok ctx wn) :
    Keeps P (ensureWaylandTarget ctx wn) := by
  unfold ensureWaylandTarget
  cases hfill : fillXdg ctx xdgBuffer with
  | none => exact Keeps.pure none
  | some dir =>
    refine Keeps.ite (fun hfits => ?_) fun _ => Keeps.pure none
    obtain ⟨hxdg, hsocket⟩ := hwl dir hfill hfits
    have hdir : ∀ d, fillXdg ctx xdgBuffer = some d → PermitsXdg Ok ctx d := by
      intro d hd
      rw [hfill] at hd
      exact Option.some.inj hd ▸ hxdg
    have hmake : Keeps P (makeTarget ctx (dir ++ slash :: wn)) := by
      refine Keeps.bind (createGuestXdgRoot_keeps hcreated h hdir) fun xdg => ?_
      cases xdg with
      | none => exact Keeps.pure (-1)
      | some xdg => exact h.call _ hsocket.touch
    have hpresent : Keeps P (ensureTargetPresent ctx (dir ++ slash :: wn)) := by
      refine Keeps.bind (h.call _ hsocket.look) fun e => Keeps.ite (fun _ => ?_) fun _ => ?_
      · exact Keeps.bind hmake fun r => Keeps.bind hcreated fun _ => Keeps.pure r
      · exact Keeps.bind hcreated fun _ => Keeps.pure 0
    refine Keeps.bind hpresent fun r => ?_
    exact Keeps.ite (fun _ => Keeps.pure _) fun _ => Keeps.pure none

theorem mountWayland_keeps (h : Kept P Ok) (hroot : Ok (.openRoot ctx.root.str))
    {hostXrd wl : CStr} (hwl : host.exists (memPath hostXrd wl) = 0 →
      PermitsWayland Ok ctx (ctx.guestWl.getD wl)) :
    Keeps P (mountWayland host ctx hostXrd wl) := by
  refine Keeps.ite (fun _ => Keeps.pure 0) fun hthere => ?_
  have hpermits := hwl (not_not.mp hthere)
  refine Keeps.bindOf (ensureWaylandTarget_keeps hcreated h hpermits)
    (ensureWaylandTarget_value _) fun p hp => ?_
  cases p with
  | none => exact Keeps.pure (-1)
  | some p =>
    obtain ⟨dir, hfill, hfits, rfl⟩ := hp p rfl
    exact mountFileAcl_keeps h (hpermits dir hfill hfits).2.permits hroot _

/-- `Ok` permits what the directories of the PulseAudio socket take. -/
structure PermitsPulse (Ok : GuiCall → Prop) (ctx : GuiCtx) (target : CStr) : Prop where
  socket : PermitsSocket Ok ctx target
  xdg : ctx.guestPs = none → ∀ dir, fillXdg ctx xdgBuffer = some dir → PermitsXdg Ok ctx dir ∧
    ∀ uid gid mode, Ok (.mkdirOwn (memPath (memPath ctx.root.str dir) (lit "pulse")) uid gid mode)
  custom : ctx.guestPs ≠ none → ∀ len, beforeLastSlash (memPath ctx.root.str target) = some len →
    ∀ uid gid mode, Ok (.mkdirOwn ((memPath ctx.root.str target).take len) uid gid mode)

theorem ensurePulseTarget_keeps (h : Kept P Ok) {target : CStr}
    (hpulse : PermitsPulse Ok ctx target) : Keeps P (ensurePulseTarget ctx target) := by
  have htouch : Keeps P (touchTarget ctx target) := h.call _ hpulse.socket.touch
  refine Keeps.bind (h.call _ hpulse.socket.look) fun e => Keeps.ite (fun _ => ?_) fun _ => ?_
  · refine Keeps.ite (fun hps => thenDo_keeps ?_ htouch) fun hps => thenDo_keeps ?_ htouch
    · refine Keeps.bindOf (createGuestXdgRoot_keeps hcreated h fun dir hfill =>
        (hpulse.xdg hps dir hfill).1) createGuestXdgRoot_value fun xdg hxdg => ?_
      cases xdg with
      | none => exact Keeps.pure (-1)
      | some xdg => exact h.call _ ((hpulse.xdg hps xdg (hxdg xdg rfl)).2 _ _ _)
    · cases hlast : beforeLastSlash (memPath ctx.root.str target) with
      | none => exact Keeps.pure 0
      | some len => exact h.call _ (hpulse.custom hps len hlast _ _ _)
  · exact Keeps.ite (fun _ => Keeps.bind hcreated fun _ => Keeps.pure 0) fun _ => Keeps.pure 0

theorem mountPulse_keeps (h : Kept P Ok) (hroot : Ok (.openRoot ctx.root.str)) {hostXrd : CStr}
    (hpulse : ∀ src, resolvePulseSrc ctx.hostPs hostXrd = some src → host.exists src = 0 →
      ∀ target, pulseTarget ctx = some target → PermitsPulse Ok ctx target) :
    Keeps P (mountPulse host ctx hostXrd) := by
  unfold mountPulse
  cases hsrc : resolvePulseSrc ctx.hostPs hostXrd with
  | none => exact Keeps.pure 0
  | some src =>
    refine Keeps.ite (fun _ => Keeps.pure 0) fun hthere => ?_
    cases htarget : pulseTarget ctx with
    | none => exact Keeps.pure (-1)
    | some target =>
      have hpermits := hpulse src hsrc (not_not.mp hthere) target htarget
      exact thenDo_keeps (ensurePulseTarget_keeps hcreated h hpermits)
        (mountFileAcl_keeps h hpermits.socket.permits hroot src)

/-- `Ok` permits all that the set-up may take. -/
structure PermitsAll (Ok : GuiCall → Prop) (host : HostView) (ctx : GuiCtx) (home : CStr) : Prop where
  root : Ok (.openRoot ctx.root.str)
  hostAcl : ∀ path uid gid groups, Ok (.aclSet path uid gid groups)
  x11 : PermitsBind Ok ctx (lit "tmp/.X11-unix")
  x11Node : ∀ n, Permits Ok ctx (lit "tmp/.X11-unix/X" ++ intStr n)
  wayland : ∀ xrd, ctx.hostXrd = some xrd → waylandSockPresent host ctx xrd →
    PermitsWayland Ok ctx (ctx.guestWl.getD (hostWayland ctx))
  pulse : ∀ xrd, ctx.hostXrd = some xrd → ∀ src, resolvePulseSrc ctx.hostPs xrd = some src →
    host.exists src = 0 → ∀ target, pulseTarget ctx = some target → PermitsPulse Ok ctx target
  xauthority : Permits Ok ctx (memPath home (lit "/.Xauthority"))
  homeDir : ∀ uid gid mode, Ok (.mkdirParentsAt (skipSlashes home) uid gid mode)
  cookie : memPathEscapes (resolveGuestCookiePath ctx home) = false →
    PermitsCookie Ok ctx (resolveGuestCookiePath ctx home)

omit hcreated in
/-- Every program of the set-up keeps what every call keeps. -/
theorem permitsAll_true (home : CStr) : PermitsAll (fun _ => True) host ctx home := by
  have hpermits (sub : CStr) : Permits (fun _ => True) ctx sub :=
    ⟨⟨fun _ _ _ _ _ => trivial, fun _ _ => trivial⟩, fun _ => trivial, fun _ _ _ => trivial⟩
  have hsocket (t : CStr) : PermitsSocket (fun _ => True) ctx t :=
    ⟨trivial, trivial, hpermits t⟩
  have hxdg (dir : CStr) : PermitsXdg (fun _ => True) ctx dir :=
    ⟨fun _ _ _ => trivial, fun _ _ _ _ _ _ => trivial⟩
  exact
    { root := trivial
      hostAcl := fun _ _ _ _ => trivial
      x11 := ⟨trivial, trivial, trivial, fun _ => trivial⟩
      x11Node := fun n => hpermits _
      wayland := fun _ _ _ dir _ _ => ⟨hxdg dir, hsocket _⟩
      pulse := fun _ _ _ _ _ target _ => ⟨hsocket target,
        fun _ dir _ => ⟨hxdg dir, fun _ _ _ => trivial⟩, fun _ _ _ _ _ _ => trivial⟩
      xauthority := hpermits _
      homeDir := fun _ _ _ => trivial
      cookie := fun _ => ⟨fun _ _ _ _ _ => trivial, fun _ _ => trivial, hpermits _⟩ }

theorem setupGuiMounts_keeps (h : Kept P Ok) {home : CStr}
    (hall : memPathEscapes home = false → PermitsAll Ok host ctx home) :
    Keeps P (setupGuiMounts host ctx (some home)) := by
  refine Keeps.ite (fun _ => Keeps.pure (-1)) fun hstays => ?_
  have hpermits := hall (Bool.eq_false_iff.mpr hstays)
  have hsocks : Keeps P (mountXdgSocks host ctx) := by
    unfold mountXdgSocks
    cases hxrd : ctx.hostXrd with
    | none => exact Keeps.pure 0
    | some xrd =>
      have hwl : Keeps P (mountWayland host ctx xrd (hostWayland ctx)) :=
        mountWayland_keeps hcreated h hpermits.root fun hthere =>
          hpermits.wayland xrd hxrd (decide_eq_true hthere)
      have hps : Keeps P (mountPulse host ctx xrd) :=
        mountPulse_keeps hcreated h hpermits.root (hpermits.pulse xrd hxrd)
      refine Keeps.bind hwl fun r => Keeps.bind hps fun p => ?_
      exact Keeps.ite (fun _ => Keeps.pure (-1)) fun _ => Keeps.pure r
  refine Keeps.bind (mountX11_keeps h hpermits.hostAcl hpermits.x11 hpermits.x11Node hpermits.root)
    fun r => Keeps.ite (fun _ => Keeps.pure (-1)) fun _ => ?_
  refine Keeps.bind hsocks fun r => Keeps.ite (fun _ => Keeps.pure (-1)) fun _ => ?_
  exact mountUserHome_keeps h hpermits.root hpermits.xauthority (fun _ => hpermits.homeDir)
    hpermits.cookie

end

end Cage.Sandbox
