import Cage.Sandbox.OverlayReady

/-!
When the overlay mount of a run finds its directories, whatever earlier runs have left.
-/

namespace Cage.Sandbox

open Lib.Program Util

variable {S : Type} {fs : FileSystem S} (missing : Errno → Bool) (modprobe : Steps Int)
  (root : CStr) (pid : Nat) (cfg : Cfg)

variable (fs) in
/-- All overlay mounts that `m` makes from `s` find their directories. -/
def FindsDirs {A : Type} (m : Steps A) (c : List Slot) (s : S) : Prop :=
  (m.run c).Along fs.answer (MountsDirs fs) s

variable (fs) in
/-- The overlay mount of a run from `s` finds its directories. -/
def Ready (c : List Slot) (s : S) : Prop :=
  FindsDirs fs (setupOverlay missing modprobe root pid cfg) c s

section Rules

variable {A B : Type} {m : Steps A} {f : A → Steps B} {c : List Slot} {s : S} {dirs : Dirs}

theorem findsDirs_bind : FindsDirs fs (m >>= f) c s ↔
    FindsDirs fs m c s ∧ FindsDirs fs (f ((m.run c).exec fs.answer s).1.1)
      ((m.run c).exec fs.answer s).1.2 ((m.run c).exec fs.answer s).2 :=
  along_bind fs.answer (m.run c) (fun a => (f a.1).run a.2) s

theorem findsDirs_sys {k : Call} {f : k.Ret → Steps B} : FindsDirs fs (Steps.sys k >>= f) c s ↔
    MountsDirs fs k s ∧ FindsDirs fs (f (fs.answer k s).1) c (fs.answer k s).2 := Iff.rfl

theorem findsDirs_pure (a : A) : FindsDirs fs (pure a) c s := trivial

theorem mountsDirs_of_noMount (call : Call) (s : S) (h : NoMount call) : MountsDirs fs call s := by
  cases call <;> trivial

theorem findsDirs_of_noMount (h : Only NoMount m) : FindsDirs fs m c s :=
  AllCalls.along (h c) (fun call s => mountsDirs_of_noMount call s) s

/-- The options of the mount name the two directories. -/
theorem mountsDirs_iff :
    MountsDirs fs (.mount overlay root overlay
      (overlayText dirs.lowerdir dirs.upperdir dirs.workdir)) s ↔ fs.Both dirs s := by
  constructor
  · intro h
    obtain ⟨hupper, hwork⟩ := h rfl _ (parseOverlay_overlayText _ _ _)
    exact ⟨hupper _ rfl, hwork _ rfl⟩
  · intro h _ config hconfig
    rw [parseOverlay_overlayText] at hconfig
    cases hconfig
    refine ⟨fun u hu => ?_, fun w hw => ?_⟩
    · cases hu
      exact h.1
    · cases hw
      exact h.2

theorem findsDirs_result (r : Int) (upper : CStr) :
    FindsDirs fs (overlayMountResult r upper) c s := by
  refine findsDirs_of_noMount (Only.ite (fun _ => Only.pure _) fun _ => ?_)
  exact Only.bind (Only.perform trivial) fun _ => Only.pure _

variable {modprobe} (hfs : Makes fs) (hload : Loads fs modprobe)

include hfs hload in
/-- A mount that is made again finds the directories again. -/
theorem findsDirs_tryMount (h : fs.Both dirs s) :
    FindsDirs fs (tryMountOverlay missing modprobe root
      (overlayText dirs.lowerdir dirs.upperdir dirs.workdir)) c s := by
  unfold tryMountOverlay
  obtain ⟨opts, hopts⟩ : ∃ opts, opts = overlayText dirs.lowerdir dirs.upperdir dirs.workdir :=
    ⟨_, rfl⟩
  have hmount (t : S) (ht : fs.Both dirs t) : MountsDirs fs (.mount overlay root overlay opts) t := by
    rw [hopts]
    exact (mountsDirs_iff root).mpr ht
  rw [← hopts]
  refine findsDirs_sys.mpr ⟨hmount s h, ?_⟩
  have hkeeps (q : CStr) := hfs.refused overlay root overlay opts s q
  have hanswer : fs.answer (.mount overlay root overlay opts) s =
      fs.other (.mount overlay root overlay opts) s := rfl
  rw [hanswer]
  obtain ⟨⟨r, t⟩, hother⟩ : ∃ rt, rt = fs.other (.mount overlay root overlay opts) s := ⟨_, rfl⟩
  rw [← hother] at hkeeps ⊢
  cases r with
  | none => exact findsDirs_pure _
  | some e =>
    have hboth : fs.Both dirs t :=
      ⟨hkeeps _ (Option.some_ne_none e) h.1, hkeeps _ (Option.some_ne_none e) h.2⟩
    dsimp only
    split
    · exact findsDirs_pure _
    · refine findsDirs_bind.mpr ⟨findsDirs_of_noMount hload.quiet, ?_⟩
      have hloaded := And.intro (hload.keeps c t _ hboth.1) (hload.keeps c t _ hboth.2)
      split
      · exact findsDirs_pure _
      · refine findsDirs_sys.mpr ⟨hmount _ hloaded, ?_⟩
        split
        · exact findsDirs_pure _
        · exact findsDirs_pure _

include hfs hload in
theorem findsDirs_mounts (h : fs.Both dirs s) :
    FindsDirs fs (do
      let r ← tryMountOverlay missing modprobe root
        (overlayText dirs.lowerdir dirs.upperdir dirs.workdir)
      overlayMountResult r dirs.upperdir) c s :=
  findsDirs_bind.mpr ⟨findsDirs_tryMount missing root hfs hload h, findsDirs_result _ _⟩

theorem noMount_createOverlayDirs (dirs : Dirs) : Only NoMount (createOverlayDirs dirs) := by
  have hparent : Only NoMount (createUpperParent dirs.upperdir) := by
    unfold createUpperParent
    split
    · exact Only.pure _
    · exact Only.bind (noMount_mkdir _) fun _ => Only.pure _
  refine Only.bind hparent fun _ => Only.bind (noMount_mkdir _) fun r => ?_
  refine Only.ite (fun _ => Only.pure _) fun _ => ?_
  exact Only.bind (noMount_mkdir _) fun r => Only.pure _

include hfs hload in
/-- Directories that are not known to be there are made. -/
theorem findsDirs_unknown (h : dirs.dirsCreated = false) :
    FindsDirs fs (prepareOverlay missing modprobe root dirs) c s := by
  unfold prepareOverlay
  rw [h]
  refine findsDirs_bind.mpr ⟨findsDirs_of_noMount (noMount_createOverlayDirs dirs), ?_⟩
  have hmakes := (createOverlayDirs_makes hfs dirs).exec (c := c) (s := s) trivial
  dsimp only
  split
  · exact findsDirs_pure _
  · rename_i hmade
    exact findsDirs_mounts missing root hfs hload (hmakes (not_not.mp hmade))

include hfs hload in
/-- Directories that are taken as they stand have to be there. -/
theorem findsDirs_known (h : dirs.dirsCreated = true) :
    FindsDirs fs (prepareOverlay missing modprobe root dirs) c s ↔ fs.Both dirs s := by
  have hprepare : prepareOverlay missing modprobe root dirs = (do
      let r ← tryMountOverlay missing modprobe root
        (overlayText dirs.lowerdir dirs.upperdir dirs.workdir)
      overlayMountResult r dirs.upperdir) := by
    unfold prepareOverlay
    rw [h]
    rfl
  rw [hprepare]
  constructor
  · intro hfinds
    have hfirst := (findsDirs_sys.mp (findsDirs_bind.mp hfinds).1).1
    exact (mountsDirs_iff root).mp hfirst
  · exact findsDirs_mounts missing root hfs hload

end Rules

section Runs

variable {modprobe} (hfs : Makes fs) (hload : Loads fs modprobe) {c : List Slot} {s : S}
  (hc : Current fs s c)

theorem resolveAppdir_created {dirs : Dirs} (h : resolveAppdir cfg = some dirs) :
    dirs.dirsCreated = false := by
  unfold resolveAppdir at h
  simp only [Option.bind_eq_bind, Option.bind_eq_some_iff] at h
  obtain ⟨_, -, _, -, _, -, _, -, hdirs⟩ := h
  cases hdirs
  rfl

/-- What `early_setup_appdir` ends in decides. -/
theorem ready_iff_early {r : Option Dirs} {c' : List Slot} {t : S}
    (h : ((earlySetupAppdir pid cfg).run c).exec fs.answer s = ((r, c'), t)) :
    Ready fs missing modprobe root pid cfg c s ↔
      ∀ dirs, r = some dirs → FindsDirs fs (prepareOverlay missing modprobe root dirs) c' t := by
  unfold Ready setupOverlay
  rw [findsDirs_bind, h]
  constructor
  · rintro ⟨-, hrest⟩ dirs rfl
    exact hrest
  · intro hrest
    refine ⟨findsDirs_of_noMount (noMount_early pid cfg), ?_⟩
    cases r with
    | none => exact findsDirs_pure _
    | some dirs => exact hrest dirs rfl

include hfs hload hc in
theorem ready_of_none (h : provisioned fs s cfg = none) :
    Ready fs missing modprobe root pid cfg c s := by
  cases hres : resolveAppdir cfg with
  | none =>
    have hnone : earlySetupAppdir pid cfg = pure none := by
      unfold earlySetupAppdir
      rw [hres]
    have hearly : ((earlySetupAppdir pid cfg).run c).exec fs.answer s = ((none, c), s) := by
      rw [hnone]
      rfl
    exact (ready_iff_early missing root pid cfg hearly).mpr nofun
  | some dirs =>
    obtain ⟨c', hc', hrun⟩ := early_rest ⟨s, c, hc⟩ pid hres
    have htaken : takenOver fs s cfg dirs.tidy (detect fs s dirs.tidy.lowerdir dirs.tidy.upperdir) =
        none := by
      unfold provisioned at h
      rw [hres] at h
      exact h
    refine (ready_iff_early missing root pid cfg rfl).mpr fun d hd => ?_
    dsimp only at hrun
    rw [hrun] at hd
    have hcreated := resolveAppdir_created cfg hres
    have htidy : dirs.tidy.dirsCreated = false := hcreated
    exact findsDirs_unknown missing root hfs hload (afterDetect_unknown hfs pid htaken htidy hc' hd)

include hfs hload hc in
theorem ready_iff_both {dirs : Dirs} (h : provisioned fs s cfg = some dirs) :
    Ready fs missing modprobe root pid cfg c s ↔ fs.Both dirs s := by
  cases hres : resolveAppdir cfg with
  | none =>
    unfold provisioned at h
    rw [hres] at h
    cases h
  | some resolved =>
    obtain ⟨c₁, hc₁, hrun⟩ := early_rest ⟨s, c, hc⟩ pid hres
    have htaken : takenOver fs s cfg resolved.tidy
        (detect fs s resolved.tidy.lowerdir resolved.tidy.upperdir) = some dirs := by
      unfold provisioned at h
      rw [hres] at h
      exact h
    obtain ⟨c₂, -, hrest⟩ := takenOver_yields hfs pid htaken c₁ hc₁
    rw [hrest] at hrun
    rw [ready_iff_early missing root pid cfg hrun]
    obtain ⟨known, hknown⟩ : ∃ known, known = { dirs with dirsCreated := true } := ⟨_, rfl⟩
    have hcreated : known.dirsCreated = true := by rw [hknown]
    have hboth : fs.Both known s ↔ fs.Both dirs s := by rw [hknown]; exact Iff.rfl
    rw [← hknown, ← hboth, ← findsDirs_known missing root hfs hload hcreated]
    constructor
    · intro hfinds
      exact hfinds known rfl
    · rintro hfinds d hd
      cases hd
      exact hfinds

end Runs

end Cage.Sandbox
