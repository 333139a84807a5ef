import Cage.Sandbox.AppdirSetup
import Cage.Sandbox.ImageCalls
import Cage.Sandbox.PrepareOverlay

/-!
What an overlay mount finds of the directories that its options name.
-/

namespace Cage.Sandbox

open Lib.Program Util Ext4

variable {S : Type}

/-- A path leads to a directory. -/
def FileSystem.IsDir (fs : FileSystem S) (s : S) (path : CStr) : Prop :=
  ∃ f, fs.resolve s path = .ok f ∧ f.kind = .dir

def FileSystem.lstat (fs : FileSystem S) (s : S) (path : CStr) : Except Errno Stat :=
  (fs.other (.lstat path) s).1

/-- What is relied on of the calls that do more than look at a path: `lstat` changes
nothing, a directory that was made is there, and neither making one nor a mount that
fails takes another away. -/
structure Makes (fs : FileSystem S) : Prop where
  lstat : ∀ path s, (fs.other (.lstat path) s).2 = s
  made : ∀ path mode s, (fs.other (.mkdir path mode) s).1 = none →
    fs.IsDir (fs.other (.mkdir path mode) s).2 path
  kept : ∀ path mode s q, fs.IsDir s q → fs.IsDir (fs.other (.mkdir path mode) s).2 q
  refused : ∀ source target fstype data s q,
    (fs.other (.mount source target fstype data) s).1 ≠ none → fs.IsDir s q →
      fs.IsDir (fs.other (.mount source target fstype data) s).2 q

/-- A call other than `mount`. -/
def NoMount : Call → Prop
  | .mount _ _ _ _ => False
  | _ => True

/-- The upper and the work directory that the options of an overlay mount name, are
directories. -/
def MountsDirs (fs : FileSystem S) : Call → S → Prop
  | .mount _ _ fstype data, s => fstype = overlay → ∀ c, parseOverlay data = some c →
      (∀ u, c.upperdir = some u → fs.IsDir s u) ∧ ∀ w, c.workdir = some w → fs.IsDir s w
  | _, _ => True

/-- Loading a module makes no mount, and takes no directory away. -/
structure Loads (fs : FileSystem S) (modprobe : Steps Int) : Prop where
  quiet : Only NoMount modprobe
  keeps : ∀ c s q, fs.IsDir s q → fs.IsDir ((modprobe.run c).exec fs.answer s).2 q

section Calls

theorem only_sameFsDetect {ok : Call → Prop} (haccess : ∀ p, ok (.access p))
    (hstat : ∀ p, ok (.stat p)) (hstatfs : ∀ p, ok (.statfs p)) (lowerdir upperdir : CStr) :
    Only ok (sameFsDetect lowerdir upperdir) := by
  have hparent (n : Nat) (path : CStr) : Only ok (resolveExistingParent n path) := by
    induction n generalizing path with
    | zero => exact Only.pure _
    | succ n ih =>
      refine Only.bind (only_ioExists (haccess path)) fun r => Only.ite (fun _ => Only.pure _) fun _ => ?_
      refine Only.ite (fun _ => Only.pure _) fun _ => ?_
      rcases beforeLastSlash path with _ | _ | len
      · exact Only.pure _
      · exact Only.pure _
      · exact ih _
  have hdev (a b : CStr) : Only ok (statDev a b) := by
    refine Only.bind (Only.perform (hstat a)) fun sa => ?_
    cases sa with
    | error _ => exact Only.pure _
    | ok sa =>
      refine Only.bind (Only.perform (hstat b)) fun sb => ?_
      cases sb with
      | error _ => exact Only.pure _
      | ok sb => exact Only.pure _
  have hoverlay (ap : CStr) : Only ok (onOverlayfs ap) := by
    refine Only.bind (Only.perform (hstatfs ap)) fun r => ?_
    cases r with
    | none => exact Only.pure _
    | some f => exact Only.pure _
  refine Only.bind (hparent _ _) fun r => ?_
  cases r with
  | none => exact Only.pure _
  | some ap =>
    refine Only.bind (Only.perform (hstat lowerdir)) fun ls => ?_
    cases ls with
    | error _ => exact Only.pure _
    | ok ls =>
      refine Only.ite (fun _ => ?_) fun _ => ?_
      · exact Only.bind (hdev lowerdir ap) fun r => Only.pure _
      · exact Only.bind (hoverlay ap) fun o => Only.pure _

theorem noMount_open (call : Call) (h : OpenFile call) : NoMount call := by
  cases call <;> trivial

theorem noMount_mkdir (path : CStr) : Only NoMount (Steps.ioMkdir path) :=
  only_mkdirDepth (fun _ _ => trivial) (fun _ => trivial) _ path

theorem noMount_realDir (path : CStr) : Only NoMount (requireRealDir path) := by
  refine Only.bind (Only.perform trivial) fun st => ?_
  cases st with
  | error _ => exact Only.pure _
  | ok st => exact Only.pure _

theorem only_ioLoop {ok : Call → Prop} {img : CStr} (hfree : ok .loopFree) (hrw : ok (.openRw img))
    (hset : ∀ id fd, ok (.loopSet id fd)) (hclose : ∀ fd, ok (.close fd)) : Only ok (ioLoop img) := by
  refine Only.bind (Only.perform hfree) fun id => ?_
  cases id with
  | none => exact Only.pure _
  | some id =>
    refine Only.bind (Only.perform hrw) fun fd => ?_
    cases fd with
    | none => exact Only.pure _
    | some fd =>
      refine Only.bind (Only.perform (hset id fd)) fun ok => ?_
      exact Only.bind (Only.perform (hclose fd)) fun _ => Only.pure _

variable (pid : Nat) (dirs : Dirs) (lp : Loop) (keepWork : Bool)

theorem noMount_provisioned (rootDev : Nat) :
    Only NoMount (useProvisionedLoopback dirs lp rootDev keepWork) := by
  refine Only.bind (Only.perform trivial) fun st => ?_
  cases st with
  | error _ => exact Only.pure _
  | ok st =>
    refine Only.bind (noMount_realDir _) fun r => Only.ite (fun _ => Only.pure _) fun _ => ?_
    refine Only.ite (fun _ => Only.pure _) fun _ => ?_
    cases setLoopAppdir dirs lp keepWork with
    | none => exact Only.pure _
    | some d => exact Only.pure _

theorem noMount_loopback : Only NoMount (setupExt4Loopback pid dirs lp keepWork) := by
  have himg : Only NoMount (setupExt4Img pid lp.loopImg) :=
    only_setupImg noMount_open trivial trivial (fun _ => trivial) trivial trivial
  refine Only.bind himg fun r => Only.ite (fun _ => Only.pure _) fun _ => ?_
  refine Only.bind (only_ioLoop trivial trivial (fun _ _ => trivial) fun _ => trivial) fun id => ?_
  cases id with
  | none => exact Only.pure _
  | some id =>
    refine Only.bind (Only.perform trivial) fun r => Only.bind (Only.perform trivial) fun _ => ?_
    cases r with
    | some _ => exact Only.pure _
    | none =>
      cases setLoopAppdir dirs lp keepWork with
      | none => exact Only.pure _
      | some d =>
        refine Only.bind (Only.bind (noMount_mkdir _) fun _ => Only.pure _) fun r => Only.pure _

theorem noMount_mounted (rootDev : Nat) :
    Only NoMount (ensureExt4Mounted pid dirs lp rootDev keepWork) := by
  refine Only.bind (Only.perform trivial) fun st => ?_
  cases st with
  | error _ =>
    refine Only.bind (noMount_mkdir _) fun r => Only.ite (fun _ => Only.pure _) fun _ => ?_
    exact noMount_loopback pid dirs lp keepWork
  | ok st =>
    refine Only.bind (noMount_realDir _) fun r => Only.ite (fun _ => Only.pure _) fun _ => ?_
    exact Only.ite (fun _ => Only.pure _) fun _ => noMount_loopback pid dirs lp keepWork

theorem noMount_early (cfg : Cfg) : Only NoMount (earlySetupAppdir pid cfg) := by
  unfold earlySetupAppdir
  cases resolveAppdir cfg with
  | none => exact Only.pure _
  | some dirs =>
    have hdetect : Only NoMount (sameFsDetect dirs.tidy.lowerdir dirs.tidy.upperdir) :=
      only_sameFsDetect (fun _ => trivial) (fun _ => trivial) (fun _ => trivial) _ _
    refine Only.bind hdetect fun r => Only.ite (fun _ => Only.pure _) fun _ => ?_
    refine Only.ite (fun _ => Only.pure _) fun _ => Only.ite (fun _ => Only.pure _) fun _ => ?_
    cases loopFill dirs.tidy.appdir with
    | none => exact Only.pure _
    | some lp =>
      dsimp only
      cases loopDirsSet dirs.tidy cfg lp with
      | none => exact Only.pure _
      | some d =>
        refine Only.bind (only_ioExists trivial) fun e => Only.ite (fun _ => ?_) fun _ => ?_
        · exact noMount_provisioned d lp _ _
        · exact noMount_mounted pid d lp _ _

end Calls

section Making

variable {fs : FileSystem S}

variable (fs) in
/-- From every state with `pre`, `m` ends in `post`, with the answers of the file
system. -/
abbrev EndsOn {A : Type} (pre : S → Prop) (m : Steps A) (post : A → S → Prop) : Prop :=
  Ends (fun k s r t => fs.answer k s = (r, t)) (fun _ s => pre s) m fun a _ t => post a t

theorem EndsOn.exec {A : Type} {pre : S → Prop} {m : Steps A} {post : A → S → Prop}
    (h : EndsOn fs pre m post) {c : List Slot} {s : S} (hs : pre s) :
    post ((m.run c).exec fs.answer s).1.1 ((m.run c).exec fs.answer s).2 :=
  Wp.exec fs.answer (fun _ _ => rfl) (m.run c) (h c s hs)

theorem EndsOn.fails {pre : S → Prop} {path : CStr} :
    EndsOn fs pre (pure (-1)) fun r t => r = 0 → fs.IsDir t path :=
  Ends.pure fun _ _ _ h => absurd h (by decide)

theorem ioIsdir_looks (path : CStr) :
    EndsOn fs (fun _ => True) (Steps.ioIsdir path) fun r t => r = 0 → fs.IsDir t path := by
  have hstat : EndsOn fs (fun _ => True) (Steps.sys (.stat path))
      fun (r : Except Errno Stat) t => ∀ st, r = .ok st → st.kind = .dir → fs.IsDir t path := by
    refine Ends.perform fun c s r t _ hans st hst hdir => ?_
    have hresolve : (fs.resolve s path).map (fun f => ({ dev := f.dev, kind := f.kind } : Stat)) = r ∧
        s = t := Prod.mk.inj hans
    obtain ⟨hmap, rfl⟩ := hresolve
    rw [hst] at hmap
    cases hfound : fs.resolve s path with
    | error e =>
      rw [hfound] at hmap
      cases hmap
    | ok f =>
      rw [hfound] at hmap
      cases hmap
      exact ⟨f, hfound, hdir⟩
  refine Ends.bind hstat fun st => ?_
  cases st with
  | error _ => exact EndsOn.fails
  | ok st =>
    refine Ends.pure fun c t ht hr => ht st rfl ?_
    by_contra hne
    rw [if_neg hne] at hr
    cases hr

theorem mkdirExisting_looks (path : CStr) :
    EndsOn fs (fun _ => True) (Steps.mkdirExisting path) fun r t => r = 0 → fs.IsDir t path := by
  have hcheck : EndsOn fs (fun _ => True) (Steps.mkdirCheckExisting path)
      fun r t => r = 0 → fs.IsDir t path := by
    refine Ends.bind (ioIsdir_looks path) fun d => Ends.ite (fun _ => EndsOn.fails) fun _ => ?_
    refine Ends.ite (fun hd => ?_) fun _ => EndsOn.fails
    exact Ends.pure fun _ t ht _ => ht hd
  refine Ends.bind hcheck fun r => Ends.ite (fun _ => ?_) fun _ => Ends.pure fun _ _ h => h
  exact Ends.bind (Ends.modify _ fun _ _ h => h) fun _ => Ends.pure fun _ _ h => h

variable (hfs : Makes fs)

include hfs in
theorem mkdir_makes (path : CStr) (mode : Nat) :
    EndsOn fs (fun _ => True) (Steps.sys (.mkdir path mode))
      fun (r : Option Errno) t => r = none → fs.IsDir t path := by
  refine Ends.perform fun c s r t _ hans hr => ?_
  have hother : fs.other (.mkdir path mode) s = (r, t) := hans
  have hmade := hfs.made path mode s
  rw [hother] at hmade
  exact hmade hr

include hfs in
/-- `io_mkdir` returns 0 only when the directory is there. -/
theorem mkdirDepth_makes (n : Nat) (path : CStr) :
    EndsOn fs (fun _ => True) (Steps.mkdirDepth n path) fun r t => r = 0 → fs.IsDir t path := by
  cases n with
  | zero => exact EndsOn.fails
  | succ n =>
    have hdeep : EndsOn fs (fun _ => True) (Steps.mkdirDeep (Steps.mkdirDepth n) path)
        fun r t => r = 0 → fs.IsDir t path := by
      refine Ends.bind Ends.trivial fun p => Ends.ite (fun _ => EndsOn.fails) fun _ => ?_
      have hmkdirm : EndsOn fs (fun _ => True) (Steps.mkdirm path 0o755)
          fun r t => r = 0 → fs.IsDir t path := by
        refine Ends.bind (mkdir_makes hfs path 0o755) fun r => ?_
        cases r with
        | some _ => exact EndsOn.fails
        | none => exact Ends.pure fun _ _ h _ => h rfl
      refine Ends.bind hmkdirm fun r => Ends.ite (fun _ => ?_) fun _ => Ends.pure fun _ _ h => h
      exact Ends.bind (Ends.modify _ fun _ _ h => h) fun _ => Ends.pure fun _ _ h => h
    refine Ends.bind (mkdir_makes hfs path 0o755) fun r => ?_
    match r with
    | none =>
      exact Ends.bind (Ends.modify (Q := fun _ _ t => fs.IsDir t path) _ fun _ _ h => h rfl)
        fun _ => Ends.pure fun _ _ h _ => h
    | some .eexist => exact fun c s _ => mkdirExisting_looks path c s trivial
    | some .enoent => exact fun c s _ => hdeep c s trivial
    | some .eacces => exact EndsOn.fails
    | some .other => exact EndsOn.fails

include hfs in
theorem ioMkdir_keeps (path q : CStr) :
    EndsOn fs (fun s => fs.IsDir s q) (Steps.ioMkdir path) fun _ t => fs.IsDir t q := by
  have honly : Only (fun k => ∀ s, fs.IsDir s q → fs.IsDir (fs.answer k s).2 q) (Steps.ioMkdir path) :=
    only_mkdirDepth (fun p m s hs => hfs.kept p m s q hs) (fun _ _ hs => hs) _ path
  refine Ends.only honly fun k s r t hk hs hans => ?_
  have hkeep := hk s hs
  rwa [hans] at hkeep

/-- What an overlay mount is in need of. -/
def FileSystem.Both (fs : FileSystem S) (dirs : Dirs) (s : S) : Prop :=
  fs.IsDir s dirs.upperdir ∧ fs.IsDir s dirs.workdir

include hfs in
/-- After `io_mkdir` has returned 0 for the upper and the work directory, both are there. -/
theorem createOverlayDirs_makes (dirs : Dirs) :
    EndsOn fs (fun _ => True) (createOverlayDirs dirs) fun r t => r = 0 → fs.Both dirs t := by
  have hfails : ∀ t, (-1 : Int) = 0 → fs.Both dirs t := fun _ h => absurd h (by decide)
  refine Ends.bind Ends.trivial fun _ => ?_
  refine Ends.bind (mkdirDepth_makes hfs _ dirs.upperdir) fun r => Ends.ite (fun _ => ?_) fun hr => ?_
  · exact Ends.pure fun _ t _ => hfails t
  · have hwork : EndsOn fs (fun t => fs.IsDir t dirs.upperdir) (Steps.ioMkdir dirs.workdir)
        fun r t => fs.IsDir t dirs.upperdir ∧ (r = 0 → fs.IsDir t dirs.workdir) :=
      Ends.and (ioMkdir_keeps hfs dirs.workdir dirs.upperdir)
        (Ends.conseq (mkdirDepth_makes hfs _ dirs.workdir) (fun _ _ _ => trivial) fun _ _ _ h => h)
    refine Ends.bind (Ends.conseq hwork (fun _ s hs => hs (not_not.mp hr)) fun _ _ _ h => h) fun r => ?_
    refine Ends.pure fun _ t ht h => ⟨ht.1, ht.2 ?_⟩
    by_contra hne
    rw [if_pos hne] at h
    cases h

end Making

section Provisioned

variable (fs : FileSystem S) (s : S)

/-- The directories that stand on the loop file system, where that is mounted. -/
def standing (dirs : Dirs) (lp : Loop) (rootDev : Nat) (keepWork : Bool) : Option Dirs :=
  match fs.lstat s lp.loopdir with
  | .error _ => none
  | .ok st => if st.kind = .dir ∧ st.dev ≠ rootDev then setLoopAppdir dirs lp keepWork else none

/-- The directories that `handle_same_fs` takes as they stand, when it has found an upper
directory on the loop file system. -/
def takenOver (cfg : Cfg) (dirs : Dirs) (found : Int × Nat) : Option Dirs :=
  if found.1 ≤ 0 ∨ cfg.upperdir.isSome = true then none
  else
    match loopFill dirs.appdir with
    | none => none
    | some lp =>
        match loopDirsSet dirs cfg lp with
        | none => none
        | some dirs =>
            if fs.access s dirs.upperdir = none then
              standing fs s dirs lp found.2 cfg.workdir.isSome
            else none

/-- The directories that a run from `s` takes as they stand. -/
def provisioned (cfg : Cfg) : Option Dirs :=
  match resolveAppdir cfg with
  | none => none
  | some dirs =>
      takenOver fs s cfg dirs.tidy (detect fs s dirs.tidy.lowerdir dirs.tidy.upperdir)

variable {fs s} (hfs : Makes fs) {cfg : Cfg} {dirs : Dirs} {found : Int × Nat}

theorem lstat_yields (hlstat : ∀ path s, (fs.other (.lstat path) s).2 = s) (path : CStr) :
    Yields fs s (Steps.sys (.lstat path)) (fs.lstat s path) :=
  Yields.sys (hlstat path s)

theorem useProvisionedLoopback_yields (hlstat : ∀ path s, (fs.other (.lstat path) s).2 = s) (lp : Loop) (rootDev : Nat) (keepWork : Bool) :
    Yields fs s (useProvisionedLoopback dirs lp rootDev keepWork)
      ((standing fs s dirs lp rootDev keepWork).map fun d => { d with dirsCreated := true }) := by
  have hlook := lstat_yields (s := s) hlstat lp.loopdir
  unfold useProvisionedLoopback standing
  refine Yields.bind hlook ?_
  cases hst : fs.lstat s lp.loopdir with
  | error _ => exact Yields.pure _
  | ok st =>
    have hreal : Yields fs s (requireRealDir lp.loopdir) (if st.kind = .dir then 0 else -1) := by
      refine Yields.bind hlook ?_
      rw [hst]
      exact Yields.pure _
    refine Yields.bind hreal ?_
    dsimp only
    by_cases hdir : st.kind = .dir
    · rw [if_pos hdir, if_neg (by decide)]
      by_cases hdev : st.dev = rootDev
      · rw [if_pos hdev, if_neg (fun h => h.2 hdev)]
        exact Yields.pure _
      · rw [if_neg hdev, if_pos ⟨hdir, hdev⟩]
        cases setLoopAppdir dirs lp keepWork with
        | none => exact Yields.pure _
        | some d => exact Yields.pure _
    · rw [if_neg hdir, if_pos (by decide), if_neg (fun h => hdir h.1)]
      exact Yields.pure _

include hfs in
theorem takenOver_yields (pid : Nat) {d : Dirs} (h : takenOver fs s cfg dirs found = some d) :
    Yields fs s (afterDetect pid cfg dirs found) (some { d with dirsCreated := true }) := by
  unfold takenOver at h
  split at h
  · cases h
  · rename_i hgo
    unfold afterDetect
    rw [if_neg (by omega), if_neg (by omega), if_neg (fun hupper => hgo (Or.inr hupper))]
    cases hfill : loopFill dirs.appdir with
    | none =>
      rw [hfill] at h
      cases h
    | some lp =>
      rw [hfill] at h
      dsimp only at h ⊢
      cases hset : loopDirsSet dirs cfg lp with
      | none =>
        rw [hset] at h
        cases h
      | some moved =>
        rw [hset] at h
        dsimp only at h ⊢
        split at h
        · rename_i haccess
          refine Yields.bind (Yields.ioExists moved.upperdir) ?_
          rw [haccess, if_pos (show accessResult none = 0 from rfl)]
          have hyields : Yields fs s
              (useProvisionedLoopback moved lp found.2 cfg.workdir.isSome) _ :=
            useProvisionedLoopback_yields hfs.lstat lp found.2 cfg.workdir.isSome
          rwa [h] at hyields
        · cases h

variable (fs) in
/-- Whatever the calls answer, directories that are returned are not known to be there. -/
def Unknown (m : Steps (Option Dirs)) : Prop :=
  Ends (fun k s r t => fs.answer k s = (r, t)) (fun _ _ => True) m fun r _ _ =>
    ∀ d, r = some d → d.dirsCreated = false

theorem Unknown.fails : Unknown fs (pure none) := fun _ _ _ _ hd => by cases hd

theorem Unknown.bind {A : Type} {m : Steps A} {f : A → Steps (Option Dirs)}
    (hf : ∀ a, Unknown fs (f a)) : Unknown fs (m >>= f) :=
  Ends.bind Ends.trivial hf

theorem Unknown.ite {c : Prop} [Decidable c] {m n : Steps (Option Dirs)} (hm : Unknown fs m)
    (hn : Unknown fs n) : Unknown fs (if c then m else n) :=
  Ends.ite (fun _ => hm) fun _ => hn

theorem setLoopAppdir_created {lp : Loop} {keepWork : Bool} {d : Dirs}
    (h : setLoopAppdir dirs lp keepWork = some d) : d.dirsCreated = dirs.dirsCreated := by
  unfold setLoopAppdir at h
  dsimp only at h
  split at h
  · split at h
    · cases h
    · cases h
      rfl
  · split at h
    · cases h
    · cases h
      rfl

theorem loopDirsSet_created {lp : Loop} {d : Dirs} (h : loopDirsSet dirs cfg lp = some d) :
    d.dirsCreated = dirs.dirsCreated := by
  unfold loopDirsSet at h
  dsimp only at h
  split at h
  · split at h
    · cases h
    · cases h
      rfl
  · split at h
    · cases h
    · cases h
      rfl

theorem Unknown.setLoopAppdir {lp : Loop} {keepWork : Bool} (hdirs : dirs.dirsCreated = false) :
    Unknown fs (pure (setLoopAppdir dirs lp keepWork)) :=
  fun _ _ _ _ hd => (setLoopAppdir_created hd).trans hdirs

theorem unknown_loopback (pid : Nat) {lp : Loop} {keepWork : Bool} (hdirs : dirs.dirsCreated = false) :
    Unknown fs (setupExt4Loopback pid dirs lp keepWork) := by
  refine Unknown.bind fun r => Unknown.ite Unknown.fails (Unknown.bind fun id => ?_)
  cases id with
  | none => exact Unknown.fails
  | some id =>
    refine Unknown.bind fun r => Unknown.bind fun _ => ?_
    cases r with
    | some _ => exact Unknown.fails
    | none =>
      cases hset : Sandbox.setLoopAppdir dirs lp keepWork with
      | none => exact Unknown.fails
      | some d =>
        refine Unknown.bind fun r => ?_
        have hkeep : Unknown fs (pure (some d)) := by
          intro _ _ _ d' hd'
          cases hd'
          exact (setLoopAppdir_created hset).trans hdirs
        split
        · exact Unknown.fails
        · exact hkeep

theorem unknown_mounted (pid : Nat) {lp : Loop} {rootDev : Nat} {keepWork : Bool}
    (hdirs : dirs.dirsCreated = false) :
    Unknown fs (ensureExt4Mounted pid dirs lp rootDev keepWork) := by
  refine Unknown.bind fun st => ?_
  cases st with
  | error _ =>
    exact Unknown.bind fun r => Unknown.ite Unknown.fails (unknown_loopback pid hdirs)
  | ok st =>
    refine Unknown.bind fun r => Unknown.ite Unknown.fails ?_
    exact Unknown.ite (Unknown.setLoopAppdir hdirs) (unknown_loopback pid hdirs)

theorem Yields.result {A : Type} {m : Steps A} {a : A} (h : Yields fs s m a) {c : List Slot}
    (hc : Current fs s c) : ((m.run c).exec fs.answer s).1.1 = a := by
  obtain ⟨c', -, hrun⟩ := h c hc
  rw [hrun]

include hfs in
theorem afterDetect_unknown (pid : Nat) (h : takenOver fs s cfg dirs found = none)
    (hdirs : dirs.dirsCreated = false) {c : List Slot} (hc : Current fs s c) {d : Dirs}
    (hd : (((afterDetect pid cfg dirs found).run c).exec fs.answer s).1.1 = some d) :
    d.dirsCreated = false := by
  unfold afterDetect at hd
  unfold takenOver at h
  by_cases hneg : found.1 < 0
  · rw [if_pos hneg] at hd
    cases hd
  · rw [if_neg hneg] at hd
    by_cases hzero : found.1 = 0
    · rw [if_pos hzero] at hd
      cases hd
      exact hdirs
    · rw [if_neg hzero] at hd
      by_cases hupper : cfg.upperdir.isSome = true
      · rw [if_pos hupper] at hd
        cases hd
      · rw [if_neg hupper] at hd
        have hgo : ¬(found.1 ≤ 0 ∨ cfg.upperdir.isSome = true) := by
          rintro (hle | hsome)
          · omega
          · exact hupper hsome
        rw [if_neg hgo] at h
        cases hfill : loopFill dirs.appdir with
        | none =>
          rw [hfill] at hd
          cases hd
        | some lp =>
          rw [hfill] at h hd
          dsimp only at h hd
          cases hset : loopDirsSet dirs cfg lp with
          | none =>
            rw [hset] at hd
            cases hd
          | some moved =>
            rw [hset] at h hd
            dsimp only at h hd
            have hmoved : moved.dirsCreated = false := (loopDirsSet_created hset).trans hdirs
            have hlook : Yields fs s (Steps.ioExists moved.upperdir) _ := Yields.ioExists _
            obtain ⟨c', hc', hrun⟩ := hlook c hc
            rw [StateT.run_bind, exec_bind, hrun] at hd
            by_cases haccess : fs.access s moved.upperdir = none
            · rw [if_pos haccess] at h
              have hres : accessResult (fs.access s moved.upperdir) = 0 := by
                rw [haccess]
                rfl
              dsimp only at hd
              rw [if_pos hres] at hd
              have hprov : Yields fs s
                  (useProvisionedLoopback moved lp found.2 cfg.workdir.isSome) _ :=
                useProvisionedLoopback_yields hfs.lstat lp found.2 cfg.workdir.isSome
              have hyields := hprov.result hc'
              rw [h] at hyields
              rw [hyields] at hd
              cases hd
            · have hres : ¬accessResult (fs.access s moved.upperdir) = 0 := by
                cases hfound : fs.access s moved.upperdir with
                | none => exact absurd hfound haccess
                | some e => cases e <;> decide
              dsimp only at hd
              rw [if_neg hres] at hd
              have hunknown : EndsOn fs (fun _ => True) (ensureExt4Mounted pid moved lp found.2
                  cfg.workdir.isSome) fun r _ => ∀ d, r = some d → d.dirsCreated = false :=
                unknown_mounted pid hmoved
              exact hunknown.exec trivial d hd

end Provisioned

end Cage.Sandbox
