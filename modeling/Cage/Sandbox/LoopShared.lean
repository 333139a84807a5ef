import Cage.Sandbox.ImageAtomic
import Cage.Sandbox.LoopAlone

/-!
Any number of runs of cage at one loop directory, in any interleaving of their calls.
-/

namespace Cage.Sandbox

open Lib.Program Lib.Runs Util Ext4

/-- The runs, each about to call `handle_same_fs`. -/
def visiting (runs : Nat → Visit) (s : LoopFs) :
    World Nat Call Call.Ret (Option Dirs × List Slot) LoopFs where
  shared := s
  prog p := (handleSameFs (runs p).pid (runs p).cfg (runs p).dirs).run (runs p).cache
  dead _ := false

/-- There is no image yet, and nothing is mounted. -/
structure Unused (k : Site) (s : LoopFs) : Prop where
  image : s.files.entry k.img = none
  opened : s.opened = []
  loops : ∀ id, s.loops id = none
  mounts : s.mounts = []

/-- What is mounted on the loop directory is the file that stands under the image's
name, mounted once and through the only device that is bound to it, and a run that has
gone on with an upper directory there finds it mounted. -/
structure KeepsImage (k : Site) (w : World Nat Call Call.Ret (Option Dirs × List Slot) LoopFs) :
    Prop where
  attached : ∀ id ∈ w.shared.mounts,
    ∃ i, w.shared.loops id = some i ∧ w.shared.files.entry k.img = some i
  single : ∀ id id' i, w.shared.loops id = some i → w.shared.loops id' = some i → id = id'
  once : w.shared.mounts.length ≤ 1
  used : ∀ p r c, w.prog p = .done (r, c) → Lands k r → w.shared.mounts ≠ []

variable {k : Site} {runs : Nat → Visit} {s : LoopFs}
  {w : World Nat Call Call.Ret (Option Dirs × List Slot) LoopFs}

/-- The loop directory of the appdirs in `/d`, with all else on one device. -/
def dSite : Site where
  loopdir := lit "/d-loop"
  base := 1
  stat _ _ := .ok { dev := 1, kind := .dir }

def dDirs : Dirs where
  appdir := lit "/d/a"
  upperdir := lit "/d/a/upper"
  workdir := lit "/d/a/work"
  lowerdir := lit "/"
  dirsCreated := false

def dCfg : Cfg :=
  { appdir := some (lit "/d/a"), name := none, upperdir := none, workdir := none, lowerdir := none }

/-- Runs on the appdir `/d/a`. -/
def dVisit (pid : Nat) : Visit := { pid := pid, cfg := dCfg, dirs := dDirs, cache := [] }

/-- All calls succeed, but that there is no upper directory yet; run `n` is given the
loop device of that number. -/
def dPick (n : Nat) : Call → Choice
  | .access path => if path = lit "/d-loop/a/upper" then { allFull with full := false, errno := .enoent } else allFull
  | .loopFree => { allFull with part := n }
  | _ => allFull

theorem dPick_access (n : Nat) {path : CStr} (h : path ≠ lit "/d-loop/a/upper") :
    dPick n (.access path) = allFull := by
  unfold dPick
  exact if_neg h

/-- Nothing is there. -/
def dStart : LoopFs := { files := emptyDir, plain := some .dir, loops := fun _ => none, keeper := fun _ => 0, opened := [], mounts := [] }

/-- The loop directory of `/d/a`. -/
def dLoop : Loop where
  loopdir := lit "/d-loop"
  loopImg := lit "/d-loop.img"
  loopAppdir := lit "/d-loop/a"

/-- The upper directory once it has been moved. -/
def dUpper : Dirs := { dDirs with upperdir := lit "/d-loop/a/upper" }

section Scene

variable {p n fd : Nat} {s t : LoopFs}

theorem d_stat (path : CStr) : Does dSite p (dPick n) isLate (Steps.sys (.stat path)) s
    (.ok { dev := 1, kind := .dir }) s :=
  Does.sys rfl rfl

theorem d_detects :
    Does dSite p (dPick n) isLate (sameFsDetect dDirs.lowerdir dDirs.upperdir) s (1, 1) s := by
  have hap : cutLast dDirs.upperdir = lit "/d/a" := by decide
  have haccess : answers dSite p (dPick n) (.access (lit "/d/a")) s = (none, s) := by
    unfold answers
    rw [dPick_access n (by decide)]
    simp only [LoopFs.answer]
    rw [if_neg (show lit "/d/a" ≠ dSite.img by decide)]
    rfl
  have hwithin : isWithin (lit "/d/a") dDirs.lowerdir = true := by decide
  unfold sameFsDetect
  rw [hap]
  dsimp only
  refine Does.bind (a := some (lit "/d/a")) (t := s) ?_ ?_
  · rw [resolveExistingParent]
    refine Does.bind (Does.ioExists rfl haccess) ?_
    exact Does.pure
  · dsimp only
    unfold needsLoopback
    refine Does.bind (d_stat dDirs.lowerdir) ?_
    dsimp only
    rw [if_pos hwithin]
    refine Does.bind (Does.bind (d_stat dDirs.lowerdir) ?_) Does.pure
    exact Does.bind (d_stat (lit "/d/a")) Does.pure

theorem d_upper : Does dSite p (dPick n) isLate (Steps.ioExists dUpper.upperdir) s 1 s := by
  have haccess : answers dSite p (dPick n) (.access (lit "/d-loop/a/upper")) s = (some .enoent, s) := by
    have hpick : dPick n (.access (lit "/d-loop/a/upper")) = { allFull with full := false, errno := .enoent } := by
      unfold dPick
      exact if_pos rfl
    unfold answers
    rw [hpick]
    simp only [LoopFs.answer]
    rw [if_neg (show lit "/d-loop/a/upper" ≠ dSite.img by decide)]
    rfl
  exact Does.ioExists rfl haccess

/-- The loop directory is there, and nothing is mounted. -/
theorem d_lstat (hplain : s.plain = some .dir) (hmounts : s.mounts = []) :
    Does dSite p (dPick n) isLate (Steps.sys (.lstat dLoop.loopdir)) s
      (.ok { dev := 1, kind := .dir }) s := by
  refine Does.sys rfl ?_
  unfold answers
  simp only [LoopFs.answer, dPick, hplain]
  rw [if_pos ⟨rfl, rfl⟩]
  simp only [Site.dev, hmounts]
  rfl

theorem d_realDir (hplain : s.plain = some .dir) (hmounts : s.mounts = []) :
    Does dSite p (dPick n) isLate (requireRealDir dLoop.loopdir) s 0 s :=
  Does.bind (d_lstat hplain hmounts) Does.pure

/-- In the scene `handle_same_fs` comes to `setup_ext4_loopback`. -/
theorem d_reaches (pid : Nat) (hplain : s.plain = some .dir) (hmounts : s.mounts = []) :
    ((handleSameFs pid dCfg dDirs).run []).upTo (answers dSite p (dPick n)) isLate s =
      ((setupExt4Loopback pid dUpper dLoop false).run []).upTo (answers dSite p (dPick n)) isLate s := by
  have hfill : loopFill dDirs.appdir = some dLoop := by decide
  have hset : loopDirsSet dDirs dCfg dLoop = some dUpper := by decide
  unfold handleSameFs
  rw [d_detects.rest]
  dsimp only
  rw [if_neg (by decide), if_neg (by decide), if_neg (by decide), hfill]
  dsimp only
  rw [hset]
  dsimp only
  rw [d_upper.rest, if_neg (by decide)]
  unfold ensureExt4Mounted
  rw [(d_lstat hplain hmounts).rest]
  dsimp only
  rw [(d_realDir hplain hmounts).rest]
  rfl

theorem d_works : Works (dPick n) := by
  intro call hopen
  cases call <;> first | rfl | exact hopen.elim

theorem d_undisturbed {pid : Nat} (hshort : (tmpName dSite.img pid).length < bufSize)
    (himage : s.files.entry dSite.img = none) (htmp : s.files.entry (tmpName dSite.img pid) = none) :
    Undisturbed dSite (dPick n) pid s where
  works := d_works
  full call := by
    cases call with
    | access path =>
      by_cases hpath : path = dSite.img
      · refine Or.inl (dPick_access n ?_)
        rw [hpath]
        decide
      · exact Or.inr (Or.inl ⟨path, rfl, hpath⟩)
    | loopFree => exact Or.inr (Or.inr rfl)
    | _ => exact Or.inl rfl
  short := hshort
  image := himage
  tmp := htmp

theorem d_image : dLoop.loopImg = dSite.img := by decide

/-- The directories of a run that has moved. -/
def dDone : Dirs where
  appdir := lit "/d-loop/a"
  upperdir := lit "/d-loop/a/upper"
  workdir := lit "/d-loop/a/work"
  lowerdir := lit "/"
  dirsCreated := false

/-- The image opened to attach it. -/
def LoopFs.opening (s : LoopFs) (fd : Nat) : LoopFs := { s with opened := fd :: s.opened }

/-- Device `n` mounted. -/
def LoopFs.mounting (s : LoopFs) (n : Nat) : LoopFs := { s with mounts := n :: s.mounts }

/-- `m` mounts device `n` on the loop directory and returns. -/
def Mounts (p n : Nat) (m : Steps (Option Dirs)) : Prop :=
  ∀ s : LoopFs, s.plain = some .dir → (s.loops n).isSome →
    Does dSite p (dPick n) isLate m s (some dDone) (s.mounting n)

/-- `m` attaches the image to device `n`, which is free, and then mounts it. -/
def Attaches (p n : Nat) (m : Steps (Option Dirs)) : Prop :=
  ∀ (s : LoopFs) (fd : Nat), s.files.opens dSite.img = some fd → s.loops n = none →
    ∃ m', Halts dSite p (dPick n) isLate m s (.loopSet n fd) (s.opening fd) true m' ∧ Mounts p n m'

theorem d_ioLoop (hopens : s.files.opens dSite.img = some fd) (hfree : s.loops n = none) :
    Halts dSite p (dPick n) isLate (ioLoop dSite.img) s (.loopSet n fd) (s.opening fd) true
      (Steps.sys (.close fd) >>= fun _ => pure (some n)) := by
  have hdevice : answers dSite p (dPick n) .loopFree s = (some n, s) := by
    simp [answers, LoopFs.answer, dPick, allFull, hfree]
  have hopen : answers dSite p (dPick n) (.openRw dSite.img) s = (some fd, s.opening fd) := by
    simp [answers, LoopFs.answer, ImageFs.answer, dPick, allFull, hopens, LoopFs.opening]
  refine Halts.bind (Does.sys rfl hdevice) (Halts.bind (Does.sys rfl hopen) ?_)
  exact (Halts.sys rfl).first

theorem d_mountLoop (hplain : s.plain = some .dir) (hbound : (s.loops n).isSome) :
    Does dSite p (dPick n) isLate (Steps.sys (.mountLoop n dLoop.loopdir)) s none (s.mounting n) := by
  refine Does.sys rfl ?_
  show (if _ then _ else _) = _
  rw [if_pos ⟨rfl, by decide, hplain, hbound⟩]
  rfl

theorem d_loopClose :
    Does dSite p (dPick n) isLate (Steps.sys (.loopClose n)) (s.mounting n) () (s.mounting n) := by
  refine Does.sys rfl ?_
  have hmounted : n ∈ (s.mounting n).mounts := List.mem_cons_self
  show ((), (s.mounting n).unbind n) = _
  rw [LoopFs.unbind_of_mounted _ hmounted]

theorem d_mkdir : Does dSite p (dPick n) isLate (mkdirChecked dDone.appdir) s 0 s := by
  have hmkdir : answers dSite p (dPick n) (.mkdir dDone.appdir 0o755) s = (none, s) := by
    have hne : dDone.appdir ≠ dSite.loopdir := by decide
    simp [answers, LoopFs.answer, dPick, allFull, hne]
  exact Does.bind (Does.ioMkdir rfl hmkdir) Does.pure

/-- With the image attached, `setup_ext4_loopback` mounts it. -/
theorem d_mounts (pid : Nat) : ∃ g, setupExt4Loopback pid dUpper dLoop false =
    (setupExt4Img pid dLoop.loopImg >>= fun r =>
      if r ≠ 0 then pure none else ioLoop dLoop.loopImg >>= g) ∧ Mounts p n (g (some n)) := by
  have hset : setLoopAppdir dUpper dLoop false = some dDone := by decide
  refine ⟨_, rfl, fun u hthere hbound => ?_⟩
  refine Does.bind (d_mountLoop hthere hbound) (Does.bind d_loopClose ?_)
  dsimp only
  rw [hset]
  exact Does.bind d_mkdir Does.pure

/-- A run that has built its image comes to its `rename`, and then attaches and mounts
what it has put in place. -/
theorem d_renames {pid : Nat} (hs : Undisturbed dSite (dPick n) pid s)
    (hplain : s.plain = some .dir) (hmounts : s.mounts = []) :
    ∃ f m, Halts dSite p (dPick n) isLate (handleSameFs pid dCfg dDirs) s
      (.rename (tmpName dSite.img pid) dSite.img) (s.made p (tmpName dSite.img pid) f) none m ∧
        Attaches p n m := by
  obtain ⟨f, hhalts⟩ := hs.halts (p := p)
  obtain ⟨g, hg, hmount⟩ := d_mounts (p := p) (n := n) pid
  rw [d_image] at hg
  refine ⟨f, ioLoop dSite.img >>= g, ?_, fun t fd hopens hfree =>
    ⟨(Steps.sys (.close fd) >>= fun _ => pure (some n)) >>= g, ?_, fun u hthere hbound => ?_⟩⟩
  · unfold Halts
    rw [d_reaches pid hplain hmounts, hg]
    exact hhalts.first
  · exact (d_ioLoop hopens hfree).first
  · exact Does.bind (Does.bind (Does.sys rfl rfl) Does.pure) (hmount u hthere hbound)

/-- The image of run `p` under its name. -/
def LoopFs.installed (s : LoopFs) (p pid : Nat) (f : File) : LoopFs :=
  { s.made p (tmpName dSite.img pid) f with
    files := (s.made p (tmpName dSite.img pid) f).files.move (tmpName dSite.img pid) dSite.img }

/-- The image that stands there, attached to device `n` and mounted by run `p`. -/
def LoopFs.inUse (s : LoopFs) (p n fd : Nat) : LoopFs :=
  ((s.opening fd).bind p n fd).mounting n

theorem inUse_loops : (s.inUse p n fd).loops n = some fd :=
  (s.opening fd).bind_self (p := p)

theorem inUse_other {j : Nat} (h : j ≠ n) : (s.inUse p n fd).loops j = s.loops j :=
  (s.opening fd).bind_of_ne (p := p) h

theorem move_opens {f : File} {old new : CStr} (hentry : s.files.entry old = some fd)
    (hnode : s.files.node fd = .file f) : (s.files.move old new).opens new = some fd := by
  unfold ImageFs.opens
  rw [ImageFs.move_self, hentry]
  dsimp only
  rw [ImageFs.move_node, hnode]

theorem made_node (path : CStr) (f : File) : (s.made p path f).files.node s.files.next = .file f :=
  Function.update_self _ _ _

theorem made_other {path path' : CStr} (f : File) (h : path' ≠ path) :
    (s.made p path f).files.entry path' = s.files.entry path' :=
  s.files.make_of_ne p h

theorem installed_opens (pid : Nat) (f : File) :
    (s.installed p pid f).files.opens dSite.img = some s.files.next :=
  move_opens (s.made_entry p (tmpName dSite.img pid) f) (made_node _ f)

theorem installed_other {path : CStr} (pid : Nat) (f : File) (htmp : path ≠ tmpName dSite.img pid)
    (himg : path ≠ dSite.img) : (s.installed p pid f).files.entry path = s.files.entry path :=
  ((s.made p (tmpName dSite.img pid) f).files.move_of_ne htmp himg).trans (made_other f htmp)

theorem installed_node {i : Nat} (pid : Nat) (f : File) (h : i ≠ s.files.next) :
    (s.installed p pid f).files.node i = s.files.node i := by
  show (ImageFs.move _ _ _).node i = _
  rw [ImageFs.move_node]
  exact (Function.update_of_ne h _ _).trans (Function.update_of_ne h _ _)

section Together

variable {w : World Nat Call Call.Ret (Option Dirs × List Slot) LoopFs} (hshared : w.shared = s)
  (hdead : w.dead p = false)

include hshared hdead in
/-- With a device that is free, `m` comes to its end. -/
theorem Attaches.goes {allow : Nat → Call → LoopFs → Prop}
    (hearly : ∀ call s, isLate call = false → allow p call s) {m : Steps (Option Dirs)}
    (h : Attaches p n m) (hprog : w.prog p = m.run []) (hopens : s.files.opens dSite.img = some fd)
    (hfree : s.loops n = none) (hplain : s.plain = some .dir)
    (hallow : allow p (.loopSet n fd) (s.opening fd)) :
    Run (step (LoopFs.answer dSite)) (Allowed allow) w
      (w.reach p (.done (some dDone, [])) (s.inUse p n fd)) := by
  obtain ⟨m', hhalts, hmounts⟩ := h s fd hopens hfree
  have hset : LoopFs.answer dSite p allFull (.loopSet n fd) (s.opening fd) =
      (true, (s.opening fd).bind p n fd) := by
    simp [LoopFs.answer, allFull, LoopFs.opening, hfree]
  have hbound : (((s.opening fd).bind p n fd).loops n).isSome := by
    rw [(s.opening fd).bind_self]
    rfl
  have hattached := hhalts.goes hearly hshared hdead hprog hallow hset
  have hmounted := Does.run hearly (w := w.reach p (m'.run []) ((s.opening fd).bind p n fd))
    rfl hdead (hmounts _ hplain hbound) (w.reach_prog _ _ _)
  rw [World.reach_twice] at hmounted
  exact hattached.trans hmounted

theorem spares_early {k : Site} (call : Call) (s : LoopFs) (h : isLate call = false) :
    Spares k p call s := by
  cases call <;> trivial

include hshared hdead in
/-- A run that is left alone puts its image in place and mounts it. -/
theorem d_alone {pid : Nat} (hs : Undisturbed dSite (dPick n) pid s) (hplain : s.plain = some .dir)
    (hmounts : s.mounts = []) (hopened : s.opened = []) (hloops : ∀ id, s.loops id = none)
    (hprog : w.prog p = (handleSameFs pid dCfg dDirs).run []) :
    ∃ f, Run (step (LoopFs.answer dSite)) (Allowed (Spares dSite)) w
      (w.reach p (.done (some dDone, [])) ((s.installed p pid f).inUse p n s.files.next)) := by
  obtain ⟨f, m, hhalts, hattaches⟩ := d_renames (p := p) hs hplain hmounts
  refine ⟨f, ?_⟩
  have hentry := s.made_entry p (tmpName dSite.img pid) f
  have hallow : Spares dSite p (.rename (tmpName dSite.img pid) dSite.img)
      (s.made p (tmpName dSite.img pid) f) := by
    intro _ i hi
    rw [show (s.made p (tmpName dSite.img pid) f).opened = [] from hopened] at hi
    cases hi
  have hinstalled := hhalts.goes spares_early hshared hdead hprog hallow
    (answer_rename _ dSite p hentry)
  have hmounted := hattaches.goes (w := w.reach p (m.run []) (s.installed p pid f)) rfl hdead
    (spares_early (k := dSite)) (w.reach_prog _ _ _) (installed_opens pid f) (hloops n)
    hplain (fun id hid => by cases (hloops id).symm.trans hid)
  rw [World.reach_twice] at hmounted
  exact hinstalled.trans hmounted

end Together

end Scene

theorem d_unused : Unused dSite dStart := ⟨rfl, rfl, fun _ => rfl, rfl⟩

theorem d_visits (pid : Nat) : Visits dSite (dVisit pid) where
  loop := show deriveLoopdir dDirs.appdir = some dSite.loopdir by decide
  lower _ st hst := by
    cases hst
    rfl
  inside h := by
    have hout : pathUnder dDirs.upperdir dSite.loopdir = false := by decide
    change pathUnder dDirs.upperdir dSite.loopdir = true at h
    rw [hout] at h
    cases h

theorem visiting_safe (hruns : ∀ p, Visits k (runs p)) :
    AllSafe (LoopFs.answer k) (Orderly k) (sharing k) (fun _ r t => Lands k r.1 → Mounted t)
      (visiting runs s) :=
  fun p t _ => sharing_handleSameFs (hruns p) (runs p).cache t trivial

theorem Unused.intact (hs : Unused k s) : Intact k s where
  opened i hi := by
    rw [hs.opened] at hi
    cases hi
  bound id i hi := by
    rw [hs.loops] at hi
    cases hi
  single id _ i hi := by
    rw [hs.loops] at hi
    cases hi
  mounted id hid := by
    rw [hs.mounts] at hid
    cases hid
  once := by
    rw [hs.mounts]
    exact Nat.zero_le 1

/-- In every state that any runs reach which replace no image that one of them has
opened, and attach no file that is attached, the image that is mounted is the one under
the image's name, and it is mounted once. -/
theorem loopImage_kept (hs : Unused k s) (hruns : ∀ p, Visits k (runs p))
    (hrun : Run (step (LoopFs.answer k)) (Allowed (Spares k)) (visiting runs s) w) :
    KeepsImage k w := by
  obtain ⟨hsafe, hintact⟩ := (visiting_safe hruns).run_knowing (Intact k)
    (fun _ _ _ => Forward.intact) hs.intact hrun
  refine ⟨fun id hid => ?_, hintact.single, hintact.once, fun p r c hdone hlands => ?_⟩
  · obtain ⟨i, hi⟩ := Option.isSome_iff_exists.mp (hintact.mounted id hid)
    exact ⟨i, hi, hintact.opened i (hintact.bound id i hi)⟩
  · have hp := hsafe p w.shared Relied.refl
    rw [hdone] at hp
    exact hp hlands

/-- A run that is left alone, to its end. -/
theorem loopImage_kept_first :
    ∃ w, Run (step (LoopFs.answer dSite)) (Allowed (Spares dSite)) (visiting dVisit dStart) w ∧
      w.prog 0 = .done (some dDone, []) ∧ w.shared.mounts = [0] ∧ KeepsImage dSite w := by
  have hs : Undisturbed dSite (dPick 0) 0 dStart := d_undisturbed (by decide) rfl rfl
  obtain ⟨f, hrun⟩ := d_alone (p := 0) (w := visiting dVisit dStart) rfl rfl hs rfl rfl rfl
    (fun _ => rfl) rfl
  exact ⟨_, hrun, World.reach_prog _ _ _ _, rfl, loopImage_kept d_unused d_visits hrun⟩

/-- Every call is allowed. -/
def Anyhow (_ : Nat) (_ : Call) (_ : LoopFs) : Prop := True

theorem anyhow {p : Nat} {call : Call} {s : LoopFs} : Anyhow p call s := trivial

theorem anyhow_early {p : Nat} (call : Call) (s : LoopFs) (_ : isLate call = false) :
    Anyhow p call s := anyhow

/-- Run 0 and run 1 may come to `m₀` and `m₁`, with the loop directory as in `s`. -/
def Comes (s : LoopFs) (m₀ m₁ : Prog Call Call.Ret (Option Dirs × List Slot)) : Prop :=
  ∃ w, Run (step (LoopFs.answer dSite)) (Allowed Anyhow) (visiting dVisit dStart) w ∧
    w.shared = s ∧ w.prog 0 = m₀ ∧ w.prog 1 = m₁ ∧ ∀ p, w.dead p = false

section Two

variable {s t : LoopFs} {m₀ m₁ m : Prog Call Call.Ret (Option Dirs × List Slot)}

theorem Comes.first (h : Comes s m₀ m₁)
    (hrun : ∀ w : World Nat Call Call.Ret (Option Dirs × List Slot) LoopFs, w.shared = s →
      w.dead 0 = false → w.prog 0 = m₀ →
        Run (step (LoopFs.answer dSite)) (Allowed Anyhow) w (w.reach 0 m t)) : Comes t m m₁ := by
  obtain ⟨w, hw, hs, h₀, h₁, hdead⟩ := h
  exact ⟨_, hw.trans (hrun w hs (hdead 0) h₀), rfl, w.reach_prog _ _ _,
    (w.reach_prog_of_ne _ _ (by decide)).trans h₁, hdead⟩

theorem Comes.second (h : Comes s m₀ m₁)
    (hrun : ∀ w : World Nat Call Call.Ret (Option Dirs × List Slot) LoopFs, w.shared = s →
      w.dead 1 = false → w.prog 1 = m₁ →
        Run (step (LoopFs.answer dSite)) (Allowed Anyhow) w (w.reach 1 m t)) : Comes t m₀ m := by
  obtain ⟨w, hw, hs, h₀, h₁, hdead⟩ := h
  exact ⟨_, hw.trans (hrun w hs (hdead 1) h₁), rfl, (w.reach_prog_of_ne _ _ (by decide)).trans h₀,
    w.reach_prog _ _ _, hdead⟩

theorem Comes.second_halts {n : Nat} {m m' : Steps (Option Dirs)} {call : Call} {r : call.Ret}
    (h : Comes s m₀ (m.run [])) (hhalts : Halts dSite 1 (dPick n) isLate m s call t r m') :
    ∃ next, next r = m'.run [] ∧ Comes t m₀ (.call call next) := by
  obtain ⟨w, hw, hs, h₀, h₁, hdead⟩ := h
  obtain ⟨next, hnext, hrun⟩ := hhalts.run anyhow_early hs (hdead 1) h₁
  exact ⟨next, hnext, _, hw.trans hrun, rfl, (w.reach_prog_of_ne _ _ (by decide)).trans h₀,
    w.reach_prog _ _ _, hdead⟩

theorem comes_start : Comes dStart ((handleSameFs 0 dCfg dDirs).run [])
    ((handleSameFs 1 dCfg dDirs).run []) :=
  ⟨_, Run.refl, rfl, rfl, rfl, fun _ => rfl⟩

theorem d_tmp : tmpName dSite.img 0 ≠ tmpName dSite.img 1 :=
  fun h => absurd (tmpName_inj h) (by decide)

/-- Run 1 has built its image, as file 0, and nothing else has been done. -/
structure Built (s : LoopFs) : Prop where
  plain : s.plain = some .dir
  loops : ∀ id, s.loops id = none
  opened : s.opened = []
  mounts : s.mounts = []
  next : s.files.next = 1
  image : s.files.entry dSite.img = none
  first : s.files.entry (tmpName dSite.img 0) = none
  second : s.files.entry (tmpName dSite.img 1) = some 0
  node : ∃ f, s.files.node 0 = .file f

theorem Built.of_made (f : File) : Built (dStart.made 1 (tmpName dSite.img 1) f) where
  plain := rfl
  loops _ := rfl
  opened := rfl
  mounts := rfl
  next := rfl
  image := made_other f (tmpName_ne dSite.img 1).symm
  first := made_other f d_tmp
  second := dStart.made_entry 1 _ f
  node := ⟨f, made_node _ f⟩

theorem comes_built : ∃ s m next, Built s ∧ next none = m.run [] ∧ Attaches 1 1 m ∧
    Comes s ((handleSameFs 0 dCfg dDirs).run [])
      (.call (.rename (tmpName dSite.img 1) dSite.img) next) := by
  have hs : Undisturbed dSite (dPick 1) 1 dStart := d_undisturbed (by decide) rfl rfl
  obtain ⟨f, m, hhalts, hattaches⟩ := d_renames (p := 1) hs rfl rfl
  obtain ⟨next, hnext, hbuilt⟩ := comes_start.second_halts hhalts
  exact ⟨_, m, next, Built.of_made f, hnext, hattaches, hbuilt⟩

variable (hs : Built s)

include hs in
theorem Built.undisturbed : Undisturbed dSite (dPick 0) 0 s :=
  d_undisturbed (by decide) hs.image hs.first

include hs in
/-- What run 1 has made stands beside what run 0 puts in place. -/
theorem Built.installed (g : File) : (s.installed 0 0 g).files.entry (tmpName dSite.img 1) = some 0 :=
  (installed_other 0 g d_tmp.symm (tmpName_ne dSite.img 1)).trans hs.second

/-- Run 0 comes to its end in between, and then run 1 puts its image in the place of the
one that is mounted. -/
theorem comes_replaced : ∃ (s : LoopFs) (m₀ m₁ : Prog Call Call.Ret (Option Dirs × List Slot)),
    Comes s m₀ m₁ ∧ s.mounts = [0] ∧ s.loops 0 = some 1 ∧ s.files.entry dSite.img = some 0 := by
  obtain ⟨s, m, next, hs, -, -, hbuilt⟩ := comes_built
  obtain ⟨g, m', hhalts, hattaches⟩ := d_renames (p := 0) hs.undisturbed hs.plain hs.mounts
  have hinstalled : Comes (s.installed 0 0 g) _ _ := hbuilt.first fun w hshared hdead hprog =>
    hhalts.goes anyhow_early hshared hdead hprog anyhow (answer_rename _ dSite 0 (s.made_entry 0 _ g))
  have hopens : (s.installed 0 0 g).files.opens dSite.img = some 1 :=
    (installed_opens 0 g).trans (congrArg some hs.next)
  have hmounted : Comes ((s.installed 0 0 g).inUse 0 0 1) _ _ := hinstalled.first fun w hshared hdead hprog =>
    hattaches.goes hshared hdead anyhow_early hprog hopens (hs.loops 0) hs.plain anyhow
  have hreplaced := hmounted.second fun w hshared hdead hprog =>
    run_call hshared hdead hprog anyhow (answer_rename _ dSite 1 (hs.installed g))
  refine ⟨_, _, _, hreplaced, ?_, ?_, (ImageFs.move_self _).trans (hs.installed g)⟩
  · exact congrArg (List.cons 0) hs.mounts
  · show ((s.installed 0 0 g).inUse 0 0 1).loops 0 = some 1
    exact inUse_loops

/-- Both put their images in place before either attaches what stands there, which then
is the same for both. -/
theorem comes_attachedTwice : ∃ s : LoopFs,
    Comes s (.done (some dDone, [])) (.done (some dDone, [])) ∧
      s.mounts = [1, 0] ∧ s.loops 0 = some 0 ∧ s.loops 1 = some 0 := by
  obtain ⟨s, m, next, hs, hnext, hattaches, hbuilt⟩ := comes_built
  obtain ⟨g, m', hhalts, hattaches'⟩ := d_renames (p := 0) hs.undisturbed hs.plain hs.mounts
  have hinstalled : Comes (s.installed 0 0 g) _ _ := hbuilt.first fun w hshared hdead hprog =>
    hhalts.goes anyhow_early hshared hdead hprog anyhow (answer_rename _ dSite 0 (s.made_entry 0 _ g))
  have hreplaced := hinstalled.second fun w hshared hdead hprog =>
    run_call hshared hdead hprog anyhow (answer_rename _ dSite 1 (hs.installed g))
  rw [hnext] at hreplaced
  obtain ⟨f, hnode⟩ := hs.node
  have hzero : 0 ≠ s.files.next := by
    rw [hs.next]
    decide
  have hopens : ((s.installed 0 0 g).files.move (tmpName dSite.img 1) dSite.img).opens dSite.img =
      some 0 :=
    move_opens (hs.installed g) ((installed_node 0 g hzero).trans hnode)
  have hmounted := hreplaced.first fun w hshared hdead hprog =>
    hattaches'.goes hshared hdead anyhow_early hprog hopens (hs.loops 0) hs.plain anyhow
  have hagain := hmounted.second fun w hshared hdead hprog =>
    hattaches.goes hshared hdead anyhow_early hprog hopens (hs.loops 1) hs.plain anyhow
  refine ⟨_, hagain, ?_, ?_, inUse_loops⟩
  · exact congrArg (fun l => 1 :: 0 :: l) hs.mounts
  · exact (inUse_other (by decide)).trans inUse_loops

end Two

/-- Two first runs: the one has built its image when the other puts its own in place and
mounts it, and then replaces it; or each attaches and mounts what the one has put in
place. -/
theorem loopImage_replaced :
    ¬ (∀ (k : Site) (runs : Nat → Visit) (s : LoopFs)
      (w : World Nat Call Call.Ret (Option Dirs × List Slot) LoopFs),
      Unused k s → (∀ p, Visits k (runs p)) →
        Run (step (LoopFs.answer k)) Any (visiting runs s) w → KeepsImage k w) ∧
    ∃ w, Run (step (LoopFs.answer dSite)) Any (visiting dVisit dStart) w ∧
      w.prog 0 = .done (some dDone, []) ∧ w.prog 1 = .done (some dDone, []) ∧
        w.shared.mounts = [1, 0] ∧ w.shared.loops 0 = some 0 ∧ w.shared.loops 1 = some 0 := by
  refine ⟨fun h => ?_, ?_⟩
  · obtain ⟨s, m₀, m₁, ⟨w, hrun, hshared, -⟩, hmounts, hloops, hentry⟩ := comes_replaced
    have hkeeps := h dSite dVisit dStart w d_unused d_visits (hrun.weaken fun _ _ _ => trivial)
    have hmounted : 0 ∈ w.shared.mounts := by
      rw [hshared, hmounts]
      exact List.mem_singleton_self 0
    obtain ⟨i, hi, himage⟩ := hkeeps.attached 0 hmounted
    rw [hshared, hloops] at hi
    rw [hshared, hentry, ← hi] at himage
    cases himage
  · obtain ⟨s, ⟨w, hrun, hshared, hfirst, hsecond, -⟩, hmounts, hloops, hloops'⟩ := comes_attachedTwice
    rw [← hshared] at hmounts hloops hloops'
    exact ⟨w, hrun.weaken fun _ _ _ => trivial, hfirst, hsecond, hmounts, hloops, hloops'⟩

end Cage.Sandbox
