import Cage.Util.IoCacheSafe

/-!
`io_rmtree`, and the answers of `io_exists` over whole runs. Below the root
`io_rmtree` keeps them right. The paths it builds for the children of the root
start with two slashes and drop no cached answer, so there they have to be
dropped before, or be of missing files.
-/

namespace Cage.Util

open Cage.Lib Cage.Lib.Hoare

/-- What `io_rmtree` needs of an invariant to keep it, on the paths `c` and the
ones that it builds from these: after a removal at the path `j` holds until its
answers are dropped. -/
structure Removal (i : IoState Disk → Prop) (j : CStr → IoState Disk → Prop) (c : CStr → Prop) :
    Prop where
  wf : ∀ w, i w → w.sys.Wf
  looks : ∀ {A : Type} {m : StateM Disk A}, Looks m → Keeps i (Io.sys m)
  cut : ∀ path, c path → ∀ act, KeepsRoot act → Removes act →
    Triple i (Io.sys (change path act)) fun r w => (r = none → j path w) ∧ (r ≠ none → i w)
  dropAfter : ∀ path, c path → Triple (j path) (ioCacheInvalidate path) fun _ => i
  drop : ∀ path, Keeps i (ioCacheInvalidate path)
  child : ∀ path name, c path → ValidName name → c (path ++ slash :: name)

section

variable {i : IoState Disk → Prop} {j : CStr → IoState Disk → Prop} {c : CStr → Prop}

/-- The removal of one entry, which may be missing already. -/
theorem Removal.cut_drop (h : Removal i j c) {path : CStr} (hpath : c path)
    {act : Tree → Loc → Option Node → Except Errno (Option Node)} (hkeep : KeepsRoot act)
    (hrem : Removes act) :
    Keeps i (do
      let r ← Io.sys (change path act)
      if r ≠ none ∧ r ≠ some .enoent then pure (-1)
      else do
        ioCacheInvalidate path
        pure 0 : Io Disk Int) := by
  refine Triple.bind (h.cut path hpath act hkeep hrem) fun r => ?_
  cases r with
  | none =>
    rw [if_neg (by simp)]
    refine Triple.bind ((h.dropAfter path hpath).conseq (fun w hw => hw.1 rfl) fun _ _ hw => hw)
      fun _ => Keeps.pure _
  | some e =>
    have hrest : Keeps i (if some e ≠ none ∧ some e ≠ some .enoent then pure (-1)
        else do
          ioCacheInvalidate path
          pure 0 : Io Disk Int) :=
      Keeps.ite (fun _ => Keeps.pure _) fun _ =>
        Keeps.bind (h.drop path) fun _ => Keeps.pure _
    exact hrest.conseq (fun w hw => hw.2 (by simp)) fun _ _ hw => hw

theorem unlinkCached_eq {S : Type} (k : Sys S) (path : CStr) :
    unlinkCached k path = (do
      let r ← Io.sys (k.unlink path)
      if r ≠ none ∧ r ≠ some .enoent then pure (-1)
      else do
        ioCacheInvalidate path
        pure 0 : Io S Int) := by
  unfold unlinkCached unlinkPath
  rw [bind_assoc]
  refine bind_congr fun r => ?_
  split <;> rfl

theorem Removal.rmtreeDir (h : Removal i j c) {rmtree : CStr → Io Disk Int}
    (hr : ∀ child, c child → Keeps i (rmtree child)) {path : CStr} (hpath : c path)
    {names : List CStr} (hnames : ∀ x ∈ names, ValidName x) (rc : Int) :
    Keeps i (Util.rmtreeDir rmtree path rc names) := by
  induction names generalizing rc with
  | nil => exact Keeps.pure _
  | cons name names ih =>
    have hrest := ih fun x hx => hnames x (List.mem_cons_of_mem name hx)
    have hname := hnames name List.mem_cons_self
    refine Keeps.ite (fun _ => hrest rc) fun _ => ?_
    refine Keeps.ite (fun _ => hrest _) fun _ => ?_
    refine Keeps.bind (hr _ (h.child path name hpath hname)) fun r => ?_
    exact hrest _

theorem Removal.rmtreeStep (h : Removal i j c) {rmtree : CStr → Io Disk Int}
    (hr : ∀ child, c child → Keeps i (rmtree child)) {path : CStr} (hpath : c path) :
    Keeps i (Util.rmtreeStep disk rmtree path) := by
  have hunlink : Keeps i (unlinkCached disk path) := by
    rw [unlinkCached_eq]
    exact h.cut_drop hpath unlinkEntry_keepsRoot unlinkEntry_removes
  have hlink : Keeps i (isSymlinkPath disk path) := by
    refine Keeps.bind (h.looks (looks_look _ _)) fun st => ?_
    cases st with
    | error e => exact Keeps.pure _
    | ok kind => exact Keeps.pure _
  have hdir : Triple i (Io.sys (disk.readdir path)) fun d w =>
      i w ∧ ∀ names, d = some names → ∀ x ∈ names, ValidName x := by
    intro w hw
    exact ⟨h.looks (readdir_tree path) w hw, fun names => readdir_names (h.wf w hw)⟩
  refine Keeps.bind hlink fun link => ?_
  refine Keeps.ite (fun _ => hunlink) fun _ => ?_
  refine Triple.bind hdir fun d => ?_
  cases d with
  | none => exact hunlink.conseq (fun w hw => hw.1) fun _ _ hw => hw
  | some names =>
    intro w ⟨hw, hnames⟩
    have hloop := h.rmtreeDir hr hpath (hnames names rfl) 0
    refine Keeps.bind hloop (fun rc => ?_) w hw
    refine Keeps.ite (fun _ => Keeps.pure _) fun _ => ?_
    exact h.cut_drop hpath rmdirEntry_keepsRoot rmdirEntry_removes

theorem Removal.rmtreeDepth (h : Removal i j c) (n : Nat) {path : CStr} (hpath : c path) :
    Keeps i (Util.rmtreeDepth disk n path) := by
  induction n generalizing path with
  | zero => exact Keeps.pure _
  | succ n ih => exact h.rmtreeStep (fun child hchild => ih hchild) hpath

end

/-- A path below the root, as a string. -/
def BelowRoot (path : CStr) : Prop := ∃ q : Path, q.loc ≠ [] ∧ path = q.str

theorem fresh_removal :
    Removal Fresh (fun path w => ∃ q : Path, path = q.str ∧ Stale q w) BelowRoot where
  wf _ h := h.wf
  looks := sys_looks
  cut path hpath act hkeep _ w h := by
    obtain ⟨q, -, rfl⟩ := hpath
    obtain ⟨hstale, hfresh⟩ := sys_change q hkeep w h
    exact ⟨fun hr => ⟨q, rfl, hstale hr⟩, hfresh⟩
  dropAfter path _ w h := by
    obtain ⟨q, rfl, hq⟩ := h
    exact invalidate_stale q w hq
  drop := invalidate_keeps
  child path name hpath hname := by
    obtain ⟨q, hq, rfl⟩ := hpath
    have hvalid : ∀ c ∈ q.loc ++ [name], ValidName c := by
      intro c hc
      rcases List.mem_append.mp hc with hc | hc
      · exact q.valid c hc
      · rw [List.mem_singleton.mp hc]
        exact hname
    have hchild : Path.str ⟨q.loc ++ [name], hvalid⟩ = q.str ++ slash :: name := by
      rw [str_snoc rfl, str_of_ne_root hq]
    exact ⟨⟨q.loc ++ [name], hvalid⟩, List.concat_ne_nil name q.loc, hchild.symm⟩

/-- The answers are right, and only the root is known to be there. -/
def RootKnown (w : IoState Disk) : Prop :=
  Sound (fun q r => r = uncached w.sys q.str ∧ (r = 0 → q.loc = [])) w

theorem walk_root {d : Disk} (h : d.Wf) : walk d.tree [] [] = .ok .dir := by
  unfold walk
  rw [h.root]

theorem uncached_root {d : Disk} (h : d.Wf) {q : Path} (hq : q.loc = []) :
    uncached d q.str = 0 := by
  have hstr : q.str = [slash] := by
    unfold Path.str
    rw [hq]
    rfl
  unfold uncached lookErrno Disk.find
  rw [hstr, if_neg (by decide)]
  have hcomps : comps [slash] = [] := rfl
  rw [hcomps, walk_root h]
  rfl

theorem walk_error {t : Tree} {l cs : Loc} {e : Errno} (h : walk t l cs = .error e) :
    e = .enoent ∨ e = .other := by
  induction cs generalizing l with
  | nil =>
    unfold walk at h
    split at h
    · cases h
      exact Or.inl rfl
    · cases h
  | cons c cs ih =>
    rw [walk_cons] at h
    split at h
    · cases h
      exact Or.inl rfl
    · cases h
      exact Or.inr rfl
    · split at h
      · cases h
        exact Or.inr rfl
      · exact ih h

theorem uncached_eq_one {d : Disk} {path : CStr} (h : uncached d path = 1) :
    d.find path = .error .enoent := by
  unfold uncached lookErrno at h
  cases hfind : d.find path with
  | ok n =>
    rw [hfind] at h
    cases h
  | error e =>
    rw [hfind] at h
    have he : e = .enoent ∨ e = .other := by
      unfold Disk.find at hfind
      split at hfind
      · cases hfind
        exact Or.inr rfl
      · exact walk_error hfind
    rcases he with rfl | rfl
    · rfl
    · cases h

/-- What is missing stays missing when entries go. -/
theorem uncached_gone {d d' : Disk}
    (h : ∀ m, d'.tree.lookup m = d.tree.lookup m ∨ d'.tree.lookup m = none) {path : CStr}
    (hone : uncached d path = 1) : uncached d' path = 1 := by
  have hfind := uncached_eq_one hone
  unfold uncached lookErrno
  unfold Disk.find at hfind ⊢
  split at hfind
  · cases hfind
  · rename_i hlen
    rw [if_neg hlen, walk_enoent h hfind]
    rfl

theorem rootKnown_gone {w : IoState Disk} (h : RootKnown w) {d : Disk} (hd : d.Wf)
    (hgone : ∀ m, d.tree.lookup m = w.sys.tree.lookup m ∨ d.tree.lookup m = none) :
    RootKnown { w with sys := d } := by
  refine (h.setSys hd).mono fun q r hr hok => ⟨?_, hok.2⟩
  have hle := uncached_le w.sys q.str
  rw [← hok.1] at hle
  rcases (by omega : r = 0 ∨ r = 1) with hzero | hone
  · rw [hzero, uncached_root hd (hok.2 hzero)]
  · rw [hone] at hok ⊢
    exact (uncached_gone hgone hok.1.symm).symm

theorem root_removal : Removal RootKnown (fun _ => RootKnown) fun _ => True where
  wf _ h := h.wf
  looks hm w h := rootKnown_gone h (h.wf.of_tree (hm w.sys)) fun m => Or.inl (by rw [hm w.sys])
  cut path _ act hkeep hrem w h := by
    obtain ⟨hd, hgone⟩ := change_removes h.wf path hkeep hrem
    have hnext := rootKnown_gone h hd hgone
    exact ⟨fun _ => hnext, fun _ => hnext⟩
  dropAfter path _ w h := (h.invalidate path).mono fun _ _ _ hok => hok.1
  drop path w h := (h.invalidate path).mono fun _ _ _ hok => hok.1
  child _ _ _ _ := trivial

/-- Below the root `io_rmtree` keeps the answers right, also when it fails part
way. -/
theorem ioRmtree_keeps {q : Path} (hq : q.loc ≠ []) : Keeps Fresh (ioRmtree disk q.str) :=
  fresh_removal.rmtreeDepth _ ⟨q, hq, rfl⟩

theorem ioRmtree_root_keeps (path : CStr) : Keeps RootKnown (ioRmtree disk path) :=
  root_removal.rmtreeDepth _ trivial

inductive Op where
  | exists
  | unlink
  | unlinkQuiet
  | rmtree
  | mkdir
  | mkdirOwn (uid gid : UInt32) (mode : Nat)
  | mkdtmp (sticky : Bool)
  | touch
  deriving DecidableEq

def Op.run (op : Op) (path : CStr) : Io Disk Int :=
  match op with
  | .exists => ioExists disk path
  | .unlink => ioUnlink disk path
  | .unlinkQuiet => ioUnlinkQuiet disk path
  | .rmtree => ioRmtree disk path
  | .mkdir => ioMkdir disk path
  | .mkdirOwn uid gid mode => ioMkdirOwn disk path uid gid mode
  | .mkdtmp sticky => ioMkdtmp disk path sticky
  | .touch => ioTouch disk path

/-- An operation on a path, and which of its system calls fail. -/
structure Event where
  op : Op
  path : Path
  faults : List Bool

def IoState.setFaults (w : IoState Disk) (faults : List Bool) : IoState Disk :=
  { w with sys := { w.sys with faults := faults } }

def step (w : IoState Disk) (e : Event) : Option (IoState Disk) :=
  some (e.op.run e.path.str (w.setFaults e.faults)).2

/-- The root is removed only while nothing else is known to be there. -/
def RootAlone (w : IoState Disk) (e : Event) : Prop :=
  e.op = .rmtree → e.path.loc = [] →
    ∀ slot ∈ w.cache, ∀ s ∈ slot, s.2 = 0 → s.1 = [slash]

theorem str_eq_root {q : Path} (h : q.str = [slash]) : q.loc = [] := by
  rw [← comps_str, h]
  rfl

theorem step_fresh {w w' : IoState Disk} {e : Event} (h : Fresh w) (hok : RootAlone w e)
    (hstep : step w e = some w') : Fresh w' := by
  have hset : Fresh (w.setFaults e.faults) := fresh_of_tree h rfl
  cases hstep
  obtain ⟨op, q, faults⟩ := e
  cases op with
  | «exists» => exact ioExists_keeps q _ hset
  | unlink => exact ioUnlink_keeps q _ hset
  | unlinkQuiet => exact ioUnlinkQuiet_keeps q _ hset
  | mkdir => exact mkdirDepth_keeps _ q _ hset
  | mkdirOwn uid gid mode => exact ioMkdirOwn_keeps q uid gid mode _ hset
  | mkdtmp sticky => exact ioMkdtmp_keeps q sticky _ hset
  | touch => exact ioTouch_keeps q _ hset
  | rmtree =>
    by_cases hq : q.loc = []
    · have hknown : RootKnown (w.setFaults faults) := by
        refine ⟨hset.wf, fun p r hmem => ?_, hset.noRepeat, hset.size⟩
        obtain ⟨q', rfl, hr, htrue⟩ := hset.entries p r hmem
        exact ⟨q', rfl, hr, htrue, fun hzero =>
          str_eq_root (hok rfl hq _ hmem _ rfl hzero)⟩
      exact (ioRmtree_root_keeps q.str _ hknown).mono fun q' r _ hr => hr.1
    · exact ioRmtree_keeps hq _ hset

/-- The process has asked for nothing yet. -/
def start (d : Disk) : IoState Disk := { cache := emptyCache, sys := d }

theorem start_fresh {d : Disk} (hd : d.Wf) : Fresh (start d) := by
  have hnone (slot : Slot) (h : slot ∈ emptyCache) : slot = none := (List.mem_replicate.mp h).2
  refine ⟨hd, fun p r hmem => ?_, fun i j p r r' hi _ => ?_, List.length_replicate⟩
  · cases hnone _ hmem
  · cases hnone _ (List.mem_of_getElem? hi)

/-- `io_exists` answers what a check without the cache does, unless the check
it makes fails, and no path has two slots. -/
def NeverLies (w : IoState Disk) : Prop :=
  (∀ (q : Path) (faults : List Bool),
    (ioExists disk q.str (w.setFaults faults)).1 = uncached w.sys q.str ∨
      ((ioExists disk q.str (w.setFaults faults)).1 = -1 ∧ faults.head? = some true)) ∧
    NoRepeat w.cache

theorem Fresh.neverLies {w : IoState Disk} (h : Fresh w) : NeverLies w := by
  refine ⟨fun q faults => ?_, h.noRepeat⟩
  have hset : Fresh (w.setFaults faults) := fresh_of_tree h rfl
  have hsame : uncached (w.setFaults faults).sys q.str = uncached w.sys q.str :=
    uncached_tree rfl q.str
  rw [← hsame]
  exact ioExists_true hset q

theorem ioExists_neverLies {d : Disk} (hd : d.Wf) {w : IoState Disk}
    (h : Runs.Run step RootAlone (start d) w) : NeverLies w := by
  have hfresh : Fresh w :=
    h.invariant Fresh (start_fresh hd) fun _ _ _ hw hok hstep => step_fresh hw hok hstep
  exact hfresh.neverLies

/-- A disk with one file. -/
def oneFile (l : Loc) : Disk :=
  { tree := (AList.singleton [] Node.dir).insert l Node.file, faults := [] }

def pathX : Path where
  loc := [lit "x"]
  valid := by decide

def pathRoot : Path where
  loc := []
  valid := by decide

theorem oneFile_wf (p : Path) (hp : p.loc ≠ []) : (oneFile p.loc).Wf where
  root := by
    have hne : ([] : Loc) ≠ p.loc := hp.symm
    unfold oneFile
    rw [AList.lookup_insert_ne hne]
    rfl
  names l hl c hc := by
    rcases (AList.mem_insert _).mp (AList.mem_keys.mpr hl) with rfl | hl
    · exact p.valid c hc
    · obtain rfl : l = [] := List.mem_singleton.mp (AList.mem_keys.mp hl)
      cases hc

/-- The file is seen and then removed, and the next look at it finds it gone. -/
theorem ioExists_neverLies_gone :
    ∃ w, Runs.exec step (start (oneFile pathX.loc))
        [⟨.exists, pathX, []⟩, ⟨.rmtree, pathX, []⟩, ⟨.exists, pathX, []⟩] = some w ∧
      some (pathX.str, 1) ∈ w.cache ∧ NeverLies w := by
  have helsewhere (w : IoState Disk) (op : Op) : RootAlone w ⟨op, pathX, []⟩ :=
    fun _ hroot => absurd hroot (List.cons_ne_nil _ _)
  have hrun : Runs.Run step RootAlone (start (oneFile pathX.loc)) _ :=
    Runs.Run.of_head (helsewhere _ .exists) rfl (Runs.Run.of_head (helsewhere _ .rmtree) rfl
      (Runs.Run.of_head (helsewhere _ .exists) rfl Runs.Run.refl))
  refine ⟨_, rfl, ?_, ioExists_neverLies (oneFile_wf pathX (List.cons_ne_nil _ _)) hrun⟩
  decide +kernel

/-- The answer for `/x` is kept when `io_rmtree` of the root removes the file. -/
theorem ioExists_lies :
    ¬ ∀ (d : Disk) (w : IoState Disk), d.Wf → Runs.Run step Runs.Any (start d) w →
      NeverLies w := by
  intro h
  have hrun : Runs.Run step Runs.Any (start (oneFile pathX.loc))
      ((Runs.exec step (start (oneFile pathX.loc))
        [⟨.exists, pathX, []⟩, ⟨.rmtree, pathRoot, []⟩]).getD (start (oneFile pathX.loc))) :=
    Runs.exec_run [⟨.exists, pathX, []⟩, ⟨.rmtree, pathRoot, []⟩] rfl
  have hlie := (h _ _ (oneFile_wf pathX (List.cons_ne_nil _ _)) hrun).1 pathX []
  revert hlie
  decide +kernel

end Cage.Util
