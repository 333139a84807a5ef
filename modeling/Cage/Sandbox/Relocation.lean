import Cage.Sandbox.HostCalls
import Cage.Sandbox.LoopAgain
import Cage.Util.Decimal
import Cage.Util.RmtreeExact

/-!
Where `handle_same_fs` returns 0, is the upper directory one that `same_fs_detect` has
nothing against? A loop directory on another file system than the lower directory is
taken for a mounted loop file system, whatever that other file system is.
-/

namespace Cage.Sandbox

open Lib.Program Util Ext4
open Util.Volume (Wf Frays bodyAt find lastOf special without)

variable {k : Volume.Kernel} {S : Type}

section Statement

variable (fs : FileSystem S) (view : S → Host k) (pid : Nat) (cfg : Cfg) (dirs : Dirs)

/-- What `same_fs_detect` says, with nothing remembered. -/
def sameFs (s : S) (lowerdir upperdir : CStr) : Int :=
  (((sameFsDetect lowerdir upperdir).run []).exec fs.answer s).1.1.1

/-- Where `handle_same_fs` returns 0, the upper directory is not in conflict with the
lower one; if it was not before, nothing moves. -/
def Relocates (s : S) (c : List Slot) : Prop :=
  ∀ dirs' c' t, ((handleSameFs pid cfg dirs).run c).exec fs.answer s = ((some dirs', c'), t) →
    sameFs fs t dirs.lowerdir dirs'.upperdir = 0 ∧
      (sameFs fs s dirs.lowerdir dirs.upperdir = 0 →
        dirs'.upperdir = dirs.upperdir ∧ dirs'.workdir = dirs.workdir)

/-- A conflict with the lower directory, on the file system `dev`, is found, and the
directories are to move to this loop file system. -/
structure Moves (s : S) (lp : Loop) (dev : Nat) : Prop where
  conflict : 0 < (detect fs s dirs.lowerdir dirs.upperdir).1
  dev : (detect fs s dirs.lowerdir dirs.upperdir).2 = dev
  fill : loopFill dirs.appdir = some lp
  set : ∃ moved, loopDirsSet dirs cfg lp = some moved

/-- The loop directory is on another file system. -/
def Elsewhere (s : S) (lp : Loop) (dev : Nat) : Prop :=
  ∃ st, fs.lstat s lp.loopdir = .ok st ∧ st.kind = .dir ∧ st.dev ≠ dev

/-- The directory `ap` is on another file system than the lower one that it is in, or on
one that is no overlay. -/
def Suits (s : S) (lowerdir : CStr) (dev : Nat) (ap : CStr) : Prop :=
  ∃ f, fs.resolve s ap = .ok f ∧
    if isWithin ap lowerdir = true then f.dev ≠ dev else f.magic ≠ overlayfsSuperMagic

/-- What the upper directory will be made in suits: the appdir, or, where that is
missing, the loop directory. -/
def StandsWell (s : S) (lp : Loop) (lowerdir : CStr) (dev : Nat) : Prop :=
  Suits fs s lowerdir dev lp.loopAppdir ∨
    accessResult (fs.access s lp.loopAppdir) = 1 ∧ Suits fs s lowerdir dev lp.loopdir

/-- A loop directory that is taken as it stands suits. -/
def TakenWell (s : S) : Prop :=
  ∀ lp dev, Moves fs cfg dirs s lp dev → Elsewhere fs s lp dev → StandsWell fs s lp dirs.lowerdir dev

/-- What making the loop file system replaces or covers. -/
def Host.covers (v : Host k) (lp : Loop) (e : Option Loc) (m : Loc) : Bool :=
  v.replaces pid lp.loopImg m || e.any fun e => e.isPrefixOf m && m != e

/-- The loop directory, if it is there. -/
def Host.loopPlace (v : Host k) (lp : Loop) : Option Loc := (find k v.tree true lp.loopdir).toOption

/-- The host without that. -/
def Host.bare (v : Host k) (lp : Loop) (e : Option Loc) : Volume.Tree := without v.tree (v.covers pid lp e)

/-- A loop file system that is mounted now covers nothing that is needed: the lower and
the loop directory are found without what it replaces or covers, and the appdir is a
name in it that is no link. -/
structure Clear (v : Host k) (lp : Loop) (leaf lowerdir : CStr) : Prop where
  lower : ∃ l b, find k (v.bare pid lp (v.loopPlace lp)) true (stripTrailingSlash lowerdir) = .ok l ∧
    bodyAt (v.bare pid lp (v.loopPlace lp)) l = some b ∧ v.loopPlace lp ≠ some l
  again : ∀ e, v.loopPlace lp = some e →
    find k (v.bare pid lp (v.loopPlace lp)) true lp.loopdir = .ok e
  up : leaf ≠ [dot, dot]
  link : ∀ target, bodyAt v.image [leaf] ≠ some (.link target)

/-- Where a loop file system may be mounted, nothing is in the way. -/
def MountsClear (s : S) : Prop :=
  ∀ lp dev, Moves fs cfg dirs s lp dev →
    (∀ st, fs.lstat s lp.loopdir = .ok st → st.kind = .dir ∧ st.dev = dev) →
      Clear pid (view s) lp (appdirLeaf dirs.appdir) dirs.lowerdir

end Statement

variable {fs : FileSystem S} {view : S → Host k} {pid : Nat} {cfg : Cfg} {dirs moved : Dirs} {s t : S}
variable {lp : Loop} {dev : Nat} {lower : CStr}

section Standing

theorem current_nil : Current fs s [] := fun _ _ h => by cases h

theorem sameFs_eq (lower upper : CStr) : sameFs fs s lower upper = (detect fs s lower upper).1 := by
  have hcurrent : Current fs s [] := current_nil
  obtain ⟨c, -, hrun⟩ := sameFsDetect_yields lower upper [] hcurrent
  unfold sameFs
  rw [hrun]

theorem conflict_zero_iff {f : Found} (hlower : fs.resolve s lower = .ok f) (hdev : f.dev = dev)
    {ap : CStr} (hap : fs.access s ap = none) :
    (conflict fs s ap lower).1 = 0 ↔ Suits fs s lower dev ap := by
  have hfound : ∃ g, fs.resolve s ap = .ok g := by
    unfold FileSystem.access at hap
    cases hresolve : fs.resolve s ap with
    | error e =>
      rw [hresolve] at hap
      cases hap
    | ok g => exact ⟨g, rfl⟩
  obtain ⟨g, hg⟩ := hfound
  have hsuits : Suits fs s lower dev ap ↔
      if isWithin ap lower = true then g.dev ≠ dev else g.magic ≠ overlayfsSuperMagic := by
    unfold Suits
    rw [hg]
    exact ⟨fun ⟨f, hf, h⟩ => by cases hf; exact h, fun h => ⟨g, rfl, h⟩⟩
  rw [hsuits]
  unfold conflict sameDev onOverlay
  rw [hlower]
  dsimp only
  rw [hg]
  dsimp only
  rw [hdev]
  by_cases hwithin : isWithin ap lower = true
  · rw [if_pos hwithin, if_pos hwithin]
    by_cases hsame : dev = g.dev
    · simp [hsame]
    · simp [hsame, Ne.symm hsame]
  · rw [if_neg hwithin, if_neg hwithin]
    by_cases hoverlay : g.magic = overlayfsSuperMagic
    · simp [hoverlay]
    · simp [hoverlay]

theorem access_of_resolve {path : CStr} {f : Found} (h : fs.resolve s path = .ok f) :
    fs.access s path = none := by
  unfold FileSystem.access
  rw [h]

theorem not_suits {ap : CStr} {e : Errno} (h : fs.access s ap = some e) : ¬ Suits fs s lower dev ap := by
  rintro ⟨f, hf, -⟩
  rw [access_of_resolve hf] at h
  cases h

theorem cutLast_loopUpper (lp : Loop) : cutLast (lp.loopAppdir ++ lit "/upper") = lp.loopAppdir :=
  cutLast_upper lp.loopAppdir

/-- What `same_fs_detect` says of the upper directory on a loop file system. -/
theorem detect_zero_iff (hfill : loopFill dirs.appdir = some lp) {f g : Found}
    (hlower : fs.resolve s lower = .ok f) (hdev : f.dev = dev)
    (hloop : fs.resolve s lp.loopdir = .ok g) :
    (detect fs s lower (lp.loopAppdir ++ lit "/upper")).1 = 0 ↔ StandsWell fs s lp lower dev := by
  obtain ⟨hderive, -, happ⟩ := loopFill_eq hfill
  obtain ⟨n, hn⟩ : ∃ n, lp.loopdir.length = n + 1 := by
    have hle : 5 ≤ lp.loopdir.length := (deriveLoopdir_suffix hderive).length_le
    exact ⟨lp.loopdir.length - 1, by omega⟩
  obtain ⟨m, hm⟩ : ∃ m, lp.loopAppdir.length = m + 1 := by
    refine ⟨lp.loopAppdir.length - 1, ?_⟩
    rw [happ, List.length_append, hn]
    omega
  have hcut : beforeLastSlash lp.loopAppdir = some (n + 1) := by
    rw [happ, beforeLastSlash_str _ (appdirLeaf_cases _).1, hn]
  have htake : lp.loopAppdir.take (n + 1) = lp.loopdir := by
    rw [happ, ← hn, List.take_left]
  unfold detect
  rw [cutLast_loopUpper, hm]
  unfold StandsWell
  cases haccess : fs.access s lp.loopAppdir with
  | none =>
    have hclosest : closestExisting fs s (m + 1 + 1) lp.loopAppdir = some lp.loopAppdir := by
      unfold closestExisting
      rw [haccess, if_neg (by decide), if_pos (by decide)]
    rw [hclosest]
    exact (conflict_zero_iff hlower hdev haccess).trans
      ⟨Or.inl, fun h => h.resolve_right fun hmissing => absurd hmissing.1 (by decide)⟩
  | some e =>
    have happdir : ¬ Suits fs s lower dev lp.loopAppdir := not_suits haccess
    have hzero : accessResult (some e) ≠ 0 := by cases e <;> decide
    by_cases hmissing : accessResult (some e) = 1
    · have hclosest : closestExisting fs s (m + 1 + 1) lp.loopAppdir = some lp.loopdir := by
        unfold closestExisting
        rw [haccess, if_neg (by rw [hmissing]; decide), if_neg hzero, hcut]
        change closestExisting fs s (m + 1) (lp.loopAppdir.take (n + 1)) = _
        rw [htake]
        unfold closestExisting
        rw [access_of_resolve hloop, if_neg (by decide), if_pos (by decide)]
      rw [hclosest]
      exact (conflict_zero_iff hlower hdev (access_of_resolve hloop)).trans
        ⟨fun h => Or.inr ⟨hmissing, h⟩, fun h => (h.resolve_left happdir).2⟩
    · have hneg : accessResult (some e) < 0 := by
        cases e <;> first | exact absurd rfl hmissing | decide
      have hclosest : closestExisting fs s (m + 1 + 1) lp.loopAppdir = none := by
        unfold closestExisting
        rw [haccess, if_pos hneg]
      rw [hclosest]
      refine iff_of_false (fun h : (-1 : Int) = 0 => absurd h (by decide)) ?_
      rintro (h | ⟨h, -⟩)
      · exact happdir h
      · exact hmissing h

theorem loopDirsSet_eq (h : loopDirsSet dirs cfg lp = some moved) :
    moved = { dirs with upperdir := lp.loopAppdir ++ lit "/upper" } ∧
      (lp.loopAppdir ++ lit "/upper").length < bufSize := by
  unfold loopDirsSet at h
  dsimp only at h
  split at h
  · split at h
    · cases h
    · rename_i hlen
      cases h
      exact ⟨rfl, Nat.lt_of_not_le fun hle => hlen (Or.inr hle)⟩
  · split at h
    · cases h
    · rename_i hlen
      cases h
      exact ⟨rfl, Nat.lt_of_not_le fun hle => hlen (Or.inr hle)⟩

theorem setLoopAppdir_eq {keepWork : Bool} {d : Dirs} (h : setLoopAppdir dirs lp keepWork = some d) :
    d.upperdir = lp.loopAppdir ++ lit "/upper" ∧ d.appdir = lp.loopAppdir := by
  refine ⟨(setLoopAppdir_inLoop h).upperdir, ?_⟩
  unfold setLoopAppdir at h
  dsimp only at h
  generalize (if keepWork = true then dirs.workdir else lp.loopAppdir ++ lit "/work") = w at h
  split at h <;> cases h
  rfl

/-- The directories on a loop file system fit their buffers, if the upper one does. -/
theorem setLoopAppdir_fits (hupper : (lp.loopAppdir ++ lit "/upper").length < bufSize)
    (hwork : dirs.workdir.length < bufSize) (keepWork : Bool) :
    ∃ d, setLoopAppdir dirs lp keepWork = some d := by
  rw [List.length_append] at hupper
  have hsix : (lit "/upper").length = 6 := by decide
  have hfive : (lit "/work").length = 5 := by decide
  unfold setLoopAppdir
  dsimp only
  generalize hw : (if keepWork = true then dirs.workdir else lp.loopAppdir ++ lit "/work") = w
  have hlen : w.length < bufSize := by
    rw [← hw]
    split
    · exact hwork
    · rw [List.length_append]
      omega
  rw [if_neg]
  · exact ⟨_, rfl⟩
  · rw [List.length_append]
    omega

variable (hlstat : ∀ path s, (fs.other (.lstat path) s).2 = s)

include hlstat in
/-- A loop directory on another file system is taken as it stands. -/
theorem ensureExt4Mounted_yields (h : Elsewhere fs s lp dev) (keepWork : Bool) :
    Yields fs s (ensureExt4Mounted pid moved lp dev keepWork) (setLoopAppdir moved lp keepWork) := by
  obtain ⟨st, hst, hkind, hdev⟩ := h
  have hlook := lstat_yields (s := s) hlstat lp.loopdir
  rw [hst] at hlook
  have hreal : Yields fs s (requireRealDir lp.loopdir) 0 := by
    refine Yields.bind hlook ?_
    dsimp only
    rw [if_pos hkind]
    exact Yields.pure 0
  refine Yields.bind hlook (Yields.bind hreal ?_)
  rw [if_neg (by decide), if_pos hdev]
  exact Yields.pure _

include hlstat in
/-- Then `handle_same_fs` returns 0. -/
theorem taken_yields (pid : Nat) (hupper : cfg.upperdir = none) (hwork : dirs.workdir.length < bufSize)
    (hmoves : Moves fs cfg dirs s lp dev) (h : Elsewhere fs s lp dev) :
    ∃ d, Yields fs s (afterDetect pid cfg dirs (detect fs s dirs.lowerdir dirs.upperdir)) (some d) ∧
      d.upperdir = lp.loopAppdir ++ lit "/upper" := by
  obtain ⟨hconflict, hdev, hfill, moved, hset⟩ := hmoves
  obtain ⟨rfl, hlen⟩ := loopDirsSet_eq hset
  obtain ⟨d, hd⟩ : ∃ d, setLoopAppdir { dirs with upperdir := lp.loopAppdir ++ lit "/upper" } lp
      cfg.workdir.isSome = some d := setLoopAppdir_fits hlen hwork cfg.workdir.isSome
  obtain ⟨st, hst, hkind, hother⟩ := id h
  have hstanding : standing fs s { dirs with upperdir := lp.loopAppdir ++ lit "/upper" } lp dev
      cfg.workdir.isSome = some d := by
    unfold standing
    rw [hst]
    exact (if_pos ⟨hkind, hother⟩).trans hd
  have hrun (r : Option Dirs) (hr : Yields fs s
      (if accessResult (fs.access s (lp.loopAppdir ++ lit "/upper")) = 0 then
        useProvisionedLoopback { dirs with upperdir := lp.loopAppdir ++ lit "/upper" } lp dev
          cfg.workdir.isSome
      else ensureExt4Mounted pid { dirs with upperdir := lp.loopAppdir ++ lit "/upper" } lp dev
        cfg.workdir.isSome) r) :
      Yields fs s (afterDetect pid cfg dirs (detect fs s dirs.lowerdir dirs.upperdir)) r := by
    unfold afterDetect
    rw [if_neg (by omega), if_neg (by omega), hupper, if_neg (by decide), hfill]
    dsimp only
    rw [hset, hdev]
    exact Yields.bind (Yields.ioExists _) hr
  by_cases haccess : accessResult (fs.access s (lp.loopAppdir ++ lit "/upper")) = 0
  · refine ⟨{ d with dirsCreated := true }, hrun _ ?_, (setLoopAppdir_eq hd).1⟩
    have hyields : Yields fs s (useProvisionedLoopback
        { dirs with upperdir := lp.loopAppdir ++ lit "/upper" } lp dev cfg.workdir.isSome) _ :=
      useProvisionedLoopback_yields hlstat lp dev cfg.workdir.isSome
    rw [hstanding] at hyields
    rw [if_pos haccess]
    exact hyields
  · refine ⟨d, hrun _ ?_, (setLoopAppdir_eq hd).1⟩
    rw [if_neg haccess, ← hd]
    exact ensureExt4Mounted_yields hlstat h cfg.workdir.isSome

/-- Where a conflict is found, the lower directory is. -/
theorem lower_of_conflict {upper : CStr} (h : 0 < (detect fs s lower upper).1) :
    ∃ f, fs.resolve s lower = .ok f ∧ f.dev = (detect fs s lower upper).2 := by
  unfold detect at h ⊢
  cases hclosest : closestExisting fs s ((cutLast upper).length + 1) (cutLast upper) with
  | none =>
    rw [hclosest] at h
    exact absurd (show (0 : Int) < -1 from h) (by decide)
  | some ap =>
    rw [hclosest] at h
    unfold conflict at h ⊢
    cases hlower : fs.resolve s lower with
    | error e =>
      rw [hlower] at h
      exact absurd (show (0 : Int) < -1 from h) (by decide)
    | ok f => exact ⟨f, rfl, rfl⟩

end Standing

section Mounting

variable {v w x y : Host k} {e l m : Loc} {leaf : CStr} {b : Volume.Body}

theorem bodyAt_bare (v : Host k) (e : Option Loc) (m : Loc) :
    bodyAt (v.bare pid lp e) m = if v.covers pid lp e m = true then none else bodyAt v.tree m := by
  unfold Volume.bodyAt Host.bare
  rw [Volume.lookup_without]
  split <;> rfl

theorem bare_frays (v : Host k) (e : Option Loc) : Frays (v.bare pid lp e) v.tree := by
  intro m b hb _
  rw [bodyAt_bare] at hb
  split at hb
  · cases hb
  · exact hb

theorem covers_false : v.covers pid lp (some e) m = false ↔
    v.replaces pid lp.loopImg m = false ∧ ¬ (e <+: m ∧ m ≠ e) := by
  unfold Host.covers
  rw [Bool.or_eq_false_iff, Option.any_some, Bool.and_eq_false_imp, List.isPrefixOf_iff_prefix,
    not_and_not_right]
  simp only [bne_eq_false_iff_eq]

/-- The lower directory is at `l`. -/
structure LowerAt (t : Volume.Tree) (lower : CStr) (l : Loc) (b : Volume.Body) : Prop where
  find : find k t true (stripTrailingSlash lower) = .ok l
  body : bodyAt t l = some b
  kind : stripTrailingSlash lower ≠ lower → b.kind = .dir

/-- The loop directory is at `e`, and a loop file system may be mounted there. -/
structure Base (pid : Nat) (lp : Loop) (leaf lower : CStr) (dev : Nat) (v : Host k) (e : Loc) : Prop where
  find : find k v.tree true lp.loopdir = .ok e
  dir : bodyAt v.tree e = some .dir
  lower : ∃ l b, LowerAt (k := k) (v.bare pid lp (some e)) lower l b ∧ l ≠ e ∧ v.device l = dev
  again : Volume.find k (v.bare pid lp (some e)) true lp.loopdir = .ok e ∨
    ∀ m, e <+: m → m ≠ e → bodyAt v.tree m = none
  link : ∀ target, bodyAt v.image [leaf] ≠ some (.link target)

/-- A loop file system is mounted at `e`, where the loop directory is. -/
structure Over (lp : Loop) (leaf lower : CStr) (dev : Nat) (x : Host k) (e : Loc) : Prop where
  find : find k x.tree true lp.loopdir = .ok e
  dir : bodyAt x.tree e = some .dir
  lower : ∃ l b, LowerAt (k := k) x.tree lower l b ∧ x.device l = dev
  fresh : ∃ new, (∀ m, e <+: m → x.device m = new) ∧ new ≠ dev ∧ x.magic new ≠ overlayfsSuperMagic
  link : ∀ target, bodyAt x.tree (e ++ [leaf]) ≠ some (.link target)

theorem LowerAt.frays {u t : Volume.Tree} (h : LowerAt (k := k) u lower l b)
    (ht : ∀ m b, bodyAt u m = some b → bodyAt t m = some b) : LowerAt (k := k) t lower l b where
  find := Volume.find_frays (fun m b hb _ => ht m b hb) h.find fun hfile => ht l _ hfile
  body := ht l b h.body
  kind := h.kind

/-- The mount leaves the lower directory where it was, and has a device of its own. -/
theorem Base.over {img : CStr} {e' : Loc} {new : Nat} (h : Base pid lp leaf lower dev v e)
    (himg : img = lp.loopImg) (hbuilt : Rebuilt pid img v w)
    (hfind : Volume.find k w.tree true lp.loopdir = .ok e') (hcovers : Covers e' new w x) :
    Over lp leaf lower dev x e := by
  subst himg
  obtain rfl : e' = e := by
    have hthere := Volume.find_frays hbuilt.frays hfind (by rw [hcovers.dir]; exact nofun)
    exact Except.ok.inj (hthere.symm.trans h.find)
  have hbare (m : Loc) (b : Volume.Body) (hb : bodyAt (v.bare pid lp (some e')) m = some b) :
      bodyAt x.tree m = some b := by
    rw [bodyAt_bare] at hb
    split at hb
    · cases hb
    · rename_i hcover
      obtain ⟨hsame, hbeside⟩ := covers_false.mp (Bool.not_eq_true _ ▸ hcover)
      rw [hcovers.beside m hbeside, hbuilt.same m hsame, hb]
  have hdir : bodyAt x.tree e' = some .dir := by
    rw [hcovers.beside e' fun hbelow => hbelow.2 rfl, hcovers.dir]
  refine ⟨?_, hdir, ?_, ?_, ?_⟩
  · rcases h.again with hagain | hnone
    · refine Volume.find_frays (fun m b hb _ => hbare m b hb) hagain fun hfile => ?_
      rw [hbare e' _ hfile] at hdir
      cases hdir
    · refine Volume.find_frays (fun m b hb hfile => ?_) hfind (by rw [hcovers.dir]; exact nofun)
      rw [hcovers.beside m, hb]
      rintro ⟨hbelow, hne⟩
      have hv := hbuilt.frays m b hb hfile
      rw [hnone m hbelow hne] at hv
      cases hv
  · obtain ⟨l, b, hlower, hne, hdev⟩ := h.lower
    refine ⟨l, b, hlower.frays hbare, ?_⟩
    have hbody := hlower.body
    rw [bodyAt_bare] at hbody
    split at hbody
    · cases hbody
    · rename_i hcover
      have hbeside := (covers_false.mp (Bool.not_eq_true _ ▸ hcover)).2
      rw [hcovers.device, if_neg fun hpre => hbeside ⟨hpre, hne⟩, hbuilt.mounts.device, hdev]
  · obtain ⟨l, b, -, -, hdev⟩ := h.lower
    refine ⟨new, fun m hm => (hcovers.device m).trans (if_pos hm), ?_, hcovers.magic⟩
    rintro rfl
    exact hcovers.fresh l ((congrFun hbuilt.mounts.device l).trans hdev)
  · intro target hlink
    obtain ⟨root, hroot, hinside⟩ := hcovers.inside
    rw [hinside [leaf] (List.cons_ne_nil _ _)] at hlink
    rcases hroot with rfl | hnolinks
    · rw [hbuilt.mounts.image] at hlink
      exact h.link target hlink
    · exact hnolinks _ _ hlink

/-- Making a directory leaves it so. -/
theorem Over.made (h : Over lp leaf lower dev x e) {path : CStr} (hmade : MadeAt x y path l) :
    Over lp leaf lower dev y e where
  find := Volume.find_frays hmade.frays h.find (by rw [h.dir]; exact nofun)
  dir := hmade.kept e _ h.dir
  lower := by
    obtain ⟨l, b, hlower, hdev⟩ := h.lower
    exact ⟨l, b, hlower.frays hmade.kept, (congrFun hmade.mounts.device l).trans hdev⟩
  fresh := by
    rw [hmade.mounts.device, hmade.mounts.magic]
    exact h.fresh
  link target hlink := by
    rcases hmade.dirs _ _ hlink with hold | hdir
    · exact h.link target hold
    · cases hdir

theorem Over.reached (h : Over lp leaf lower dev x e) {path : CStr} (hreached : Reached x y path) :
    Over lp leaf lower dev y e := by
  rcases hreached with ⟨rfl, -⟩ | ⟨l, hmade⟩
  · exact h
  · exact h.made hmade

end Mounting

section Resolving

variable {v w x y : Host k} {e l m : Loc} {leaf path : CStr} {b : Volume.Body}
variable (h : OnHost fs view)

include h in
theorem resolve_host (path : CStr) (hfind : find k (view s).tree true (stripTrailingSlash path) = .ok l)
    (hbody : bodyAt (view s).tree l = some b) (hkind : stripTrailingSlash path ≠ path → b.kind = .dir) :
    fs.resolve s path = .ok
      { dev := (view s).device l, kind := b.kind, magic := (view s).magic ((view s).device l) } := by
  unfold FileSystem.resolve
  rw [h.find, Host.found, hfind]
  dsimp only
  rw [hbody]
  exact if_neg fun hslash => hslash.2 (hkind hslash.1)

include h in
theorem host_resolve {f : Found} (hresolve : fs.resolve s path = .ok f) :
    ∃ l b, find k (view s).tree true (stripTrailingSlash path) = .ok l ∧
      bodyAt (view s).tree l = some b ∧ (stripTrailingSlash path ≠ path → b.kind = .dir) ∧
        f.dev = (view s).device l := by
  unfold FileSystem.resolve at hresolve
  rw [h.find, Host.found] at hresolve
  cases hfind : find k (view s).tree true (stripTrailingSlash path) with
  | error e =>
    rw [hfind] at hresolve
    cases hresolve
  | ok l =>
    rw [hfind] at hresolve
    dsimp only at hresolve
    cases hbody : bodyAt (view s).tree l with
    | none =>
      rw [hbody] at hresolve
      cases hresolve
    | some b =>
      rw [hbody] at hresolve
      dsimp only at hresolve
      split at hresolve
      · cases hresolve
      · rename_i hslash
        cases hresolve
        exact ⟨l, b, rfl, hbody, fun hne => by_contra fun hkind => hslash ⟨hne, hkind⟩, rfl⟩

/-- The last component of a loop directory is a name. -/
theorem loopdir_name (hfill : loopFill dirs.appdir = some lp) {d : Loc} {name : CStr}
    (hlast : lastOf k w.tree lp.loopdir = .ok (d, name)) :
    special name = false ∧ Volume.slashed lp.loopdir = false := by
  obtain ⟨hderive, -, -⟩ := loopFill_eq hfill
  obtain ⟨base, hbase⟩ := deriveLoopdir_suffix hderive
  obtain ⟨cs, a, -, hcomps⟩ := comps_append_piece base
  have hname : comps lp.loopdir = cs ++ [a ++ loopSuffix] := by
    rw [← hbase]
    exact hcomps loopSuffix (by decide) (by decide)
  obtain ⟨hne, hshort⟩ := Volume.lastOf_ok hlast
  rw [Volume.lastOf_snoc hne hshort hname] at hlast
  constructor
  · have heq : name = a ++ loopSuffix := by
      cases hwalk : Volume.walk w.tree true Volume.noGone Volume.linksMax (Volume.start k.cwd lp.loopdir)
          (cs ++ [[dot]]) with
      | error err =>
        rw [hwalk] at hlast
        cases hlast
      | ok m =>
        rw [hwalk] at hlast
        change (if (a ++ loopSuffix).length > nameMax then _ else _) = _ at hlast
        split at hlast <;> cases hlast
        rfl
    have hlen : 5 ≤ name.length := by
      rw [heq, List.length_append]
      exact Nat.le_add_left 5 a.length
    refine Volume.special_eq_false.mpr ⟨?_, ?_⟩ <;>
    · rintro rfl
      exact absurd hlen (by decide)
  · unfold Volume.slashed
    rw [← hbase, List.getLast?_append_of_ne_nil _ (by decide)]
    decide

/-- What `lstat` says is a directory is where the path leads. -/
theorem place_of_lstat (hfill : loopFill dirs.appdir = some lp) {st : Stat}
    (hst : v.stated lp.loopdir = .ok st) (hkind : st.kind = .dir) :
    ∃ e, find k v.tree true lp.loopdir = .ok e ∧ bodyAt v.tree e = some .dir ∧ v.device e = st.dev := by
  unfold Host.stated at hst
  cases hfind : find k v.tree false lp.loopdir with
  | error err =>
    rw [hfind] at hst
    cases hst
  | ok e =>
    rw [hfind] at hst
    dsimp only at hst
    cases hbody : bodyAt v.tree e with
    | none =>
      rw [hbody] at hst
      cases hst
    | some b =>
      rw [hbody] at hst
      cases hst
      have hdir : b = .dir := by
        cases b with
        | dir => rfl
        | file | link target => cases hkind
      subst hdir
      obtain ⟨d, name, hlast⟩ := Volume.exists_last hfind
      obtain ⟨hspecial, hslash⟩ := loopdir_name hfill hlast
      rcases Volume.last_of_find hfind hlast with hs | ⟨rfl, -⟩ | ⟨hs, -⟩
      · rw [hspecial] at hs
        cases hs
      · exact ⟨_, Volume.find_of_entry hlast hspecial hbody (Or.inl rfl) (fun _ hb => by cases hb), hbody, rfl⟩
      · rw [hslash] at hs
        cases hs

/-- Where `lstat` fails, the path leads nowhere. -/
theorem gone_of_lstat {err : Errno} (hst : v.stated path = .error err) (e : Loc) : find k v.tree true path ≠ .ok e := by
  intro hfind
  have hthere (m : Loc) (hm : find k v.tree false path = .ok m) : False := by
    obtain ⟨hne, hshort⟩ := Volume.find_ok hm
    have hbody : bodyAt v.tree m ≠ none := by
      rw [Volume.find_eq hne hshort] at hm
      exact v.wf.walk_there (v.wf.dir_of_start v.home path) hm
    unfold Host.stated at hst
    rw [hm] at hst
    dsimp only at hst
    cases hb : bodyAt v.tree m with
    | none => exact hbody hb
    | some b =>
      rw [hb] at hst
      cases hst
  rcases Volume.find_nofollow hfind with hsame | ⟨m, target, hlink, -⟩
  · exact hthere e hsame
  · exact hthere m hlink

end Resolving

section Clearing

variable {v w x y : Host k} {e l m : Loc} {leaf path : CStr} {b : Volume.Body}

theorem loopPlace_some (h : find k v.tree true lp.loopdir = .ok e) : v.loopPlace lp = some e := by
  unfold Host.loopPlace
  rw [h]
  rfl

theorem loopPlace_none (h : ∀ e, find k v.tree true lp.loopdir ≠ .ok e) : v.loopPlace lp = none := by
  unfold Host.loopPlace
  cases hfind : find k v.tree true lp.loopdir with
  | error err => rfl
  | ok e => exact absurd hfind (h e)

/-- Without what is replaced and covered, the lower directory is found where it is. -/
theorem Clear.lowerAt (hclear : Clear pid v lp leaf lower)
    (hfind : find k v.tree true (stripTrailingSlash lower) = .ok l) (hbody : bodyAt v.tree l = some b)
    (hkind : stripTrailingSlash lower ≠ lower → b.kind = .dir) :
    LowerAt (k := k) (v.bare pid lp (v.loopPlace lp)) lower l b ∧ v.loopPlace lp ≠ some l := by
  obtain ⟨l', b', hfind', hbody', hne⟩ := hclear.lower
  have hsub (m : Loc) (b : Volume.Body) (hb : bodyAt (v.bare pid lp (v.loopPlace lp)) m = some b) :
      bodyAt v.tree m = some b := by
    rw [bodyAt_bare] at hb
    split at hb
    · cases hb
    · exact hb
  have hthere := Volume.find_frays (bare_frays v _) hfind' fun hfile => hsub l' _ hfile
  obtain rfl : l' = l := Except.ok.inj (hthere.symm.trans hfind)
  obtain rfl : b' = b := Option.some.inj ((hsub l' b' hbody').symm.trans hbody)
  exact ⟨⟨hfind', hbody', hkind⟩, hne⟩

/-- With a loop directory that is there. -/
theorem Clear.base (hclear : Clear pid v lp leaf lower)
    (hfind : find k v.tree true (stripTrailingSlash lower) = .ok l) (hbody : bodyAt v.tree l = some b)
    (hkind : stripTrailingSlash lower ≠ lower → b.kind = .dir) (hdev : v.device l = dev)
    (hloop : find k v.tree true lp.loopdir = .ok e) (hdir : bodyAt v.tree e = some .dir) :
    Base pid lp leaf lower dev v e := by
  obtain ⟨hlower, hne⟩ := hclear.lowerAt hfind hbody hkind
  have hagain := hclear.again
  rw [loopPlace_some hloop] at hlower hne hagain
  exact ⟨hloop, hdir, ⟨l, b, hlower, fun heq => hne (congrArg some heq.symm), hdev⟩,
    Or.inl (hagain e rfl), hclear.link⟩

/-- A path beside the loop directory names what it did before that was made. -/
theorem names_made {cs : Loc} {a c : CStr} (hmade : MadeAt v w lp.loopdir e)
    (hloop : comps lp.loopdir = cs ++ [a]) (hpath : comps path = cs ++ [c])
    (hstart : Volume.start k.cwd path = Volume.start k.cwd lp.loopdir) (hm : w.names path m = true)
    (hthere : bodyAt v.tree m ≠ none) : v.names path m = true := by
  have hwalks {t : Volume.Tree} {p : CStr} {d : Loc} {name z : CStr} (hcomps : comps p = cs ++ [z])
      (hlast : lastOf k t p = .ok (d, name)) :
      Volume.walk t true Volume.noGone Volume.linksMax (Volume.start k.cwd p) (cs ++ [[dot]]) = .ok d := by
    obtain ⟨hne, hshort⟩ := Volume.lastOf_ok hlast
    rw [Volume.lastOf_snoc hne hshort hcomps] at hlast
    cases hwalk : Volume.walk t true Volume.noGone Volume.linksMax (Volume.start k.cwd p)
        (cs ++ [[dot]]) with
    | error err =>
      rw [hwalk] at hlast
      cases hlast
    | ok m =>
      rw [hwalk] at hlast
      change (if z.length > nameMax then _ else _) = _ at hlast
      split at hlast <;> cases hlast
      rfl
  obtain ⟨d, name, hlast, rfl⟩ := names_iff.mp hm
  have hwalk := hwalks hpath hlast
  rcases hmade.parent with ⟨d₀, name₀, hlast₀⟩ | hnone
  · have hwalk₀ := hwalks hloop hlast₀
    have hdir₀ := (Volume.lastOf_dir v.wf v.home hlast₀).2
    have hkept := Volume.walk_frays hmade.frays hwalk₀ (by rw [hdir₀]; exact nofun)
    rw [← hstart, hwalk] at hkept
    obtain rfl : d = d₀ := Except.ok.inj hkept
    obtain ⟨hne, hshort⟩ := Volume.lastOf_ok hlast
    refine names_iff.mpr ⟨d, name, ?_, rfl⟩
    rw [Volume.lastOf_snoc hne hshort hpath, hwalk] at hlast
    rw [Volume.lastOf_snoc hne hshort hpath, hstart, hwalk₀]
    exact hlast
  · obtain ⟨d₁, name₁, hlast₁, rfl⟩ := hmade.last
    have hwalk₁ := hwalks hloop hlast₁
    rw [← hstart, hwalk] at hwalk₁
    obtain rfl : d = d₁ := Except.ok.inj hwalk₁
    rw [List.dropLast_concat] at hnone
    rw [v.wf.parent d name hthere] at hnone
    cases hnone

/-- With a loop directory that has just been made. -/
theorem Clear.base_made (hclear : Clear pid v lp leaf lower) (hfill : loopFill dirs.appdir = some lp)
    (hfind : find k v.tree true (stripTrailingSlash lower) = .ok l) (hbody : bodyAt v.tree l = some b)
    (hkind : stripTrailingSlash lower ≠ lower → b.kind = .dir) (hdev : v.device l = dev)
    (hgone : ∀ e, find k v.tree true lp.loopdir ≠ .ok e) (hmade : MadeAt v w lp.loopdir e) :
    Base pid lp leaf lower dev w e := by
  obtain ⟨hderive, himg, -⟩ := loopFill_eq hfill
  obtain ⟨base, hbase⟩ := deriveLoopdir_suffix hderive
  obtain ⟨cs, a, -, hcomps⟩ := comps_append_piece base
  have hloop : comps lp.loopdir = cs ++ [a ++ loopSuffix] := by
    rw [← hbase]
    exact hcomps loopSuffix (by decide) (by decide)
  have hne : lp.loopdir ≠ [] := by
    rw [← hbase]
    exact List.append_ne_nil_of_right_ne_nil base (by decide)
  have hbeside (t : CStr) (ht : slash ∉ t) (m : Loc) (hm : w.names (lp.loopdir ++ t) m = true)
      (hthere : bodyAt v.tree m ≠ none) : v.names (lp.loopdir ++ t) m = true := by
    refine names_made hmade hloop (c := a ++ (loopSuffix ++ t)) ?_ (Volume.start_append hne t) hm hthere
    rw [← hbase, List.append_assoc]
    refine hcomps _ (List.append_ne_nil_of_left_ne_nil (by decide) t) fun hmem => ?_
    rcases List.mem_append.mp hmem with h | h
    · exact absurd h (by decide)
    · exact ht h
  obtain ⟨hlower, -⟩ := hclear.lowerAt hfind hbody hkind
  rw [loopPlace_none hgone] at hlower
  have hbare (m : Loc) (b : Volume.Body) (hb : bodyAt (v.bare pid lp none) m = some b) :
      bodyAt (w.bare pid lp (some e)) m = some b := by
    rw [bodyAt_bare] at hb
    split at hb
    · cases hb
    · rename_i hcover
      have hw := hmade.kept m b hb
      have hthere : bodyAt v.tree m ≠ none := by
        rw [hb]
        exact Option.some_ne_none b
      rw [bodyAt_bare, if_neg, hw]
      rw [Bool.not_eq_true]
      refine covers_false.mpr ⟨?_, ?_⟩
      · by_contra hreplaces
        obtain ⟨hnames, hdir⟩ := replaces_iff.mp (Bool.not_eq_false _ ▸ hreplaces)
        refine hcover ?_
        unfold Host.covers
        rw [Option.any_none, Bool.or_false]
        rw [hw, ← hb] at hdir
        refine replaces_iff.mpr ⟨?_, hdir⟩
        rw [himg, tmpName, List.append_assoc, List.append_assoc] at hnames ⊢
        refine hnames.imp (fun hm => ?_) fun hm => ?_
        · exact hbeside _ (by decide) m hm hthere
        · refine hbeside _ (fun hmem => ?_) m hm hthere
          rcases List.mem_append.mp hmem with h | h
          · exact absurd h (by decide)
          · rcases List.mem_append.mp h with h | h
            · exact absurd h (by decide)
            · exact absurd (isDigit_of_mem_intStr h) (by decide)
      · rintro ⟨hpre, hne⟩
        rw [hmade.below m hpre hne] at hw
        cases hw
  refine ⟨hmade.find, hmade.dir, ⟨l, b, hlower.frays hbare, ?_, ?_⟩, Or.inr hmade.below, ?_⟩
  · rintro rfl
    rw [hmade.new] at hbody
    cases hbody
  · rw [hmade.mounts.device, hdev]
  · rw [hmade.mounts.image]
    exact hclear.link

end Clearing

section Mounted

variable {v w x y : Host k} {e l m : Loc} {leaf : CStr} {b : Volume.Body} {keepWork : Bool}
variable (h : OnHost fs view)

/-- The appdir is on the file system that is mounted at the loop directory. -/
theorem Over.appdir {A : Loc} (hover : Over lp leaf lower dev x e) (happ : lp.loopAppdir = lp.loopdir ++ slash :: leaf)
    (hslash : slash ∉ leaf) (hne : leaf ≠ []) (hup : leaf ≠ [dot, dot])
    (hfind : Volume.find k x.tree true lp.loopAppdir = .ok A) : e <+: A := by
  have hleads := Volume.leads_of_find hover.find hover.dir
  by_cases hhere : leaf = [dot]
  · subst hhere
    obtain ⟨hnil, hshort⟩ := Volume.find_ok hfind
    have hsplit : Volume.Split lp.loopAppdir lp.loopdir [dot] := ⟨happ, hslash⟩
    have hdot : ¬ Volume.slashed lp.loopAppdir = true := by
      rw [hsplit.slashed]
      decide
    have hstart : Volume.start k.cwd lp.loopAppdir = Volume.start k.cwd lp.loopdir := by
      rw [happ, Volume.start_append hleads.ne]
    rw [Volume.find_eq hnil hshort, Volume.parts, hsplit.comps_name hne, if_neg hdot,
      List.append_nil, hstart, hleads.walk] at hfind
    cases hfind
    exact List.prefix_rfl
  · have hname : ValidName leaf := ⟨hne, hslash, hhere, hup⟩
    rw [happ] at hfind
    rcases Volume.find_nofollow hfind with hsame | ⟨m, target, hlink, hbody⟩
    · rw [hleads.child_find hname hsame]
      exact List.prefix_append e [leaf]
    · rw [hleads.child_find hname hlink] at hbody
      exact absurd hbody (hover.link target)

theorem Reached.find {path : CStr} (hreached : Reached x y path) (hstrip : stripTrailingSlash path = path) :
    ∃ A, Volume.find k y.tree true path = .ok A ∧ bodyAt y.tree A = some .dir := by
  rcases hreached with ⟨rfl, A, hfind, hdir⟩ | ⟨A, hmade⟩
  · rw [hstrip] at hfind
    exact ⟨A, hfind, hdir⟩
  · exact ⟨A, hmade.find, hmade.dir⟩

theorem stripped_loopdir (hfill : loopFill dirs.appdir = some lp) :
    stripTrailingSlash lp.loopdir = lp.loopdir := by
  obtain ⟨hderive, -, -⟩ := loopFill_eq hfill
  obtain ⟨base, hbase⟩ := deriveLoopdir_suffix hderive
  refine stripTrailingSlash_of_last ?_
  rw [← hbase, List.getLast?_append_of_ne_nil _ (by decide)]
  decide

include h in
/-- Once the appdir is made on the new file system, `same_fs_detect` has nothing against
the upper directory in it. -/
theorem Over.detect (hfill : loopFill dirs.appdir = some lp)
    (hover : Over lp (appdirLeaf dirs.appdir) lower dev x e) (hup : appdirLeaf dirs.appdir ≠ [dot, dot])
    (hreached : Reached x (view t) lp.loopAppdir) :
    (Sandbox.detect fs t lower (lp.loopAppdir ++ lit "/upper")).1 = 0 := by
  obtain ⟨-, -, happ⟩ := loopFill_eq hfill
  have hslash := (appdirLeaf_cases dirs.appdir).1
  have hstrip := stripped_loopdir hfill
  have hy := hover.reached hreached
  obtain ⟨new, hnew, hother, hmagic⟩ := hy.fresh
  obtain ⟨l, b, hlower, hdev⟩ := hy.lower
  have hresolve := resolve_host h lower hlower.find hlower.body hlower.kind
  have hloop := resolve_host h lp.loopdir (by rw [hstrip]; exact hy.find) hy.dir fun _ => rfl
  refine (detect_zero_iff hfill hresolve hdev hloop).mpr (Or.inl ?_)
  have hsuits (f : Found) (hf : fs.resolve t lp.loopAppdir = .ok f) (hfdev : f.dev = new)
      (hfmagic : f.magic ≠ overlayfsSuperMagic) : Suits fs t lower dev lp.loopAppdir := by
    refine ⟨f, hf, ?_⟩
    split
    · rw [hfdev]
      exact hother
    · exact hfmagic
  by_cases hne : appdirLeaf dirs.appdir = []
  · have hpath : stripTrailingSlash lp.loopAppdir = lp.loopdir := by
      have hpos : lp.loopdir ≠ [] := (Volume.find_ok hy.find).1
      rw [happ, hne, stripTrailingSlash_snoc hpos, hstrip]
    refine hsuits _ (resolve_host h lp.loopAppdir (by rw [hpath]; exact hy.find) hy.dir fun _ => rfl)
      (hnew e List.prefix_rfl) ?_
    dsimp only
    rw [hnew e List.prefix_rfl]
    exact hmagic
  · have hpath : stripTrailingSlash lp.loopAppdir = lp.loopAppdir := by
      refine stripTrailingSlash_of_last ?_
      rw [happ, List.getLast?_append_of_ne_nil _ (List.cons_ne_nil _ _), List.getLast?_cons]
      intro hlast
      rw [List.getLast?_eq_some_getLast hne] at hlast
      exact hslash (Option.some.inj hlast ▸ List.getLast_mem hne)
    obtain ⟨A, hfind, hdir⟩ := hreached.find hpath
    have hbelow : e <+: A := hy.appdir happ hslash hne hup hfind
    refine hsuits _ (resolve_host h lp.loopAppdir (by rw [hpath]; exact hfind) hdir fun _ => rfl)
      (hnew A hbelow) ?_
    dsimp only
    rw [hnew A hbelow]
    exact hmagic

/-- A mount on the loop directory, or none. -/
def MountsOver (lp : Loop) (leaf lower : CStr) (dev : Nat) (e : Loc) (r : Option Errno) (x : Host k) : Prop :=
  r = none → Over lp leaf lower dev x e

include h in
theorem mountLoop_host (hbase : Base pid lp leaf lower dev v e) (id : Nat) :
    EndsOn fs (fun s => Rebuilt pid lp.loopImg v (view s)) (Steps.sys (.mountLoop id lp.loopdir))
      fun r t => MountsOver lp leaf lower dev e r (view t) := by
  refine Ends.perform fun c s r t hs hans => ?_
  have heffect : Effect (.mountLoop id lp.loopdir) (fs.answer (.mountLoop id lp.loopdir) s).1 (view s)
      (view (fs.answer (.mountLoop id lp.loopdir) s).2) := h.answers _ s
  rw [hans] at heffect
  rintro rfl
  obtain ⟨e', new, hfind, hcovers⟩ := heffect
  exact hbase.over rfl hs hfind hcovers

include h in
/-- What `setup_ext4_loopback` returns suits. -/
theorem loopback_host (hfill : loopFill dirs.appdir = some lp)
    (hbase : Base pid lp (appdirLeaf dirs.appdir) lower dev v e) (hup : appdirLeaf dirs.appdir ≠ [dot, dot]) :
    EndsOn fs (fun s => view s = v) (setupExt4Loopback pid moved lp keepWork) fun r t =>
      ∀ d, r = some d → (Sandbox.detect fs t lower d.upperdir).1 = 0 := by
  have hfails {pre : S → Prop} : EndsOn fs pre (pure none) fun (r : Option Dirs) t =>
      ∀ d, r = some d → (Sandbox.detect fs t lower d.upperdir).1 = 0 :=
    Ends.pure fun _ _ _ d hd => by cases hd
  have himg : EndsOn fs (fun s => view s = v) (setupExt4Img pid lp.loopImg) fun _ t =>
      Rebuilt pid lp.loopImg v (view t) :=
    Ends.conseq (setupImg_host h) (fun _ _ hs => hs ▸ Rebuilt.refl _) fun _ _ _ hs => hs
  refine Ends.bind himg fun r => Ends.ite (fun _ => hfails) fun _ => ?_
  refine Ends.bind (ioLoop_host h lp.loopImg) fun id => ?_
  cases id with
  | none => exact hfails
  | some id =>
    refine Ends.bind (mountLoop_host h hbase id) fun r => ?_
    have hclose : EndsOn fs (fun s => MountsOver lp (appdirLeaf dirs.appdir) lower dev e r (view s))
        (Steps.sys (.loopClose id)) fun _ t => MountsOver lp (appdirLeaf dirs.appdir) lower dev e r (view t) :=
      h.only (I := fun x => MountsOver lp (appdirLeaf dirs.appdir) lower dev e r x)
        (Only.perform (k := Call.loopClose id) trivial)
        fun _ _ _ _ hok hw heffect => effect_still hok heffect ▸ hw
    refine Ends.bind hclose fun _ => ?_
    cases r with
    | some err => exact hfails
    | none =>
      cases hset : setLoopAppdir moved lp keepWork with
      | none => exact hfails
      | some d =>
        obtain ⟨hupper, happ⟩ := setLoopAppdir_eq hset
        intro c s hs
        have hmkdir : EndsOn fs (fun t => view t = view s) (mkdirChecked d.appdir) fun r t =>
            r = 0 → Reached (view s) (view t) d.appdir := by
          refine Ends.bind (mkdirDepth_host h _ _) fun r => Ends.pure fun _ _ hreached hr => ?_
          split at hr
          · cases hr
          · rename_i hzero
            exact hreached (not_not.mp hzero)
        have hrest : EndsOn fs (fun t => view t = view s) (mkdirChecked d.appdir >>= fun r =>
            (pure (if r ≠ 0 then none else some d) : Steps (Option Dirs))) fun r t =>
              ∀ d, r = some d → (Sandbox.detect fs t lower d.upperdir).1 = 0 := by
          refine Ends.bind hmkdir fun r => Ends.pure fun _ t hreached d' hd' => ?_
          split at hd'
          · cases hd'
          · rename_i hr
            cases hd'
            have hdone := hreached (not_not.mp hr)
            rw [happ] at hdone
            rw [hupper]
            exact (hs rfl).detect h hfill hup hdone
        exact hrest c s rfl

include h in
theorem lstat_host (path : CStr) :
    EndsOn fs (fun s => view s = v) (Steps.sys (.lstat path)) fun r t =>
      v.stated path = r ∧ view t = v := by
  refine Ends.perform fun c s r t hs hans => ?_
  have hother : fs.other (.lstat path) s = (r, t) := hans
  rw [h.lstat] at hother
  obtain ⟨rfl, rfl⟩ := Prod.mk.inj hother
  exact ⟨congrArg (Host.stated · path) hs.symm, hs⟩

include h in
theorem realDir_host (path : CStr) :
    EndsOn fs (fun s => view s = v) (requireRealDir path) fun r t =>
      (r = 0 → ∃ st, v.stated path = .ok st ∧ st.kind = .dir) ∧ view t = v := by
  refine Ends.bind (lstat_host h path) fun r => Ends.assume fun hst => ?_
  cases r with
  | error err => exact Ends.pure fun _ _ ht => ⟨fun hr => absurd hr (by decide), ht⟩
  | ok st =>
    refine Ends.pure fun _ _ ht => ⟨fun hr => ⟨st, hst, ?_⟩, ht⟩
    by_contra hne
    rw [if_neg hne] at hr
    cases hr

include h in
/-- Where the loop directory is not on another file system, a new one is mounted there. -/
theorem ensure_host (hfill : loopFill dirs.appdir = some lp)
    (hfind : find k v.tree true (stripTrailingSlash lower) = .ok l) (hbody : bodyAt v.tree l = some b)
    (hkind : stripTrailingSlash lower ≠ lower → b.kind = .dir) (hdev : v.device l = dev)
    (hhere : ∀ st, v.stated lp.loopdir = .ok st → st.kind = .dir → st.dev = dev)
    (hclear : (∀ st, v.stated lp.loopdir = .ok st → st.kind = .dir ∧ st.dev = dev) →
      Clear pid v lp (appdirLeaf dirs.appdir) lower) :
    EndsOn fs (fun s => view s = v) (ensureExt4Mounted pid moved lp dev keepWork) fun r t =>
      ∀ d, r = some d → (Sandbox.detect fs t lower d.upperdir).1 = 0 := by
  have hfails {pre : S → Prop} : EndsOn fs pre (pure none) fun (r : Option Dirs) t =>
      ∀ d, r = some d → (Sandbox.detect fs t lower d.upperdir).1 = 0 :=
    Ends.pure fun _ _ _ d hd => by cases hd
  refine Ends.bind (lstat_host h lp.loopdir) fun r => Ends.assume fun hst => ?_
  cases r with
  | error err =>
    have hgone : ∀ e, find k v.tree true lp.loopdir ≠ .ok e := gone_of_lstat hst
    have hcl := hclear fun st hok => by
      rw [hst] at hok
      cases hok
    refine Ends.bind (mkdirDepth_host h _ lp.loopdir) fun r => Ends.ite (fun _ => hfails) fun hr => ?_
    intro c s hreached
    rcases hreached (not_not.mp hr) with ⟨-, e, hfind', -⟩ | ⟨e, hmade⟩
    · rw [stripped_loopdir hfill] at hfind'
      exact absurd hfind' (hgone e)
    · exact loopback_host h hfill (hcl.base_made hfill hfind hbody hkind hdev hgone hmade) hcl.up c s rfl
  | ok st =>
    refine Ends.bind (realDir_host h lp.loopdir) fun r => Ends.ite (fun _ => hfails) fun hr => ?_
    refine Ends.assume fun hreal => ?_
    obtain ⟨st', hst', hdir⟩ := hreal (not_not.mp hr)
    obtain rfl : st' = st := Except.ok.inj (hst'.symm.trans hst)
    refine Ends.ite (fun hother => absurd (hhere st' hst hdir) hother) fun _ => ?_
    obtain ⟨e, hloop, hbodyLoop, -⟩ := place_of_lstat hfill hst hdir
    have hcl : Clear pid v lp (appdirLeaf dirs.appdir) lower := hclear fun st'' hok => by
      obtain rfl : st'' = st' := Except.ok.inj (hok.symm.trans hst)
      exact ⟨hdir, hhere st'' hok hdir⟩
    exact loopback_host h hfill (hcl.base hfind hbody hkind hdev hloop hbodyLoop) hcl.up

/-- What `handle_same_fs` does in case of a conflict is to move to a loop file system. -/
theorem moves_of_some (hupper : cfg.upperdir = none) {c c' : List Slot} {d : Dirs}
    (hconflict : 0 < (detect fs s dirs.lowerdir dirs.upperdir).1)
    (hdev : (detect fs s dirs.lowerdir dirs.upperdir).2 = dev)
    (hrun : ((afterDetect pid cfg dirs (detect fs s dirs.lowerdir dirs.upperdir)).run c).exec fs.answer s =
      ((some d, c'), t)) :
    ∃ lp moved, Moves fs cfg dirs s lp dev ∧
      ((Steps.ioExists moved.upperdir >>= fun e =>
        if e = 0 then useProvisionedLoopback moved lp dev cfg.workdir.isSome
        else ensureExt4Mounted pid moved lp dev cfg.workdir.isSome).run c).exec fs.answer s =
          ((some d, c'), t) := by
  unfold afterDetect at hrun
  rw [if_neg (by omega), if_neg (by omega), hupper, if_neg (by decide)] at hrun
  cases hfill : loopFill dirs.appdir with
  | none =>
    rw [hfill] at hrun
    cases hrun
  | some lp =>
    rw [hfill] at hrun
    dsimp only at hrun
    cases hset : loopDirsSet dirs cfg lp with
    | none =>
      rw [hset] at hrun
      cases hrun
    | some moved =>
      rw [hset, hdev] at hrun
      exact ⟨lp, moved, ⟨hconflict, hdev, hfill, moved, hset⟩, hrun⟩

include h in
/-- A loop directory that is not on another file system gets one mounted. -/
theorem mounted_host (hlstat : ∀ path s, (fs.other (.lstat path) s).2 = s)
    (hmoves : Moves fs cfg dirs s lp dev) (hnot : ¬ Elsewhere fs s lp dev)
    (hclear : MountsClear fs view pid cfg dirs s) {c c' : List Slot} (hc : Current fs s c) {d : Dirs}
    (hrun : ((Steps.ioExists moved.upperdir >>= fun e =>
        if e = 0 then useProvisionedLoopback moved lp dev cfg.workdir.isSome
        else ensureExt4Mounted pid moved lp dev cfg.workdir.isSome).run c).exec fs.answer s =
          ((some d, c'), t)) :
    (Sandbox.detect fs t dirs.lowerdir d.upperdir).1 = 0 := by
  obtain ⟨c₁, hc₁, hexists⟩ := Yields.ioExists moved.upperdir c hc
  rw [StateT.run_bind, exec_bind, hexists] at hrun
  have hstated (path : CStr) : fs.lstat s path = (view s).stated path := by
    unfold FileSystem.lstat
    rw [h.lstat]
  by_cases hzero : accessResult (fs.access s moved.upperdir) = 0
  · have hnone : standing fs s moved lp dev cfg.workdir.isSome = none := by
      unfold standing
      split
      · rfl
      · rename_i st hst
        exact if_neg fun hkind => hnot ⟨st, hst, hkind⟩
    have hyields : Yields fs s (useProvisionedLoopback moved lp dev cfg.workdir.isSome) _ :=
      useProvisionedLoopback_yields hlstat lp dev cfg.workdir.isSome
    rw [hnone] at hyields
    obtain ⟨c₂, -, hexec⟩ := hyields c₁ hc₁
    dsimp only at hrun
    rw [if_pos hzero, hexec] at hrun
    cases hrun
  · obtain ⟨f, hlower, hdev⟩ := lower_of_conflict hmoves.conflict
    obtain ⟨l, b, hfind, hbody, hkind, hplace⟩ := host_resolve h hlower
    have hhere (st : Stat) (hst : (view s).stated lp.loopdir = .ok st) (hdir : st.kind = .dir) :
        st.dev = dev := by
      by_contra hother
      exact hnot ⟨st, (hstated _).trans hst, hdir, hother⟩
    have hends : EndsOn fs (fun x => view x = view s)
        (ensureExt4Mounted pid moved lp dev cfg.workdir.isSome) fun r x =>
          ∀ d, r = some d → (Sandbox.detect fs x dirs.lowerdir d.upperdir).1 = 0 :=
      ensure_host h hmoves.fill hfind hbody hkind (hplace.symm.trans (hdev.trans hmoves.dev)) hhere
        fun hdirs => hclear lp dev hmoves fun st hst => hdirs st ((hstated _).symm.trans hst)
    have hpost := hends.exec (c := c₁) (s := s) rfl
    dsimp only at hrun
    rw [if_neg hzero] at hrun
    rw [hrun] at hpost
    exact hpost d rfl

include h in
/-- `handle_same_fs` does its job where the loop directory that it takes as it stands
suits, and nothing is in the way of one that it mounts; the former is needed. -/
theorem handleSameFs_relocates {c : List Slot} (hc : Current fs s c) (hupper : cfg.upperdir = none)
    (hwork : dirs.workdir.length < bufSize) :
    (TakenWell fs cfg dirs s → MountsClear fs view pid cfg dirs s → Relocates fs pid cfg dirs s c) ∧
      (Relocates fs pid cfg dirs s c → TakenWell fs cfg dirs s) := by
  have hlstat (path : CStr) (s : S) : (fs.other (.lstat path) s).2 = s := by rw [h.lstat]
  obtain ⟨c₁, hc₁, hdetect⟩ := sameFsDetect_yields dirs.lowerdir dirs.upperdir c hc
  have hrest : ((handleSameFs pid cfg dirs).run c).exec fs.answer s =
      ((afterDetect pid cfg dirs (detect fs s dirs.lowerdir dirs.upperdir)).run c₁).exec fs.answer s := by
    change ((sameFsDetect dirs.lowerdir dirs.upperdir >>= afterDetect pid cfg dirs).run c).exec
      fs.answer s = _
    rw [StateT.run_bind, exec_bind, hdetect]
  have hwell {lp : Loop} {dev : Nat} (hmoves : Moves fs cfg dirs s lp dev) (hother : Elsewhere fs s lp dev) :
      (detect fs s dirs.lowerdir (lp.loopAppdir ++ lit "/upper")).1 = 0 ↔
        StandsWell fs s lp dirs.lowerdir dev := by
    obtain ⟨f, hlower, hdev⟩ := lower_of_conflict hmoves.conflict
    obtain ⟨st, hst, hkind, -⟩ := hother
    have hstated : (view s).stated lp.loopdir = .ok st := by
      unfold FileSystem.lstat at hst
      rwa [h.lstat] at hst
    obtain ⟨e, hfind, hdir, -⟩ := place_of_lstat hmoves.fill hstated hkind
    refine detect_zero_iff hmoves.fill hlower (hdev.trans hmoves.dev)
      (resolve_host h lp.loopdir ?_ hdir fun _ => rfl)
    rw [stripped_loopdir hmoves.fill]
    exact hfind
  constructor
  · intro htaken hclear d c' t hrun
    rw [hrest] at hrun
    rw [sameFs_eq, sameFs_eq]
    rcases lt_trichotomy (detect fs s dirs.lowerdir dirs.upperdir).1 0 with hneg | hzero | hpos
    · unfold afterDetect at hrun
      rw [if_pos hneg] at hrun
      cases hrun
    · unfold afterDetect at hrun
      rw [if_neg (by omega), if_pos hzero] at hrun
      cases hrun
      exact ⟨hzero, fun _ => ⟨rfl, rfl⟩⟩
    · refine ⟨?_, fun hzero => absurd hzero (by omega)⟩
      obtain ⟨lp, moved, hmoves, hmoved⟩ := moves_of_some hupper hpos rfl hrun
      by_cases hother : Elsewhere fs s lp (detect fs s dirs.lowerdir dirs.upperdir).2
      · obtain ⟨d', hyields, hd'⟩ := taken_yields hlstat pid hupper hwork hmoves hother
        obtain ⟨c₂, -, hexec⟩ := hyields c₁ hc₁
        cases hexec.symm.trans hrun
        rw [hd']
        exact (hwell hmoves hother).mpr (htaken lp _ hmoves hother)
      · exact mounted_host h hlstat hmoves hother hclear hc₁ hmoved
  · intro hrelocates lp dev hmoves hother
    obtain ⟨d, hyields, hd⟩ := taken_yields hlstat pid hupper hwork hmoves hother
    obtain ⟨c₂, -, hexec⟩ := hyields c₁ hc₁
    have hzero := (hrelocates d c₂ s (hrest.trans hexec)).1
    rw [sameFs_eq, hd] at hzero
    exact (hwell hmoves hother).mp hzero

end Mounted

def stackedTree : Volume.Tree :=
  ((Volume.bareTree.insert ([] ++ [lit "a"]) ⟨.dir, Volume.rootIds⟩).insert ([] ++ [lit "a-loop"])
    ⟨.dir, Volume.rootIds⟩).insert ([] ++ [lit "l"]) ⟨.dir, Volume.rootIds⟩

theorem stacked_wf : Wf stackedTree := by
  refine Wf.insert_new (Wf.insert_new (Wf.insert_new Volume.bare_wf ?_ ?_ ?_ _) ?_ ?_ ?_ _) ?_ ?_ ?_ _
  all_goals decide

/-- An overlay, with another file system at `/a-loop`. -/
def stackedHost (magic : Nat) : Host Volume.freeKernel where
  tree := stackedTree
  wf := stacked_wf
  home := by decide
  device l := if l.head? = some (lit "a-loop") then 2 else 1
  magic dev := if dev = 2 then magic else overlayfsSuperMagic
  image := Volume.bareTree

/-- That host, where nothing can be changed. -/
def stacked (magic : Nat) : FileSystem Unit where
  find _ path := (stackedHost magic).found path
  other
    | .lstat path, s => ((stackedHost magic).stated path, s)
    | k, s => (refused k, s)

theorem stacked_host (magic : Nat) : OnHost (stacked magic) fun _ => stackedHost magic where
  find _ _ := rfl
  lstat _ _ := rfl
  effect call _ := by cases call <;> first | rfl | trivial

def stackedDirs : Dirs where
  appdir := lit "/a/b"
  upperdir := lit "/a/b/upper"
  workdir := lit "/a/b/work"
  lowerdir := lit "/l"
  dirsCreated := false

theorem stacked_moves {magic : Nat} (h : Moves (stacked magic) plainCfg stackedDirs () lp dev) :
    lp = ⟨lit "/a-loop", lit "/a-loop.img", lit "/a-loop/b"⟩ ∧ dev = 1 := by
  have hfill : loopFill stackedDirs.appdir = some ⟨lit "/a-loop", lit "/a-loop.img", lit "/a-loop/b"⟩ := by
    decide
  have hdetect : detect (stacked magic) () stackedDirs.lowerdir stackedDirs.upperdir = (1, 1) := by rfl
  refine ⟨Option.some.inj (h.fill.symm.trans hfill), ?_⟩
  rw [← h.dev, hdetect]

/-- The data moves to `/a-loop/b`, which is no better if that is an overlay too. -/
theorem relocates_stacked :
    Relocates (stacked 0xef53) 7 plainCfg stackedDirs () [] ∧
      ¬ Relocates (stacked overlayfsSuperMagic) 7 plainCfg stackedDirs () [] := by
  have hplace (magic : Nat) : (stacked magic).resolve () (lit "/a-loop") = .ok ⟨2, .dir, magic⟩ := by rfl
  have hmissing (magic : Nat) : (stacked magic).access () (lit "/a-loop/b") = some .enoent := by rfl
  have hstat (magic : Nat) : (stacked magic).lstat () (lit "/a-loop") = .ok ⟨2, .dir⟩ := by rfl
  constructor
  · refine (handleSameFs_relocates (stacked_host 0xef53) current_nil rfl (by decide)).1 ?_ ?_
    · rintro lp dev hmoves -
      obtain ⟨rfl, rfl⟩ := stacked_moves hmoves
      exact Or.inr ⟨by rw [hmissing]; decide, _, hplace 0xef53, by decide⟩
    · intro lp dev hmoves hhere
      obtain ⟨rfl, rfl⟩ := stacked_moves hmoves
      exact absurd (hhere _ (hstat 0xef53)).2 (by decide)
  · intro hrelocates
    have htaken := (handleSameFs_relocates (stacked_host overlayfsSuperMagic) current_nil rfl
      (by decide)).2 hrelocates
    have hmoves : Moves (stacked overlayfsSuperMagic) plainCfg stackedDirs ()
        ⟨lit "/a-loop", lit "/a-loop.img", lit "/a-loop/b"⟩ 1 :=
      ⟨by decide +kernel, by decide +kernel, by decide, _, rfl⟩
    rcases htaken _ 1 hmoves ⟨_, hstat _, rfl, by decide⟩ with ⟨f, hf, -⟩ | ⟨-, f, hf, hsuits⟩
    · have hnone := hmissing overlayfsSuperMagic
      rw [access_of_resolve hf] at hnone
      cases hnone
    · cases (hplace _).symm.trans hf
      exact absurd hsuits (by decide)

end Cage.Sandbox
