import Cage.Lib.Hoare
import Cage.Util.IoMkdirOwn
import Cage.Util.Rmtree

/-!
`io_exists`, `io_isdir`, `io_mkdir`, `io_mkdir_own` and `io_touch` leave what is in a tree
with links as it is, on every path: `io_mkdir_own` changes the owner of directories that
it has made itself.
-/

namespace Cage.Util.Volume

open Cage.Lib.Hoare

section

variable {k : Kernel} {t t₀ : Tree} {path : CStr} {uid gid : UInt32} {mode : Nat}

theorem sub_insert {l : Loc} (hnone : t.lookup l = none) (i : Inode) : Sub t (t.insert l i) := by
  intro m j hm
  have hne : m ≠ l := by
    rintro rfl
    rw [hnone] at hm
    cases hm
  rwa [AList.lookup_insert_ne hne]

/-- `mkdir` makes the entry that its path names, and the path then leads to it. -/
theorem mkdirAt_cases (k : Kernel) (path : CStr) (t : Tree) :
    (∃ e, mkdirAt k path t = (some e, t)) ∨
      ∃ l i, t.lookup l = none ∧ mkdirAt k path t = (none, t.insert l i) ∧
        find k (t.insert l i) true path = .ok l := by
  unfold mkdirAt
  cases hlast : lastOf k t path with
  | error e => exact Or.inl ⟨e, rfl⟩
  | ok p =>
    obtain ⟨l, name⟩ := p
    dsimp only
    cases hspecial : special name with
    | true => exact Or.inl ⟨.eexist, rfl⟩
    | false =>
      rw [if_neg (by simp)]
      cases hlookup : t.lookup (l ++ [name]) with
      | some i => exact Or.inl ⟨.eexist, rfl⟩
      | none =>
        cases k.refuses t (l ++ [name]) with
        | some e => exact Or.inl ⟨e, rfl⟩
        | none =>
          refine Or.inr ⟨l ++ [name], { body := .dir, owner := k.born (l ++ [name]) }, hlookup,
            rfl, ?_⟩
          have hsub : Sub t (t.insert (l ++ [name]) { body := .dir, owner := k.born (l ++ [name]) }) :=
            sub_insert hlookup _
          refine find_of_entry (lastOf_mono hsub hlast) hspecial ?_ (Or.inl rfl) fun target hb => by cases hb
          rw [bodyAt, AList.lookup_insert]
          rfl

/-- What a successful `mkdir` has done. -/
theorem mkdirAt_made (h : mkdirAt k path t = (none, t₀)) :
    ∃ l name, lastOf k t path = .ok (l, name) ∧ special name = false ∧
      t.lookup (l ++ [name]) = none ∧
        t₀ = t.insert (l ++ [name]) { body := .dir, owner := k.born (l ++ [name]) } := by
  unfold mkdirAt at h
  cases hlast : lastOf k t path with
  | error e =>
    rw [hlast] at h
    cases h
  | ok p =>
    obtain ⟨l, name⟩ := p
    rw [hlast] at h
    dsimp only at h
    cases hspecial : special name with
    | true =>
      rw [if_pos hspecial] at h
      cases h
    | false =>
      rw [if_neg (by simp [hspecial])] at h
      cases hlookup : t.lookup (l ++ [name]) with
      | some i =>
        rw [hlookup] at h
        cases h
      | none =>
        rw [hlookup] at h
        cases hrefuses : k.refuses t (l ++ [name]) with
        | some e =>
          rw [hrefuses] at h
          cases h
        | none =>
          rw [hrefuses] at h
          cases h
          exact ⟨l, name, rfl, hspecial, hlookup, rfl⟩

theorem mkdirAt_sub : Sub t (mkdirAt k path t).2 := by
  rcases mkdirAt_cases k path t with ⟨e, hrun⟩ | ⟨l, i, hnone, hrun, -⟩
  · rw [hrun]
    exact Sub.refl t
  · rw [hrun]
    exact sub_insert hnone i

theorem creatAt_sub : Sub t (creatAt k path t).2 := by
  unfold creatAt
  cases findWith k .ok t true path with
  | error e => exact Sub.refl t
  | ok l =>
    dsimp only
    cases hbody : bodyAt t l with
    | none =>
      cases k.refuses t l with
      | some e => exact Sub.refl t
      | none => exact sub_insert (bodyAt_eq_none.mp hbody) _
    | some b => cases b <;> exact Sub.refl t

/-- What was there at the beginning is still there. -/
def Keeping (t₀ : Tree) (w : IoState Tree) : Prop := Sub t₀ w.sys

theorem invalidate_keeping (path : CStr) : Keeps (Keeping t₀) (ioCacheInvalidate path) :=
  fun _ h => h

theorem mkdir_keeping : Keeps (Keeping t₀) (Io.sys ((volume k).mkdir path mode)) :=
  fun _ h => h.trans mkdirAt_sub

theorem stat_keeping : Keeps (Keeping t₀) (Io.sys ((volume k).stat path)) := fun _ h => h

theorem ioIsdir_keeping : Keeps (Keeping t₀) (ioIsdir (volume k) path) := by
  refine Keeps.bind stat_keeping fun st => ?_
  cases st <;> exact Keeps.pure _

theorem ioExists_keeping : Keeps (Keeping t₀) (ioExists (volume k) path) := by
  refine Keeps.bind (m := Io.cache) (fun _ h => h) fun cache => ?_
  refine Keeps.ite (fun _ => Keeps.pure _) fun _ => ?_
  refine Keeps.bind (m := Io.sys ((volume k).access path)) (fun _ h => h) fun r => ?_
  refine Keeps.ite (fun _ => ?_) fun _ => Keeps.pure _
  refine Keeps.bind (m := Io.cache) (fun _ h => h) fun cache => ?_
  exact Keeps.bind (m := Io.setCache _) (fun _ h => h) fun _ => Keeps.pure _

/-- The directory whose owner is changed is the one just made. -/
theorem mkdirChown_keeping : Keeps (Keeping t₀) (mkdirChown (volume k) path uid gid mode) := by
  intro w h
  have hcall : (volume k).mkdir path mode w.sys = mkdirAt k path w.sys := rfl
  rw [mkdirChown_split, hcall]
  rcases mkdirAt_cases k path w.sys with ⟨e, hmkdir⟩ | ⟨l, i, hnone, hmkdir, hfind⟩
  · rw [hmkdir]
    exact h
  · rw [hmkdir]
    have hchown : Triple (fun s : IoState Tree => s.sys = w.sys.insert l i)
        (Io.sys ((volume k).chown path uid gid)) fun _ => Keeping t₀ := by
      intro s hs
      have heq : (Io.sys ((volume k).chown path uid gid) s).2.sys =
          (chownAt k path uid gid (w.sys.insert l i)).2 := by rw [← hs]; rfl
      unfold Keeping
      rw [heq]
      unfold chownAt
      rw [hfind]
      dsimp only
      rw [AList.lookup_insert]
      dsimp only
      split
      · exact h.trans (sub_insert hnone i)
      · rw [AList.insert_insert]
        exact h.trans (sub_insert hnone _)
    have hmade : Triple (fun s : IoState Tree => s.sys = w.sys.insert l i)
        (ownMade (volume k) path uid gid) fun _ => Keeping t₀ := by
      refine Triple.bind (Q := fun _ s => s.sys = w.sys.insert l i) (fun s hs => hs) fun _ => ?_
      refine Triple.ite (fun _ => ?_) fun _ => Triple.pure fun s hs => ?_
      · refine Triple.bind hchown fun c => ?_
        cases c <;> exact Triple.pure fun _ hs => hs
      · unfold Keeping
        rw [hs]
        exact h.trans (sub_insert hnone i)
    exact hmade { w with sys := w.sys.insert l i } rfl

theorem mkdirParentsFrom_keeping (done rest : CStr) :
    Keeps (Keeping t₀) (mkdirParentsFrom (volume k) uid gid done rest) := by
  induction rest generalizing done with
  | nil => exact Keeps.pure _
  | cons c rest ih =>
    refine Keeps.ite (fun _ => ih _) fun _ => ?_
    refine Keeps.bind ioExists_keeping fun e => Keeps.ite (fun _ => ih _) fun _ => ?_
    exact Keeps.bind mkdirChown_keeping fun r => Keeps.ite (fun _ => Keeps.pure _) fun _ => ih _

/-- `io_mkdir_own` changes nothing that was there. -/
theorem ioMkdirOwn_keeping : Keeps (Keeping t₀) (ioMkdirOwn (volume k) path uid gid mode) := by
  refine Keeps.bind ioExists_keeping fun e => Keeps.ite (fun _ => Keeps.pure _) fun _ => ?_
  refine Keeps.ite (fun _ => Keeps.pure _) fun _ => ?_
  refine Keeps.bind (mkdirParentsFrom_keeping _ _) fun r => ?_
  exact Keeps.ite (fun _ => Keeps.pure _) fun _ => mkdirChown_keeping

theorem ioTouch_keeping : Keeps (Keeping t₀) (ioTouch (volume k) path) := by
  refine Keeps.bind (m := Io.sys ((volume k).creat path 0o644))
    (fun _ h => h.trans creatAt_sub) fun r => ?_
  cases r with
  | some e => exact Keeps.pure _
  | none => exact Keeps.bind (invalidate_keeping path) fun _ => Keeps.pure _

theorem mkdirExisting_keeping : Keeps (Keeping t₀) (mkdirExisting (volume k) path) := by
  have hcheck : Keeps (Keeping t₀) (mkdirCheckExisting (volume k) path) := by
    refine Keeps.bind ioIsdir_keeping fun d => Keeps.ite (fun _ => Keeps.pure _) fun _ => ?_
    exact Keeps.ite (fun _ => Keeps.pure _) fun _ => Keeps.pure _
  refine Keeps.bind hcheck fun r => Keeps.ite (fun _ => ?_) fun _ => Keeps.pure _
  exact Keeps.bind (invalidate_keeping path) fun _ => Keeps.pure _

theorem mkdirDeep_keeping {mkdir : CStr → Io Tree Int}
    (hmkdir : ∀ p, Keeps (Keeping t₀) (mkdir p)) :
    Keeps (Keeping t₀) (mkdirDeep (volume k) mkdir path) := by
  have hparent : Keeps (Keeping t₀) (mkdirParent mkdir path) := by
    unfold mkdirParent
    cases beforeLastSlash path with
    | none => exact Keeps.pure _
    | some len =>
      exact Keeps.ite (fun _ => Keeps.pure _) fun _ =>
        Keeps.ite (fun _ => Keeps.pure _) fun _ => hmkdir _
  have hlast : Keeps (Keeping t₀) (mkdirm (volume k) path 0o755) := by
    refine Keeps.bind mkdir_keeping fun r => ?_
    cases r <;> exact Keeps.pure _
  refine Keeps.bind hparent fun p => Keeps.ite (fun _ => Keeps.pure _) fun _ => ?_
  refine Keeps.bind hlast fun r => Keeps.ite (fun _ => ?_) fun _ => Keeps.pure _
  exact Keeps.bind (invalidate_keeping path) fun _ => Keeps.pure _

theorem mkdirDepth_keeping (n : Nat) (path : CStr) :
    Keeps (Keeping t₀) (mkdirDepth (volume k) n path) := by
  induction n generalizing path with
  | zero => exact Keeps.pure _
  | succ n ih =>
    refine Keeps.bind mkdir_keeping fun r => ?_
    cases r with
    | none => exact Keeps.bind (invalidate_keeping path) fun _ => Keeps.pure _
    | some e =>
      cases e with
      | eexist => exact mkdirExisting_keeping
      | enoent => exact mkdirDeep_keeping ih
      | eacces | other => exact Keeps.pure _

theorem ioMkdir_keeping : Keeps (Keeping t₀) (ioMkdir (volume k) path) := mkdirDepth_keeping _ path

end

end Cage.Util.Volume
