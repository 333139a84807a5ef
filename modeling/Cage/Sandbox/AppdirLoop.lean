import Cage.Sandbox.AppdirSlashes
import Cage.Util.MemPathCorrect

/-!
Where the loop file system goes for an appdir with slashes at its end. They are
not cut off: the last element of the appdir counts as its parent, and the leaf is
empty.
-/

namespace Cage.Sandbox

open Lib.Program Util

/-- Two slashes stand at the end. -/
def EndsTwice (path : CStr) : Prop := [slash, slash] <:+ path

/-- The path is not made of slashes only. -/
def Named (path : CStr) : Prop := ∃ c ∈ path, c ≠ slash

variable {path : CStr} {lp lp' : Loop}

theorem Named.ne_nil (h : Named path) : path ≠ [] := by
  rintro rfl
  obtain ⟨c, hc, -⟩ := h
  cases hc

theorem Named.of_withSlashes {n : Nat} (h : Named (withSlashes path n)) : Named path := by
  obtain ⟨c, hc, hne⟩ := h
  refine ⟨c, (List.mem_append.mp hc).resolve_right fun hs => hne ?_, hne⟩
  exact List.eq_of_mem_replicate hs

theorem withSlashes_add (m n : Nat) :
    withSlashes (withSlashes path m) n = withSlashes path (m + n) := by
  rw [withSlashes, withSlashes, withSlashes, List.append_assoc, List.replicate_append_replicate]

theorem getLast?_withSlashes (n : Nat) : (withSlashes path (n + 1)).getLast? = some slash := by
  rw [withSlashes_succ, List.getLast?_concat]

theorem EndsTwice.exists (h : EndsTwice path) : ∃ base, path = withSlashes base 2 := by
  obtain ⟨base, rfl⟩ := h
  exact ⟨base, rfl⟩

theorem endsTwice_snoc (h : path.getLast? = some slash) : EndsTwice (path ++ [slash]) := by
  obtain ⟨base, rfl⟩ := List.getLast?_eq_some_iff.mp h
  exact ⟨base, by rw [List.append_assoc]; rfl⟩

theorem samePath_withSlashes (m n : Nat) :
    SamePath (withSlashes path (m + 1)) (withSlashes path (n + 1)) := by
  have hone (n : Nat) : SamePath (withSlashes path (n + 1)) (path ++ [slash]) := by
    rw [withSlashes, List.replicate_succ']
    exact SamePath.append rfl (samePath_slashes (fun c hc => List.eq_of_mem_replicate hc) [])
  exact (hone m).trans (hone n).symm

/-- What is made of the paths for the loop file system. -/
theorem loopFill_eq (h : loopFill path = some lp) :
    deriveLoopdir path = some lp.loopdir ∧ lp.loopImg = lp.loopdir ++ lit ".img" ∧
      lp.loopAppdir = lp.loopdir ++ slash :: appdirLeaf path := by
  unfold loopFill at h
  cases hdir : deriveLoopdir path with
  | none =>
    rw [hdir] at h
    cases h
  | some base =>
    rw [hdir] at h
    change loopBuild base (appdirLeaf path) = some lp at h
    unfold loopBuild at h
    dsimp only at h
    split at h
    · cases h
    · cases h
      exact ⟨rfl, rfl, rfl⟩

theorem appdirLeaf_withSlashes (n : Nat) : appdirLeaf (withSlashes path (n + 1)) = [] := by
  unfold appdirLeaf
  rw [beforeLastSlash_withSlashes, withSlashes_succ]
  exact List.drop_of_length_le (by rw [List.length_append, List.length_singleton])

theorem appdirParent_withSlashes (hpath : path ≠ []) {n : Nat} {parent : CStr}
    (h : appdirParent (withSlashes path (n + 1)) = some parent) : parent = withSlashes path n := by
  obtain ⟨l, hl⟩ : ∃ l, (withSlashes path n).length = l + 1 :=
    ⟨_, (Nat.sub_add_cancel (List.length_pos_of_ne_nil (withSlashes_ne_nil hpath n))).symm⟩
  have htake : (withSlashes path (n + 1)).take (l + 1) = withSlashes path n := by
    rw [withSlashes_succ, ← hl, List.take_left]
  unfold appdirParent at h
  rw [beforeLastSlash_withSlashes, hl] at h
  change (if ((withSlashes path (n + 1)).take (l + 1)).length ≥ bufSize then none
    else some ((withSlashes path (n + 1)).take (l + 1))) = some parent at h
  rw [htake] at h
  split at h
  · cases h
  · exact (Option.some.inj h).symm

/-- The loop directory is the parent, or it with the suffix. -/
theorem deriveLoopdir_eq {dir : CStr} (h : deriveLoopdir path = some dir) :
    ∃ parent, appdirParent path = some parent ∧
      (dir = parent ++ loopSuffix ∨ dir = parent ∧ loopSuffix <:+ parent) := by
  unfold deriveLoopdir at h
  cases hparent : appdirParent path with
  | none =>
    rw [hparent] at h
    cases h
  | some parent =>
    rw [hparent] at h
    refine ⟨parent, rfl, ?_⟩
    simp only [Option.bind_eq_bind, Option.bind_some] at h
    by_cases hends : parent.length ≥ loopSuffix.length ∧
        parent.drop (parent.length - loopSuffix.length) = loopSuffix
    · rw [if_pos hends, List.append_nil] at h
      split at h
      · cases h
      · have hdir := Option.some.inj h
        exact .inr ⟨hdir.symm, hends.2 ▸ List.drop_suffix _ _⟩
    · rw [if_neg hends] at h
      split at h
      · cases h
      · exact .inl (Option.some.inj h).symm

theorem not_loopSuffix_of_last (h : path.getLast? = some slash) : ¬ loopSuffix <:+ path := by
  rintro ⟨front, rfl⟩
  rw [List.getLast?_append_of_ne_nil _ (by decide)] at h
  revert h
  decide

theorem deriveLoopdir_withSlashes (hpath : path ≠ []) {n : Nat} {dir : CStr}
    (h : deriveLoopdir (withSlashes path (n + 2)) = some dir) :
    dir = withSlashes path (n + 1) ++ loopSuffix := by
  obtain ⟨parent, hparent, hdir⟩ := deriveLoopdir_eq h
  obtain rfl := appdirParent_withSlashes hpath hparent
  exact hdir.resolve_right fun hsame =>
    not_loopSuffix_of_last (getLast?_withSlashes n) hsame.2

/-- With two slashes at the end there may as well be more. -/
theorem loopFill_alike (hpath : Named path) (htwice : EndsTwice path) {n : Nat}
    (h : loopFill path = some lp) (h' : loopFill (withSlashes path n) = some lp') :
    SamePath lp.loopdir lp'.loopdir ∧ SamePath lp.loopImg lp'.loopImg ∧
      SamePath lp.loopAppdir lp'.loopAppdir := by
  obtain ⟨base, rfl⟩ := htwice.exists
  have hbase := hpath.of_withSlashes.ne_nil
  rw [withSlashes_add, Nat.add_comm] at h'
  obtain ⟨hdir, himg, happ⟩ := loopFill_eq h
  obtain ⟨hdir', himg', happ'⟩ := loopFill_eq h'
  have hsame : SamePath lp.loopdir lp'.loopdir := by
    rw [deriveLoopdir_withSlashes hbase hdir, deriveLoopdir_withSlashes hbase hdir']
    exact SamePath.append (samePath_withSlashes 0 n) rfl
  rw [appdirLeaf_withSlashes] at happ happ'
  rw [himg, himg', happ, happ']
  exact ⟨hsame, hsame.append rfl, hsame.append rfl⟩

/-- The leaf stands behind the last slash. -/
theorem appdirLeaf_cases (path : CStr) :
    slash ∉ appdirLeaf path ∧
      (appdirLeaf path = lit "default" ∨ ∃ base, path = base ++ slash :: appdirLeaf path) := by
  by_cases hmem : slash ∈ path
  · obtain ⟨name, base, hsplit, hname⟩ :=
      List.eq_append_cons_of_mem (List.mem_reverse.mpr hmem)
    have hpath : path = base.reverse ++ slash :: name.reverse := by
      rw [← List.reverse_reverse path, hsplit]
      simp
    have hfree : slash ∉ name.reverse := fun h => hname (List.mem_reverse.mp h)
    have hleaf : appdirLeaf path = name.reverse := by
      unfold appdirLeaf
      rw [hpath, beforeLastSlash_str _ hfree]
      change (base.reverse ++ slash :: name.reverse).drop (base.reverse.length + 1) = _
      rw [← List.singleton_append, ← List.append_assoc]
      exact List.drop_left' (by rw [List.length_append, List.length_singleton])
    rw [hleaf]
    exact ⟨hfree, .inr ⟨_, hpath⟩⟩
  · have hleaf : appdirLeaf path = lit "default" := by
      unfold appdirLeaf beforeLastSlash
      rw [if_neg hmem]
    rw [hleaf]
    exact ⟨by decide, .inl rfl⟩

/-- One slash more or less in front of the suffix is another path. -/
theorem not_samePath_suffix (hlast : path.getLast? ≠ some slash) (n : Nat) :
    ¬ SamePath (path ++ loopSuffix) (withSlashes path (n + 1) ++ loopSuffix) := by
  intro h
  have hslashes : SamePath (List.replicate (n + 1) slash ++ loopSuffix) (slash :: loopSuffix) :=
    samePath_slashes_behind (fun c hc => List.eq_of_mem_replicate hc) loopSuffix
  unfold SamePath at h hslashes
  rw [withSlashes, List.append_assoc, squeeze_append_of_last hlast, squeeze_append_of_last hlast,
    hslashes] at h
  exact absurd (List.append_cancel_left h) (by decide)

/-- The first slash behind the appdir moves its loop file system, and so does the
second. -/
theorem loopFill_differs (hpath : Named path) {n : Nat} (h : loopFill path = some lp)
    (h' : loopFill (withSlashes path (n + 1)) = some lp') (hdir : SamePath lp.loopdir lp'.loopdir)
    (hupper : SamePath (lp.loopAppdir ++ lit "/upper") (lp'.loopAppdir ++ lit "/upper")) :
    EndsTwice path := by
  obtain ⟨hderive, -, happ⟩ := loopFill_eq h
  obtain ⟨hderive', -, happ'⟩ := loopFill_eq h'
  obtain ⟨hfree, hleaf⟩ := appdirLeaf_cases path
  -- apart from the slashes, the upper directories differ in the leaf
  have hempty : appdirLeaf path = [] := by
    have hbytes := hupper.filter
    rw [happ, happ', appdirLeaf_withSlashes] at hbytes
    simp only [List.filter_append, hdir.filter, List.append_assoc,
      List.append_cancel_left_eq] at hbytes
    have hkeep : (appdirLeaf path).filter (· ≠ slash) = appdirLeaf path :=
      List.filter_eq_self.mpr fun c hc => decide_eq_true fun hs => hfree (hs ▸ hc)
    rw [← hkeep]
    exact List.append_cancel_right hbytes
  obtain ⟨base, hbase⟩ := hleaf.resolve_left fun hdefault =>
    absurd (hempty.symm.trans hdefault) (by decide)
  rw [hempty] at hbase
  subst hbase
  by_contra htwice
  have hlast : base.getLast? ≠ some slash := fun hslash => htwice (endsTwice_snoc hslash)
  have hne : base ≠ [] := Named.ne_nil (Named.of_withSlashes (n := 1) hpath)
  rw [show base ++ [slash] = withSlashes base 1 from rfl, withSlashes_add, Nat.add_comm 1,
    Nat.add_assoc] at hderive'
  rw [deriveLoopdir_withSlashes hne hderive'] at hdir
  obtain ⟨parent, hparent, hsuffix | ⟨hsame, -⟩⟩ := deriveLoopdir_eq hderive
  · rw [hsuffix, appdirParent_withSlashes (n := 0) hne hparent, withSlashes_zero] at hdir
    exact not_samePath_suffix hlast n hdir
  · rw [hsame, appdirParent_withSlashes (n := 0) hne hparent, withSlashes_zero] at hdir
    have hbytes := hdir.filter
    rw [withSlashes, List.append_assoc, List.filter_append, List.self_eq_append_right,
      List.filter_append, List.append_eq_nil_iff] at hbytes
    exact absurd hbytes.2 (by decide)

end Cage.Sandbox
