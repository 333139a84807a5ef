import Cage.Sandbox.AppdirLoop
import Cage.Util.MakesPath

/-!
The loop file system for an appdir that has already been moved to one: it is the
same, and its parts lie where they belong, unless the appdir has no last element.
-/

namespace Cage.Sandbox

open Util
open Util.Volume (Split exists_split_of_mem comps_piece)

def Absolute (path : CStr) : Prop := path.head? = some slash

/-- `path` names an entry of the directory `dir`. -/
def EntryOf (dir path : CStr) : Prop :=
  (Absolute path ↔ Absolute dir) ∧ ∃ name, ValidName name ∧ comps path = comps dir ++ [name]

/-- The paths name two entries of one directory. -/
def Beside (path other : CStr) : Prop :=
  (Absolute path ↔ Absolute other) ∧
    ∃ parent name name', ValidName name ∧ ValidName name' ∧ name ≠ name' ∧
      comps path = parent ++ [name] ∧ comps other = parent ++ [name']

/-- The relocated appdir has the same loop file system, directly under its
directory and with the image beside that. -/
structure Located (lp : Loop) : Prop where
  again : loopFill lp.loopAppdir = some lp
  under : EntryOf lp.loopdir lp.loopAppdir
  beside : Beside lp.loopImg lp.loopdir

/-- What stands behind the last slash of the path, if it has one, is a name. -/
def EndsInName (path : CStr) : Prop := ∀ base leaf, Split path base leaf → ValidName leaf

variable {path dir base leaf : CStr} {lp : Loop}

theorem Absolute.append (h : path ≠ []) (rest : CStr) : Absolute (path ++ rest) ↔ Absolute path := by
  unfold Absolute
  rw [List.head?_append_of_ne_nil _ h]

theorem appdirLeaf_split (h : Split path base leaf) : appdirLeaf path = leaf := by
  unfold appdirLeaf
  rw [h.eq, beforeLastSlash_str _ h.piece]
  change (base ++ slash :: leaf).drop (base.length + 1) = leaf
  rw [← List.drop_drop, List.drop_left]
  rfl

/-- The name of a loop directory ends in the suffix, whatever the appdir. -/
theorem deriveLoopdir_suffix (h : deriveLoopdir path = some dir) : loopSuffix <:+ dir := by
  obtain ⟨parent, -, hdir | ⟨hdir, hsuffix⟩⟩ := deriveLoopdir_eq h
  · exact hdir ▸ List.suffix_append ..
  · exact hdir ▸ hsuffix

/-- The suffix is not put on twice. -/
theorem deriveLoopdir_entry (hdir : loopSuffix <:+ dir) (hlen : dir.length < bufSize)
    (hleaf : slash ∉ leaf) : deriveLoopdir (dir ++ slash :: leaf) = some dir := by
  obtain ⟨l, hl⟩ : ∃ l, dir.length = l + 1 := by
    have hle : 5 ≤ dir.length := hdir.length_le
    exact ⟨dir.length - 1, by omega⟩
  have hparent : appdirParent (dir ++ slash :: leaf) = some dir := by
    unfold appdirParent
    rw [beforeLastSlash_str _ hleaf, hl]
    change (if ((dir ++ slash :: leaf).take (l + 1)).length ≥ bufSize then none
      else some ((dir ++ slash :: leaf).take (l + 1))) = some dir
    rw [← hl, List.take_left, if_neg (Nat.not_le.mpr hlen)]
  have hends : dir.length ≥ loopSuffix.length ∧
      dir.drop (dir.length - loopSuffix.length) = loopSuffix :=
    ⟨hdir.length_le, (List.suffix_iff_eq_drop.mp hdir).symm⟩
  unfold deriveLoopdir
  rw [hparent]
  simp only [Option.bind_eq_bind, Option.bind_some, if_pos hends, List.append_nil,
    if_neg (Nat.not_le.mpr hlen)]

theorem loopFill_length (h : loopFill path = some lp) : lp.loopdir.length < bufSize := by
  obtain ⟨hderive, -, -⟩ := loopFill_eq h
  unfold deriveLoopdir at hderive
  cases hparent : appdirParent path with
  | none =>
    rw [hparent] at hderive
    cases hderive
  | some parent =>
    rw [hparent] at hderive
    simp only [Option.bind_eq_bind, Option.bind_some] at hderive
    split at hderive <;> split at hderive
    · cases hderive
    · rename_i hshort
      exact Option.some.inj hderive ▸ Nat.not_le.mp hshort
    · cases hderive
    · rename_i hshort
      exact Option.some.inj hderive ▸ Nat.not_le.mp hshort

/-- A relocated appdir stays where it is. -/
theorem loopFill_again (h : loopFill path = some lp) : loopFill lp.loopAppdir = some lp := by
  obtain ⟨hderive, -, happ⟩ := loopFill_eq h
  have hfree : slash ∉ appdirLeaf path := (appdirLeaf_cases path).1
  have hdir : deriveLoopdir lp.loopAppdir = some lp.loopdir := by
    rw [happ]
    exact deriveLoopdir_entry (deriveLoopdir_suffix hderive) (loopFill_length h) hfree
  have hleaf : appdirLeaf lp.loopAppdir = appdirLeaf path := appdirLeaf_split ⟨happ, hfree⟩
  unfold loopFill at h ⊢
  rw [hdir, hleaf]
  rwa [hderive] at h

/-- Bytes behind a path, with no slash among them, go into its last component. -/
theorem comps_append_piece (base : CStr) : ∃ parent last, slash ∉ last ∧
    ∀ t, t ≠ [] → slash ∉ t → comps (base ++ t) = parent ++ [last ++ t] := by
  by_cases hmem : slash ∈ base
  · obtain ⟨d, a, hsplit⟩ := exists_split_of_mem hmem
    refine ⟨comps d, a, hsplit.piece, fun t hne ht => ?_⟩
    have happ : Split (base ++ t) d (a ++ t) := by
      refine ⟨by rw [hsplit.eq, List.append_assoc, List.cons_append], ?_⟩
      exact fun hs => (List.mem_append.mp hs).elim hsplit.piece ht
    rw [happ.comps_eq, if_neg (List.append_ne_nil_of_right_ne_nil a hne)]
  · refine ⟨[], base, hmem, fun t hne ht => ?_⟩
    have happ : slash ∉ base ++ t := fun hs => (List.mem_append.mp hs).elim hmem ht
    rw [comps_piece happ, if_neg (List.append_ne_nil_of_right_ne_nil base hne), List.nil_append]

/-- The image lies beside the loop directory. -/
theorem loopFill_beside (h : loopFill path = some lp) : Beside lp.loopImg lp.loopdir := by
  obtain ⟨hderive, himg, -⟩ := loopFill_eq h
  obtain ⟨base, hbase⟩ := deriveLoopdir_suffix hderive
  obtain ⟨parent, last, hlast, hcomps⟩ := comps_append_piece base
  have hvalid (t : CStr) (hlong : 2 < t.length) (ht : slash ∉ t) : ValidName (last ++ t) := by
    have hlen : 2 < (last ++ t).length := by
      rw [List.length_append]
      omega
    refine ⟨?_, fun hs => (List.mem_append.mp hs).elim hlast ht, ?_, ?_⟩ <;>
    · intro heq
      rw [heq] at hlen
      exact absurd hlen (by decide)
  have hne : lp.loopdir ≠ [] := by
    rw [← hbase]
    exact List.append_ne_nil_of_right_ne_nil base (by decide)
  refine ⟨himg ▸ Absolute.append hne _, parent, last ++ (loopSuffix ++ lit ".img"),
    last ++ loopSuffix, hvalid _ (by decide) (by decide), hvalid _ (by decide) (by decide), ?_, ?_, ?_⟩
  · exact fun heq => absurd (List.append_cancel_left heq) (by decide)
  · rw [himg, ← hbase, List.append_assoc]
    exact hcomps _ (by decide) (by decide)
  · rw [← hbase]
    exact hcomps _ (by decide) (by decide)

/-- It is the leaf that decides whether the relocated appdir is an entry of the
loop directory. -/
theorem loopFill_under (h : loopFill path = some lp) :
    EntryOf lp.loopdir lp.loopAppdir ↔ ValidName (appdirLeaf path) := by
  obtain ⟨hderive, -, happ⟩ := loopFill_eq h
  have hsplit : Split lp.loopAppdir lp.loopdir (appdirLeaf path) :=
    ⟨happ, (appdirLeaf_cases path).1⟩
  have hne : lp.loopdir ≠ [] := fun hnil =>
    absurd (hnil ▸ deriveLoopdir_suffix hderive).length_le (by decide)
  constructor
  · rintro ⟨-, name, hname, hcomps⟩
    rw [hsplit.comps_eq] at hcomps
    have hlast := List.append_cancel_left hcomps
    split at hlast
    · cases hlast
    · exact List.singleton_inj.mp hlast ▸ hname
  · intro hname
    refine ⟨happ ▸ Absolute.append hne _, _, hname, ?_⟩
    rw [hsplit.comps_eq, if_neg hname.1]

theorem endsInName_iff : EndsInName path ↔ ValidName (appdirLeaf path) := by
  constructor
  · intro h
    rcases (appdirLeaf_cases path).2 with hdefault | ⟨base, heq⟩
    · rw [hdefault]
      decide
    · exact h base _ ⟨heq, (appdirLeaf_cases path).1⟩
  · intro h base leaf hsplit
    rwa [appdirLeaf_split hsplit] at h

/-- The loop file system of an appdir is located once and for all if and only if
the appdir ends in a name. -/
theorem located_iff (h : loopFill path = some lp) : Located lp ↔ EndsInName path := by
  rw [endsInName_iff, ← loopFill_under h]
  constructor
  · intro hlocated
    exact hlocated.under
  · intro hunder
    exact ⟨loopFill_again h, hunder, loopFill_beside h⟩

theorem located_iff_default :
    Located ⟨lit "/var/lib/cage-loop", lit "/var/lib/cage-loop.img", lit "/var/lib/cage-loop/default"⟩ ↔
      EndsInName (lit "/var/lib/cage/default") :=
  located_iff (by decide)

/-- With a slash behind it, the appdir is moved to the loop directory itself. -/
theorem loopFill_slash :
    loopFill (lit "/d/a/") =
        some ⟨lit "/d/a-loop", lit "/d/a-loop.img", lit "/d/a-loop/"⟩ ∧
      ¬ EntryOf (lit "/d/a-loop") (lit "/d/a-loop/") := by
  refine ⟨by decide, ?_⟩
  rintro ⟨-, name, -, hcomps⟩
  have hlen := congrArg List.length hcomps
  rw [List.length_append, List.length_singleton] at hlen
  revert hlen
  decide

end Cage.Sandbox
