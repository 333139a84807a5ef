import Mathlib.Data.List.Induction
import Cage.Util.DiskCalls
import Cage.Util.Decimal
import Cage.Util.MemPath

/-!
The components of the paths that the helpers build and cut.
-/

namespace Cage.Util

open Lib.Descent

theorem compsFrom_append_slash (cur a s : CStr) :
    compsFrom cur (a ++ slash :: s) = compsFrom cur a ++ comps s := by
  induction a generalizing cur with
  | nil =>
    have hcur : compsFrom cur [] = if cur = [] then [] else [cur] := rfl
    rw [List.nil_append, compsFrom_slash, hcur]
    split
    · rw [List.nil_append]
      rfl
    · rw [List.singleton_append]
      rfl
  | cons c a ih =>
    rw [List.cons_append, compsFrom, compsFrom]
    split
    · split
      · exact ih []
      · rw [ih [], List.cons_append]
    · exact ih (cur ++ [c])

theorem comps_append_slash (a s : CStr) : comps (a ++ slash :: s) = comps a ++ comps s :=
  compsFrom_append_slash [] a s

theorem comps_trimmed (base : CStr) :
    comps (base.reverse.dropWhile (· = slash)).reverse = comps base := by
  induction base using List.reverseRecOn with
  | nil => rfl
  | append_singleton base c ih =>
    rw [List.reverse_append, List.reverse_singleton, List.singleton_append]
    by_cases hc : c = slash
    · subst hc
      have hnone : comps (base ++ [slash]) = comps base := by
        rw [comps_append_slash]
        exact List.append_nil _
      rw [List.dropWhile_cons_of_pos (by simp), ih, hnone]
    · rw [List.dropWhile_cons_of_neg (by simpa using hc), List.reverse_cons, List.reverse_reverse]

theorem comps_memPath (base append : CStr) :
    comps (memPath base append) = comps base ++ comps append := by
  unfold memPath
  rw [comps_append_slash, comps_trimmed, comps_dropWhile]

theorem beforeLastSlash_split {path : CStr} {len : Nat} (h : beforeLastSlash path = some len) :
    ∃ rest, path = path.take len ++ slash :: rest := by
  unfold beforeLastSlash at h
  split at h
  · rename_i hmem
    have hrev : slash ∈ path.reverse := List.mem_reverse.mpr hmem
    have hlt : path.reverse.idxOf slash < path.length := by
      rw [← List.length_reverse]
      exact List.idxOf_lt_length_of_mem hrev
    have hlen : len = path.length - 1 - path.reverse.idxOf slash := (Option.some.inj h).symm
    have hget : path[len]? = some slash := by
      have hat := List.getElem?_idxOf hrev
      rw [List.getElem?_reverse hlt] at hat
      rw [hlen]
      exact hat
    refine ⟨path.drop (len + 1), ?_⟩
    have hlt' : len < path.length := by omega
    have hval : path[len] = slash := by
      rw [List.getElem?_eq_getElem hlt'] at hget
      exact Option.some.inj hget
    rw [← hval, ← List.drop_eq_getElem_cons hlt', List.take_append_drop]
  · cases h

theorem comps_beforeLastSlash {path : CStr} {len : Nat} (h : beforeLastSlash path = some len) :
    comps (path.take len) <+: comps path := by
  obtain ⟨rest, hrest⟩ := beforeLastSlash_split h
  have hcomps := congrArg comps hrest
  rw [comps_append_slash] at hcomps
  exact ⟨comps rest, hcomps.symm⟩

theorem escapesFrom_eq (cur s : CStr) : escapesFrom cur s = decide ([dot, dot] ∈ compsFrom cur s) := by
  induction s generalizing cur with
  | nil =>
    unfold escapesFrom compsFrom
    by_cases hcur : cur = []
    · subst hcur
      decide
    · rw [if_neg hcur]
      simp [beq_eq_decide, eq_comm]
  | cons c s ih =>
    unfold escapesFrom compsFrom
    split
    · rw [ih []]
      by_cases hcur : cur = []
      · subst hcur
        simp
      · rw [if_neg hcur]
        simp [beq_eq_decide, eq_comm]
    · exact ih (cur ++ [c])

/-- `mem_path_escapes` looks for a component that goes up. -/
theorem memPathEscapes_eq (s : CStr) : memPathEscapes s = decide ([dot, dot] ∈ comps s) :=
  escapesFrom_eq [] s

theorem memPathEscapes_false {s : CStr} (h : memPathEscapes s = false) : [dot, dot] ∉ comps s := by
  rw [memPathEscapes_eq] at h
  exact of_decide_eq_false h

theorem compsFrom_splitOn (cur s : CStr) :
    compsFrom cur s = ((s.splitOn slash).modifyHead (cur ++ ·)).filter (· ≠ []) := by
  induction s generalizing cur with
  | nil =>
    rw [List.splitOn_nil, List.modifyHead_cons, List.append_nil, compsFrom]
    by_cases hcur : cur = []
    · rw [if_pos hcur, List.filter_cons_of_neg (by simpa using hcur), List.filter_nil]
    · rw [if_neg hcur, List.filter_cons_of_pos (by simpa using hcur), List.filter_nil]
  | cons c s ih =>
    rw [List.splitOn_cons_eq_if_modifyHead, compsFrom]
    have hrest : compsFrom [] s = (s.splitOn slash).filter (· ≠ []) := by
      rw [ih []]
      cases s.splitOn slash <;> rfl
    by_cases hc : c = slash
    · rw [if_pos hc, if_pos (beq_iff_eq.mpr hc), List.modifyHead_cons, List.append_nil, hrest]
      by_cases hcur : cur = []
      · rw [if_pos hcur, List.filter_cons_of_neg (by simpa using hcur)]
      · rw [if_neg hcur, List.filter_cons_of_pos (by simpa using hcur)]
    · rw [if_neg hc, if_neg (by simpa using hc), ih, List.modifyHead_modifyHead]
      cases s.splitOn slash with
      | nil => rfl
      | cons piece pieces =>
        rw [List.modifyHead_cons, List.modifyHead_cons, Function.comp_apply, List.append_assoc,
          List.singleton_append]

/-- The components are the pieces between the slashes that are not empty. -/
theorem comps_eq_splitOn (s : CStr) : comps s = (s.splitOn slash).filter (· ≠ []) := by
  unfold comps
  rw [compsFrom_splitOn]
  cases s.splitOn slash <;> rfl

theorem memPathEscapes_iff (s : CStr) :
    memPathEscapes s = true ↔ [dot, dot] ∈ s.splitOn slash := by
  rw [memPathEscapes_eq, decide_eq_true_iff, comps_eq_splitOn, List.mem_filter]
  exact and_iff_left (by decide)

/-- An absolute path without its empty and "." components, with every ".." taken
back. -/
def normalise (path : CStr) : CStr := render (resolve dots [] (comps path))

/-- The pieces between the slashes that are neither empty nor ".". -/
def namedPieces (s : CStr) : Loc := (s.splitOn slash).filter fun c => c ≠ [] ∧ c ≠ [dot]

/-- Joined to a canonical path, a path that does not go up makes it longer. -/
theorem resolve_memPath (base : Path) {s : CStr} (h : memPathEscapes s = false) :
    resolve dots [] (comps (memPath base.str s)) = base.loc ++ namedPieces s := by
  have hbase : ∀ c ∈ base.loc, c ≠ dots.here ∧ c ≠ dots.up := fun c hc =>
    (base.valid c hc).2.2
  have hpieces : (comps s).filter (· ≠ dots.here) = namedPieces s := by
    rw [comps_eq_splitOn, List.filter_filter]
    unfold namedPieces
    congr 1
    funext c
    rw [← Bool.decide_and]
    exact decide_eq_decide.mpr and_comm
  rw [comps_memPath, comps_str, resolve_root hbase, resolve_of_no_up (memPathEscapes_false h),
    hpieces]

theorem mem_compsFrom {cur s c : CStr} {x : UInt8} (hc : c ∈ compsFrom cur s) (hx : x ∈ c) :
    x ∈ cur ∨ x ∈ s := by
  induction s generalizing cur with
  | nil =>
    unfold compsFrom at hc
    split at hc
    · exact absurd hc List.not_mem_nil
    · exact Or.inl (List.mem_singleton.mp hc ▸ hx)
  | cons y s ih =>
    have hback (h : x ∈ ([] : CStr) ∨ x ∈ s) : x ∈ cur ∨ x ∈ y :: s :=
      Or.inr (List.mem_cons_of_mem y (h.resolve_left List.not_mem_nil))
    unfold compsFrom at hc
    split at hc
    · split at hc
      · exact hback (ih hc)
      · rcases List.mem_cons.mp hc with rfl | hc
        · exact Or.inl hx
        · exact hback (ih hc)
    · rcases ih hc with hmem | hmem
      · rcases List.mem_append.mp hmem with hmem | hmem
        · exact Or.inl hmem
        · exact Or.inr (List.mem_singleton.mp hmem ▸ List.mem_cons_self)
      · exact Or.inr (List.mem_cons_of_mem y hmem)

theorem digit_ne_dot {c : Char} (h : c.isDigit) : c.toUInt8 ≠ dot := by
  intro hdot
  have hnat : c.toUInt8.toNat = 46 := congrArg UInt8.toNat hdot
  obtain ⟨hbyte, hlow, -⟩ := isDigit_range h
  omega

theorem noDot_nat (n : Nat) : dot ∉ lit (toString n) := by
  intro hmem
  obtain ⟨c, hc, hdot⟩ := List.mem_map.mp hmem
  rw [Nat.toString_eq_repr, Nat.toList_repr] at hc
  exact digit_ne_dot (isDigit_of_mem_toDigits hc) hdot

theorem noDot_unsignedStr (n : UInt32) : dot ∉ unsignedStr n := noDot_nat n.toNat

end Cage.Util
