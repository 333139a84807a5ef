import Cage.Sandbox.AppdirFs
import Cage.Util.Slashes

/-!
Slashes at the end of the appdir.
-/

namespace Cage.Sandbox

open Lib.Program Util

/-- The path with `n` more slashes at its end. -/
def withSlashes (path : CStr) (n : Nat) : CStr := path ++ List.replicate n slash

theorem length_withSlashes (path : CStr) (n : Nat) :
    (withSlashes path n).length = path.length + n := by
  rw [withSlashes, List.length_append, List.length_replicate]

theorem withSlashes_succ (path : CStr) (n : Nat) :
    withSlashes path (n + 1) = withSlashes path n ++ [slash] := by
  rw [withSlashes, withSlashes, List.replicate_succ', List.append_assoc]

theorem withSlashes_zero (path : CStr) : withSlashes path 0 = path := List.append_nil path

theorem withSlashes_ne_nil {path : CStr} (h : path ≠ []) (n : Nat) : withSlashes path n ≠ [] :=
  List.append_ne_nil_of_left_ne_nil h _

section Within

/-- The bytes of `dir`, which ends in no slash, stand in front of the slashes. -/
theorem prefixEnds_slashes {path dir : CStr} (hlast : dir.getLast? ≠ some slash)
    (hdir : dir ≠ []) (n : Nat) :
    prefixEnds (withSlashes path n) dir dir.length = prefixEnds path dir dir.length := by
  unfold prefixEnds withSlashes
  rcases Nat.lt_trichotomy dir.length path.length with hlt | heq | hgt
  · have hne : (path ++ List.replicate n slash).length ≠ dir.length := by
      rw [List.length_append]
      omega
    rw [List.take_append_of_le_length hlt.le, List.getElem?_append_left hlt]
    simp only [hne, hlt.ne', decide_false]
  · rw [List.take_append_of_le_length heq.le]
    cases n with
    | zero => rw [List.replicate_zero, List.append_nil]
    | succ n =>
      have hnext : (path ++ List.replicate (n + 1) slash)[dir.length]? = some slash := by
        rw [heq, List.getElem?_append_right (Nat.le_refl _), Nat.sub_self]
        rfl
      rw [heq] at hnext ⊢
      simp only [hnext, decide_true, Bool.true_or, Bool.or_true]
  · have hshort : path.take dir.length ≠ dir.take dir.length := fun h => by
      have hlen := congrArg List.length h
      rw [List.length_take, List.length_take] at hlen
      omega
    have hlong : (path ++ List.replicate n slash).take dir.length ≠ dir.take dir.length := fun h => by
      -- the last byte of `dir` would be one of the slashes
      rw [List.take_length] at h
      refine hlast ?_
      have hpos := List.length_pos_of_ne_nil hdir
      have hle : dir.length ≤ (path ++ List.replicate n slash).length := by
        have hlen := congrArg List.length h
        rw [List.length_take] at hlen
        omega
      rw [List.length_append, List.length_replicate] at hle
      rw [List.getLast?_eq_getElem?, ← h, List.length_take, Nat.min_eq_left
        (by rw [List.length_append, List.length_replicate]; exact hle),
        List.getElem?_take_of_lt (by omega), List.getElem?_append_right (by omega),
        List.getElem?_replicate, if_pos (by omega)]
    simp only [hshort, hlong, decide_false, Bool.false_and]

theorem isWithin_of_last {dir : CStr} (hlast : dir.getLast? ≠ some slash) (hdir : dir ≠ [])
    (path : CStr) : isWithin path dir = prefixEnds path dir dir.length := by
  have hlen : dir.length ≠ 0 := (List.length_pos_of_ne_nil hdir).ne'
  have hcut : (if dir.length > 0 ∧ dir.getLast? = some slash then dir.length - 1
      else dir.length) = dir.length := if_neg fun h => hlast h.2
  unfold isWithin
  simp only [hcut, hlen, if_false]

theorem isWithin_slashes {path : CStr} (hpath : path ≠ []) (dir : CStr) (n : Nat) :
    isWithin (withSlashes path n) (stripTrailingSlash dir) =
      isWithin path (stripTrailingSlash dir) := by
  have hhead : (withSlashes path n).head? = path.head? := by
    rw [withSlashes, List.head?_append_of_ne_nil _ hpath]
  by_cases hlast : (stripTrailingSlash dir).getLast? = some slash
  · rw [stripTrailingSlash_last hlast]
    exact congrArg (fun c => decide (c = some slash)) hhead
  · by_cases hempty : stripTrailingSlash dir = []
    · rw [hempty]
      exact congrArg (fun c => decide (c = some slash)) hhead
    · rw [isWithin_of_last hlast hempty, isWithin_of_last hlast hempty]
      exact prefixEnds_slashes hlast hempty n

end Within

section Detection

variable {S : Type} {fs : FileSystem S} {s : S} {path : CStr}

theorem access_slashes (hpath : path ≠ []) (hdir : ∀ f, fs.resolve s path = .ok f → f.kind = .dir)
    (n : Nat) : fs.resolve s (withSlashes path n) = fs.resolve s path := by
  cases n with
  | zero => rw [withSlashes_zero]
  | succ n => rw [withSlashes, resolve_slashes hpath, asDir_of_dir hdir]

theorem beforeLastSlash_withSlashes (n : Nat) :
    beforeLastSlash (withSlashes path (n + 1)) = some (withSlashes path n).length := by
  rw [withSlashes_succ]
  exact beforeLastSlash_str _ (List.not_mem_nil)

/-- Past the slashes at the end, `resolve_existing_parent` goes on as without. -/
theorem closestExisting_slashes (hpath : path ≠ [])
    (hdir : ∀ f, fs.resolve s path = .ok f → f.kind = .dir) (m n : Nat) :
    closestExisting fs s (m + 1 + n) (withSlashes path n) =
      if accessResult (fs.access s path) = 0 then some (withSlashes path n)
      else closestExisting fs s (m + 1) path := by
  have hsame (n : Nat) : fs.access s (withSlashes path n) = fs.access s path := by
    unfold FileSystem.access
    rw [access_slashes hpath hdir]
  induction n with
  | zero =>
    rw [withSlashes_zero, Nat.add_zero]
    split
    · rename_i hzero
      rw [closestExisting, if_neg (by omega), if_pos hzero]
    · rfl
  | succ n ih =>
    rw [← Nat.add_assoc, closestExisting, hsame]
    split
    · rename_i hneg
      rw [if_neg (by omega), closestExisting, if_pos hneg]
    · split
      · rfl
      · rename_i hzero
        have htake : (withSlashes path (n + 1)).take (withSlashes path n).length =
            withSlashes path n := by rw [withSlashes_succ, List.take_left]
        obtain ⟨l, hl⟩ : ∃ l, (withSlashes path n).length = l + 1 :=
          ⟨_, (Nat.sub_add_cancel (List.length_pos_of_ne_nil (withSlashes_ne_nil hpath n))).symm⟩
        rw [beforeLastSlash_withSlashes, hl]
        change closestExisting fs s (m + 1 + n) ((withSlashes path (n + 1)).take (l + 1)) = _
        rw [← hl, htake, ih, if_neg hzero]

theorem cutLast_upper (appdir : CStr) : cutLast (appdir ++ slash :: lit "upper") = appdir := by
  unfold cutLast
  rw [beforeLastSlash_str appdir (by decide)]
  exact List.take_left

/-- The slashes make no difference to `same_fs_detect`. -/
theorem detect_slashes (hpath : path ≠ [])
    (hdir : ∀ f, fs.resolve s path = .ok f → f.kind = .dir) (lower : CStr) (n : Nat) :
    detect fs s (stripTrailingSlash lower) (withSlashes path n ++ slash :: lit "upper") =
      detect fs s (stripTrailingSlash lower) (path ++ slash :: lit "upper") := by
  have hlen : (withSlashes path n).length + 1 = path.length + 1 + n := by
    rw [length_withSlashes, Nat.add_right_comm]
  unfold detect
  rw [cutLast_upper, cutLast_upper, hlen, closestExisting_slashes hpath hdir]
  by_cases hzero : accessResult (fs.access s path) = 0
  · rw [if_pos hzero, closestExisting, if_neg (by omega), if_pos hzero]
    dsimp only
    unfold conflict sameDev onOverlay
    rw [isWithin_slashes hpath, access_slashes hpath hdir]
  · rw [if_neg hzero]

/-- A file is not found with slashes at its end. -/
theorem detect_file (hpath : path ≠ []) {f : Found} (hf : fs.resolve s path = .ok f)
    (hkind : f.kind ≠ .dir) (lower : CStr) (n : Nat) :
    detect fs s lower (withSlashes path (n + 1) ++ slash :: lit "upper") = (-1, 0) := by
  have haccess : fs.access s (withSlashes path (n + 1)) = some .other := by
    unfold FileSystem.access
    rw [withSlashes, resolve_slashes hpath, hf, asDir_of_other hkind]
  unfold detect
  rw [cutLast_upper, closestExisting, haccess]
  rfl

end Detection

end Cage.Sandbox
