import Cage.Sandbox.Ext4Fix

/-!
`src/sandbox/appdir.c`, and `early_setup_appdir` of `src/sandbox/mount.c`: the
directories of the overlay from the options, and their move to a loop file
system where they would be in conflict with the lower directory.
-/

namespace Cage.Sandbox

open Lib.Program Util

/-- `APPDIR_BASE`. -/
def appdirBase : CStr := lit "/var/lib/cage"

def join (size : Nat) (base leaf : CStr) : Option CStr :=
  let need := base.length + 1 + leaf.length + 1
  if need > size then none else some (base ++ slash :: leaf)

def setAppdir (cfg : Cfg) : Option CStr :=
  let (pfx, sfx) : CStr × CStr :=
    match cfg.appdir with
    | some appdir => ([], appdir)
    | none =>
        match cfg.name with
        | some name => (appdirBase ++ lit "/app-", name)
        | none => (appdirBase ++ lit "/default", [])
  if (pfx ++ sfx).length ≥ bufSize then none else some (pfx ++ sfx)

def setDir (size : Nat) (src : Option CStr) (appdir : CStr) (suffix : Option CStr) :
    Option CStr :=
  match src with
  | some src => if src.length ≥ size then none else some src
  | none =>
      match suffix with
      | some suffix => join size appdir suffix
      | none => some (lit "/")

def resolveAppdir (cfg : Cfg) : Option Dirs := do
  let appdir ← setAppdir cfg
  let upperdir ← setDir bufSize cfg.upperdir appdir (some (lit "upper"))
  let workdir ← setDir bufSize cfg.workdir appdir (some (lit "work"))
  let lowerdir ← setDir bufSize cfg.lowerdir appdir none
  some { appdir := appdir, upperdir := upperdir, workdir := workdir, lowerdir := lowerdir,
         dirsCreated := false }

/-- The loop of `strip_trailing_slash`, which leaves the first `len` bytes. -/
def strippedLength (p : CStr) : Nat → Nat
  | 0 => 0
  | 1 => 1
  | n + 2 => if p[n + 1]? = some slash then strippedLength p (n + 1) else n + 2

def stripTrailingSlash (p : CStr) : CStr := p.take (strippedLength p p.length)

/-- The directories without slashes at their end; the appdir keeps its own. -/
def Dirs.tidy (dirs : Dirs) : Dirs :=
  { dirs with
    lowerdir := stripTrailingSlash dirs.lowerdir
    upperdir := stripTrailingSlash dirs.upperdir
    workdir := stripTrailingSlash dirs.workdir }

/-- `early_setup_appdir`: the directories if it returns 0. -/
def earlySetupAppdir (pid : Nat) (cfg : Cfg) : Steps (Option Dirs) :=
  match resolveAppdir cfg with
  | none => pure none
  | some dirs => handleSameFs pid cfg dirs.tidy

theorem strippedLength_le (p : CStr) (n : Nat) : strippedLength p n ≤ n := by
  fun_induction strippedLength p n with
  | case1 => exact Nat.le_refl 0
  | case2 => exact Nat.le_refl 1
  | case3 n h ih => exact Nat.le_succ_of_le ih
  | case4 n h => exact Nat.le_refl _

/-- Where the loop ends, there is no slash, or nothing more to take. -/
theorem strippedLength_ends (p : CStr) (n : Nat) :
    strippedLength p n ≤ 1 ∨ p[strippedLength p n - 1]? ≠ some slash := by
  fun_induction strippedLength p n with
  | case1 => exact .inl (Nat.zero_le 1)
  | case2 => exact .inl (Nat.le_refl 1)
  | case3 n h ih => exact ih
  | case4 n h => exact .inr h

theorem strippedLength_append (p t : CStr) {n : Nat} (h : n ≤ p.length) :
    strippedLength (p ++ t) n = strippedLength p n := by
  induction n using strippedLength.induct p with
  | case1 => rfl
  | case2 => rfl
  | case3 n hs ih =>
    have hget : (p ++ t)[n + 1]? = some slash := by rw [List.getElem?_append_left h, hs]
    rw [strippedLength, if_pos hget, ih (Nat.le_of_succ_le h), strippedLength, if_pos hs]
  | case4 n hs =>
    have hget : (p ++ t)[n + 1]? ≠ some slash := by rwa [List.getElem?_append_left h]
    rw [strippedLength, if_neg hget, strippedLength, if_neg hs]

theorem stripTrailingSlash_length_le (p : CStr) : (stripTrailingSlash p).length ≤ p.length := by
  unfold stripTrailingSlash
  rw [List.length_take]
  exact Nat.min_le_right ..

theorem stripTrailingSlash_snoc {p : CStr} (hp : p ≠ []) :
    stripTrailingSlash (p ++ [slash]) = stripTrailingSlash p := by
  have hlen : (p ++ [slash]).length = p.length - 1 + 2 := by
    have hpos := List.length_pos_of_ne_nil hp
    rw [List.length_append, List.length_singleton]
    omega
  have hat : p.length - 1 + 1 = p.length := Nat.sub_add_cancel (List.length_pos_of_ne_nil hp)
  have hget : (p ++ [slash])[p.length - 1 + 1]? = some slash := by rw [hat, List.getElem?_concat_length]
  unfold stripTrailingSlash
  rw [hlen, strippedLength, if_pos hget, hat, strippedLength_append p _ (Nat.le_refl _),
    List.take_append_of_le_length (strippedLength_le p _)]

/-- All the slashes behind a path go. -/
theorem stripTrailingSlash_slashes {p : CStr} (hp : p ≠ []) (n : Nat) :
    stripTrailingSlash (p ++ List.replicate n slash) = stripTrailingSlash p := by
  induction n with
  | zero => rw [List.replicate_zero, List.append_nil]
  | succ n ih =>
    rw [List.replicate_succ', ← List.append_assoc, stripTrailingSlash_snoc, ih]
    exact List.append_ne_nil_of_left_ne_nil hp _

/-- A path that ends in no slash stays as it is. -/
theorem stripTrailingSlash_of_last {p : CStr} (h : p.getLast? ≠ some slash) :
    stripTrailingSlash p = p := by
  have hlen : strippedLength p p.length = p.length := by
    rw [List.getLast?_eq_getElem?] at h
    match hn : p.length with
    | 0 => rfl
    | 1 => rfl
    | n + 2 =>
      rw [hn] at h
      exact if_neg h
  unfold stripTrailingSlash
  rw [hlen, List.take_length]

/-- Only the root is left with a slash at its end. -/
theorem stripTrailingSlash_last {p : CStr} (h : (stripTrailingSlash p).getLast? = some slash) :
    stripTrailingSlash p = [slash] := by
  have hle := strippedLength_le p p.length
  have hlen : (stripTrailingSlash p).length = strippedLength p p.length := by
    unfold stripTrailingSlash
    rw [List.length_take, Nat.min_eq_left hle]
  have hone : (stripTrailingSlash p).length ≤ 1 := by
    rw [hlen]
    refine (strippedLength_ends p p.length).resolve_right fun hends => hends ?_
    rw [List.getLast?_eq_getElem?, hlen] at h
    rw [← h]
    unfold stripTrailingSlash
    have hpos : 0 < strippedLength p p.length := by
      rw [← hlen]
      refine List.length_pos_of_ne_nil fun hnil => ?_
      rw [hnil] at h
      cases h
    rw [List.getElem?_take_of_lt (Nat.sub_lt hpos Nat.one_pos)]
  match hq : stripTrailingSlash p with
  | [] =>
    rw [hq] at h
    cases h
  | [c] =>
    rw [hq] at h
    cases h
    rfl
  | c :: d :: q =>
    rw [hq] at hone
    simp at hone

end Cage.Sandbox
