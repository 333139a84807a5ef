import Cage.Util.Rmtree

/-!
Every run of `io_rmtree`: what it removes is what the path names or what is below, and
what it returns where the path names nothing.
-/

namespace Cage.Util.Volume

/-- A removal from `t` that has touched only what is at or below the place that the path
names. -/
structure Confined (k : Kernel) (t : Tree) (path : CStr) (t' : Tree) : Prop where
  sub : Sub t' t
  below : ∀ m, t'.lookup m ≠ t.lookup m → ∃ e, find k t false path = .ok e ∧ e <+: m

/-- A missing file is as good as one that has been removed. -/
def tolerant : Option Errno → Int
  | none => 0
  | some .enoent => 0
  | some _ => -1

/-- The names that `readdir` gives, besides the two that `rmtree_dir` skips. -/
def listed (k : Kernel) (t : Tree) (l : Loc) : List CStr :=
  (children t l).filter fun c => !k.hides (l ++ [c])

/-- A slash stands behind a link. -/
def Hanging (k : Kernel) (t : Tree) (path : CStr) : Prop :=
  slashed path = true ∧ ∃ l name target, lastOf k t path = .ok (l, name) ∧
    bodyAt t (l ++ [name]) = some (.link target)

section

variable {k : Kernel} {t t' : Tree} {path c name : CStr} {e l : Loc} {names : List CStr}
  {rmtree : CStr → Io Tree Int}

theorem Confined.refl : Confined k t path t := ⟨Sub.refl t, fun _ hm => absurd rfl hm⟩

theorem Confined.trans {t'' : Tree} (h : Confined k t path t') (h' : Confined k t' path t'') :
    Confined k t path t'' := by
  refine ⟨h'.sub.trans h.sub, fun m hm => ?_⟩
  by_cases hsame : t''.lookup m = t'.lookup m
  · rw [hsame] at hm
    exact h.below m hm
  · obtain ⟨e, he, hpre⟩ := h'.below m hsame
    exact ⟨e, find_mono h.sub he, hpre⟩

theorem sub_erase (t : Tree) (l : Loc) : Sub (t.erase l) t := by
  intro m i hm
  by_cases h : m = l
  · rw [h, AList.lookup_erase] at hm
    cases hm
  · rwa [AList.lookup_erase_ne h] at hm

/-- The removal of what the path names. -/
theorem confined_erase (h : find k t false path = .ok l) : Confined k t path (t.erase l) := by
  refine ⟨sub_erase t l, fun m hm => ⟨l, h, ?_⟩⟩
  by_cases heq : m = l
  · rw [heq]
  · exact absurd (AList.lookup_erase_ne heq) hm

theorem unlinkAt_confined : Confined k t path (unlinkAt k path t).2 := by
  unfold unlinkAt
  cases hlast : lastOf k t path with
  | error err => exact Confined.refl
  | ok p =>
    obtain ⟨l, name⟩ := p
    dsimp only
    cases hspecial : special name with
    | true => exact Confined.refl
    | false =>
      rw [if_neg (by simp)]
      cases hbody : bodyAt t (l ++ [name]) with
      | none => exact Confined.refl
      | some b =>
        cases hkeep : slashed path || k.keeps (l ++ [name]) with
        | true =>
          cases b <;> exact Confined.refl
        | false =>
          have hslash := (Bool.or_eq_false_iff.mp hkeep).1
          have hfind := find_of_entry hlast hspecial hbody (Or.inr hslash) fun _ _ => rfl
          cases b with
          | dir => exact Confined.refl
          | file | link target => exact confined_erase hfind

theorem rmdirAt_confined : Confined k t path (rmdirAt k path t).2 := by
  unfold rmdirAt
  cases hlast : lastOf k t path with
  | error err => exact Confined.refl
  | ok p =>
    obtain ⟨l, name⟩ := p
    dsimp only
    cases hspecial : special name with
    | true => exact Confined.refl
    | false =>
      rw [if_neg (by simp)]
      cases hbody : bodyAt t (l ++ [name]) with
      | none => exact Confined.refl
      | some b =>
        cases b with
        | file | link target => exact Confined.refl
        | dir =>
          dsimp only
          split
          · exact Confined.refl
          · exact confined_erase (find_of_entry hlast hspecial hbody (Or.inl rfl) fun _ _ => rfl)

theorem unlinkCached_run {S : Type} (y : Sys S) (path : CStr) (w : IoState S) :
    (unlinkCached y path w).1 = tolerant (y.unlink path w.sys).1 ∧
      (unlinkCached y path w).2.sys = (y.unlink path w.sys).2 := by
  have hrun : unlinkCached y path w =
      (do
        let r ← (if (y.unlink path w.sys).1 ≠ none ∧ (y.unlink path w.sys).1 ≠ some .enoent then
          pure (-1) else pure 0)
        if r = 0 then do
          ioCacheInvalidate path
          pure r
        else
          pure r : Io S Int) { w with sys := (y.unlink path w.sys).2 } := rfl
  rw [hrun]
  obtain ⟨r, s⟩ := y.unlink path w.sys
  cases r with
  | none => exact ⟨rfl, rfl⟩
  | some err => cases err <;> exact ⟨rfl, rfl⟩

/-- The end of `io_rmtree` for a directory, with what `rmtree_dir` has returned. -/
def rmtreeLast {S : Type} (y : Sys S) (path : CStr) (rc : Int) : Io S Int :=
  if rc ≠ 0 then pure (-1)
  else do
    let r ← Io.sys (y.rmdir path)
    if r ≠ none ∧ r ≠ some .enoent then pure (-1)
    else do
      ioCacheInvalidate path
      pure 0

theorem rmtreeLast_failed {S : Type} (y : Sys S) (path : CStr) {rc : Int} (hrc : rc ≠ 0)
    (w : IoState S) : rmtreeLast y path rc w = (-1, w) := by
  unfold rmtreeLast
  rw [if_pos hrc]
  rfl

theorem rmtreeLast_run {S : Type} (y : Sys S) (path : CStr) (w : IoState S) :
    (rmtreeLast y path 0 w).1 = tolerant (y.rmdir path w.sys).1 ∧
      (rmtreeLast y path 0 w).2.sys = (y.rmdir path w.sys).2 := by
  have hrun : rmtreeLast y path 0 w =
      (if (y.rmdir path w.sys).1 ≠ none ∧ (y.rmdir path w.sys).1 ≠ some .enoent then pure (-1)
        else do
          ioCacheInvalidate path
          pure 0 : Io S Int) { w with sys := (y.rmdir path w.sys).2 } := rfl
  rw [hrun]
  obtain ⟨r, s⟩ := y.rmdir path w.sys
  cases r with
  | none => exact ⟨rfl, rfl⟩
  | some err => cases err <;> exact ⟨rfl, rfl⟩

/-- `io_rmtree` where no link stands at the path. -/
def rmtreeOpened {S : Type} (y : Sys S) (rmtree : CStr → Io S Int) (path : CStr) : Io S Int := do
  let d ← Io.sys (y.readdir path)
  match d with
  | none => unlinkCached y path
  | some names => do
      let rc ← rmtreeDir rmtree path 0 names
      rmtreeLast y path rc

theorem rmtreeOpened_run (w : IoState Tree) :
    rmtreeOpened (volume k) rmtree path w =
      match openDir k w.sys path with
      | none => unlinkCached (volume k) path w
      | some names =>
          rmtreeLast (volume k) path (rmtreeDir rmtree path 0 names w).1
            (rmtreeDir rmtree path 0 names w).2 := by
  have hrun : rmtreeOpened (volume k) rmtree path w =
      (match openDir k w.sys path with
        | none => unlinkCached (volume k) path
        | some names => do
            let rc ← rmtreeDir rmtree path 0 names
            rmtreeLast (volume k) path rc : Io Tree Int) w := rfl
  rw [hrun]
  cases openDir k w.sys path <;> rfl

theorem rmtreeStep_split (w : IoState Tree) :
    rmtreeStep (volume k) rmtree path w =
      (do
        let link ← (match lookKind k w.sys false path with
          | .error _ => pure false
          | .ok kind => pure (decide (kind = .link)) : Io Tree Bool)
        if link then unlinkCached (volume k) path
        else rmtreeOpened (volume k) rmtree path : Io Tree Int) w := by
  unfold rmtreeStep isSymlinkPath
  rfl

theorem rmtreeStep_run (w : IoState Tree) :
    rmtreeStep (volume k) rmtree path w =
      if lookKind k w.sys false path = .ok .link then unlinkCached (volume k) path w
      else rmtreeOpened (volume k) rmtree path w := by
  rw [rmtreeStep_split]
  cases lookKind k w.sys false path with
  | error err => rfl
  | ok kind => cases kind <;> rfl

theorem rmtreeDir_nil {rc : Int} (w : IoState Tree) : rmtreeDir rmtree path rc [] w = (rc, w) := rfl

theorem rmtreeDir_dots {rc : Int} (w : IoState Tree) :
    rmtreeDir rmtree path rc ([dot] :: [dot, dot] :: names) w = rmtreeDir rmtree path rc names w := rfl

/-- A name in the loop of `rmtree_dir`: its path does not fit, or it is removed. -/
theorem rmtreeDir_cons {rc : Int} (hname : ValidName c) (w : IoState Tree) :
    rmtreeDir rmtree path rc (c :: names) w =
      if (path ++ slash :: c).length ≥ pathBuffer then rmtreeDir rmtree path (-1) names w
      else
        rmtreeDir rmtree path (if (rmtree (path ++ slash :: c) w).1 ≠ 0 then -1 else rc) names
          (rmtree (path ++ slash :: c) w).2 := by
  have hdots : isDotOrDotdot c = false := special_of_valid hname
  rw [rmtreeDir, hdots, if_neg (by simp)]
  split <;> rfl

theorem mem_listed : c ∈ listed k t l ↔ t.lookup (l ++ [c]) ≠ none ∧ k.hides (l ++ [c]) = false := by
  unfold listed
  rw [List.mem_filter, mem_children, Bool.not_eq_true']

/-- What `opendir` and `readdir` give. -/
theorem openDir_some (h : openDir k t path = some names) :
    ∃ e, find k t true path = .ok e ∧ bodyAt t e = some .dir ∧ k.closed e = false ∧
      names = [dot] :: [dot, dot] :: listed k t e := by
  unfold openDir at h
  cases hfind : find k t true path with
  | error err =>
    rw [hfind] at h
    cases h
  | ok e =>
    rw [hfind] at h
    dsimp only at h
    split at h
    · rename_i hopen
      exact ⟨e, rfl, hopen.1, hopen.2, (Option.some.inj h).symm⟩
    · cases h

/-- The names in the tree are names. -/
def Proper (t : Tree) : Prop := ∀ l c, t.lookup (l ++ [c]) ≠ none → ValidName c ∧ c.length ≤ nameMax

theorem Proper.mono (h : Proper t) (hsub : Sub t' t) : Proper t' :=
  fun l c hc => h l c fun hnone => hc (hsub.none hnone)

theorem rmtreeDir_confined {rc : Int}
    (hrmtree : ∀ c w, Proper w.sys → Confined k w.sys (path ++ slash :: c)
      (rmtree (path ++ slash :: c) w).2.sys)
    (hproper : Proper t) (hleads : Leads k t path e) (hfind : find k t false path = .ok e)
    (hnames : ∀ c ∈ names, ValidName c) (w : IoState Tree) (hconf : Confined k t path w.sys) :
    Confined k t path (rmtreeDir rmtree path rc names w).2.sys := by
  induction names generalizing rc w with
  | nil => exact hconf
  | cons c names ih =>
    have hc := hnames c List.mem_cons_self
    have hrest : ∀ c ∈ names, ValidName c := fun c hmem => hnames c (List.mem_cons_of_mem _ hmem)
    rw [rmtreeDir_cons hc]
    split
    · exact ih hrest w hconf
    · refine ih hrest _ ?_
      have hchild := hrmtree c w (hproper.mono hconf.sub)
      refine ⟨hchild.sub.trans hconf.sub, fun m hm => ?_⟩
      by_cases hsame : (rmtree (path ++ slash :: c) w).2.sys.lookup m = w.sys.lookup m
      · rw [hsame] at hm
        exact hconf.below m hm
      · obtain ⟨e', he', hpre⟩ := hchild.below m hsame
        obtain rfl := hleads.child_find hc (find_mono hconf.sub he')
        exact ⟨e, hfind, (List.prefix_append e [c]).trans hpre⟩

/-- Whatever is at the path, `io_rmtree` removes nothing else. -/
theorem rmtreeDepth_confined (n : Nat) (path : CStr) (w : IoState Tree) (hproper : Proper w.sys) :
    Confined k w.sys path (rmtreeDepth (volume k) n path w).2.sys := by
  induction n generalizing path w with
  | zero => exact Confined.refl
  | succ n ih =>
    have hunlink : Confined k w.sys path (unlinkCached (volume k) path w).2.sys := by
      rw [(unlinkCached_run (volume k) path w).2]
      exact unlinkAt_confined
    rw [rmtreeDepth, rmtreeStep_run]
    split
    · exact hunlink
    · rename_i hnolink
      rw [rmtreeOpened_run]
      cases hopen : openDir k w.sys path with
      | none => exact hunlink
      | some names =>
        obtain ⟨e, htrue, hdir, -, rfl⟩ := openDir_some hopen
        have hfind : find k w.sys false path = .ok e := by
          refine (find_nofollow htrue).resolve_right ?_
          rintro ⟨m, target, hm, hlink⟩
          exact hnolink (lookKind_of_find hm hlink)
        dsimp only
        rw [rmtreeDir_dots]
        have hnames : ∀ c ∈ listed k w.sys e, ValidName c :=
          fun c hc => (hproper e c (mem_listed.mp hc).1).1
        have hloop : Confined k w.sys path
            (rmtreeDir (rmtreeDepth (volume k) n) path 0 (listed k w.sys e) w).2.sys :=
          rmtreeDir_confined (fun c w hw => ih _ w hw) hproper (leads_of_find htrue hdir) hfind
            hnames w Confined.refl
        by_cases hrc : (rmtreeDir (rmtreeDepth (volume k) n) path 0 (listed k w.sys e) w).1 = 0
        · rw [hrc, (rmtreeLast_run (volume k) path _).2]
          exact hloop.trans rmdirAt_confined
        · rw [rmtreeLast_failed (volume k) path hrc]
          exact hloop

/-- `unlink` where `lstat` has failed. -/
theorem unlinkAt_missing {err : Errno} (h : find k t false path = .error err) :
    (unlinkAt k path t).2 = t ∧
      (tolerant (unlinkAt k path t).1 = 0 ↔ err = .enoent ∧ ¬ Hanging k t path) := by
  unfold unlinkAt
  cases hlast : lastOf k t path with
  | error e =>
    rw [find_of_lastOf_error hlast] at h
    cases h
    refine ⟨rfl, ?_⟩
    have hfree : ¬ Hanging k t path := by
      rintro ⟨-, l, name, target, hok, -⟩
      rw [hlast] at hok
      cases hok
    cases err <;> simp [tolerant, hfree]
  | ok p =>
    obtain ⟨l, name⟩ := p
    dsimp only
    cases hspecial : special name with
    | true =>
      obtain ⟨m, hm⟩ := find_of_special (f := false) hlast hspecial
      rw [hm] at h
      cases h
    | false =>
      rw [if_neg (by simp)]
      cases hbody : bodyAt t (l ++ [name]) with
      | none =>
        rw [find_of_gone hlast hspecial hbody] at h
        cases h
        refine ⟨rfl, iff_of_true rfl ⟨rfl, ?_⟩⟩
        rintro ⟨-, l', name', target, hok, hlink⟩
        rw [hlast] at hok
        cases hok
        rw [hbody] at hlink
        cases hlink
      | some b =>
        have hslash : b ≠ .dir ∧ slashed path = true := by
          refine ⟨fun hb => ?_, Bool.of_not_eq_false fun hb => ?_⟩
          · rw [find_of_entry hlast hspecial hbody (Or.inl hb) fun _ _ => rfl] at h
            cases h
          · rw [find_of_entry hlast hspecial hbody (Or.inr hb) fun _ _ => rfl] at h
            cases h
        obtain ⟨hb, hslash⟩ := hslash
        cases b with
        | dir => exact absurd rfl hb
        | file =>
          rw [find_slashed hlast hspecial hslash hbody hb (by simp)] at h
          cases h
          rw [hslash]
          exact ⟨rfl, by simp [tolerant]⟩
        | link target =>
          rw [hslash]
          refine ⟨rfl, iff_of_false (by simp [tolerant]) fun hfree => ?_⟩
          exact hfree.2 ⟨hslash, l, name, target, hlast, hbody⟩

/-- Where `lstat` fails, nothing is removed; that nothing is there is no failure. -/
theorem rmtreeDepth_missing (n : Nat) {w : IoState Tree} {err : Errno}
    (h : find k w.sys false path = .error err) :
    (rmtreeDepth (volume k) (n + 1) path w).2.sys = w.sys ∧
      ((rmtreeDepth (volume k) (n + 1) path w).1 = 0 ↔
        err = .enoent ∧ ¬ Hanging k w.sys path) := by
  have hopen : openDir k w.sys path = none := by
    unfold openDir
    cases hfind : find k w.sys true path with
    | error e => rfl
    | ok e =>
      rcases find_nofollow hfind with hok | ⟨m, target, hok, -⟩
      · rw [hok] at h
        cases h
      · rw [hok] at h
        cases h
  have hrun : rmtreeDepth (volume k) (n + 1) path w = unlinkCached (volume k) path w := by
    rw [rmtreeDepth, rmtreeStep_run, lookKind_of_error h, if_neg (by simp), rmtreeOpened_run, hopen]
  rw [hrun, (unlinkCached_run (volume k) path w).1, (unlinkCached_run (volume k) path w).2]
  exact unlinkAt_missing h

end

end Cage.Util.Volume
