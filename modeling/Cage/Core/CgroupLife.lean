import Cage.Core.Spawn
import Cage.Sandbox.CgroupSwept

/-!
The cgroup of a cage, from `cgroup_pre_unshare` to `cgroup_cleanup`, in the tree of cgroups.
-/

namespace Cage.Core.Spawn

open Lib.Hoare (Returns)
open Lib.Program Lib.Runs Util Sandbox.CgroupTree

def cgroupLoc : Loc := [lit "sys", lit "fs", lit "cgroup"]

/-- The cgroup that a spawn makes for its cage. -/
def cageLoc (pid : Nat) : Loc := cgroupLoc ++ [lit "cage-" ++ intStr pid]

def lookErr (t : Cgroups) (path : CStr) : Option Errno :=
  match find t path with
  | .ok _ => none
  | .error e => some e

def sysMkdir (t : Cgroups) (path : CStr) : MkdirAnswer × Cgroups :=
  if path.length ≥ pathMax then (.other, t)
  else if comps path ∈ t.dirs then (.eexist, t)
  else if (comps path).dropLast ∈ t.dirs then (.ok, { t with dirs := t.dirs ++ [comps path] })
  else (.other, t)

/-- The file by which processes are moved into a cgroup. -/
def procsFile : CStr := lit "cgroup.procs"

/-- `write_pid` -/
def writePid (k : Sandbox.CgroupTree.Kernel) (t : Cgroups) (path : CStr) (pid : Nat) :
    Int × Cgroups :=
  if path.length < pathMax ∧ (comps path).getLast? = some procsFile ∧
      (comps path).dropLast ∈ t.dirs ∧ k.admits (comps path).dropLast pid then
    (0, t.moved pid (comps path).dropLast)
  else (-1, t)

/-- `cgroup_rmdir_recursive`; where the paths fit it goes less deep than they are long. -/
def cgroupRmdir (k : Sandbox.CgroupTree.Kernel) (t : Cgroups) (path : CStr) : Int × Cgroups :=
  let r := (cgroupRmdirRecursive k pathMax path).run t
  (r.1.getD (-1), r.2)

/-- What the calls do to the cgroups; what the others answer is not said. -/
def CgroupAnswered (k : Sandbox.CgroupTree.Kernel) :
    (c : SpawnCall) → Cgroups → c.Ret → Cgroups → Prop
  | .proc (.access path), t, r, t' => r = lookErr t path ∧ t' = t
  | .mkdir path, t, r, t' => (r, t') = sysMkdir t path
  | .writePid path pid, t, r, t' => (r, t') = writePid k t path pid
  | .cgroupRmdir path, t, r, t' => (r, t') = cgroupRmdir k t path
  | _, t, _, t' => t' = t

section

variable {k : Sandbox.CgroupTree.Kernel} {t : Cgroups} {pid : Nat}

theorem cageName_valid (pid : Nat) : ValidName (lit "cage-" ++ intStr pid) := by
  have hslash : slash ∉ lit "cage-" ++ intStr pid := by
    rw [List.mem_append, not_or]
    refine ⟨by decide, fun hmem => ?_⟩
    have hdigit := isDigit_of_mem_intStr hmem
    revert hdigit
    decide
  have hlen : 2 < (lit "cage-" ++ intStr pid).length := by
    rw [List.length_append]
    exact Nat.lt_of_lt_of_le (by decide) (Nat.le_add_right _ _)
  refine ⟨?_, hslash, ?_, ?_⟩ <;>
  · intro h
    rw [h] at hlen
    exact absurd hlen (by decide)

theorem comps_cgroupRoot : comps cgroupRoot = cgroupLoc := by decide

theorem cgdir_eq (pid : Nat) : cgdir pid = cgroupRoot ++ slash :: (lit "cage-" ++ intStr pid) := by
  have hlit : lit "/cage-" = slash :: lit "cage-" := by decide
  rw [cgdir, hlit, List.append_assoc, List.cons_append]

theorem comps_cgdir (pid : Nat) : comps (cgdir pid) = cageLoc pid := by
  rw [cgdir_eq, Volume.comps_child (cageName_valid pid), comps_cgroupRoot]
  rfl

theorem length_cgdir_lt (h : Fits t (cgdir pid) (cageLoc pid)) (hmem : cageLoc pid ∈ t.dirs) :
    (cgdir pid).length < pathMax := by
  have hroom := h [] (by rwa [List.append_nil])
  rw [List.length_append] at hroom
  omega

/-- A call that leaves the cgroups as they are. -/
def Aside (k : Sandbox.CgroupTree.Kernel) (c : SpawnCall) : Prop :=
  ∀ t r t', CgroupAnswered k c t r t' → t' = t

theorem aside_sys {c : SpawnCall} (h : Aside k c) : Only (Aside k) (SpawnM.sys c) := Only.perform h

theorem aside_memFree (p : Option Ptr) : Only (Aside k) (memFree p) := by
  cases p with
  | none => exact Only.pure ()
  | some p => exact aside_sys fun _ _ _ h => h

theorem aside_writeSubtree (cg val : CStr) : Only (Aside k) (writeSubtree cg val) :=
  Only.bind (aside_sys fun _ _ _ h => h) fun _ => Only.bind (aside_sys fun _ _ _ h => h) fun _ =>
    Only.bind (aside_sys fun _ _ _ h => h) fun _ => Only.pure _

theorem aside_enableCgroupControllers (cg : CStr) :
    Only (Aside k) (enableCgroupControllers cg) := by
  refine Only.bind (aside_sys fun _ _ _ h => h) fun p => Only.bind (aside_sys fun _ _ _ h => h) fun b => ?_
  cases b.text with
  | none => exact Only.bind (aside_sys fun _ _ _ h => h) fun _ => Only.pure _
  | some text =>
    refine Only.bind (aside_sys fun _ _ _ h => h) fun _ => ?_
    cases buildSubtreeValue (trimNewline (cstring text)) 256 with
    | none => exact Only.bind (aside_memFree _) fun _ => Only.pure _
    | some val =>
      exact Only.bind (aside_writeSubtree cg val) fun r => Only.bind (aside_memFree _) fun _ => Only.pure r

theorem aside_trySubtree (sub val : CStr) (n : Nat) : Only (Aside k) (trySubtree sub val n) := by
  induction n with
  | zero => exact Only.pure ()
  | succ n ih =>
    refine Only.bind (aside_sys fun _ _ _ h => h) fun r => Only.ite (fun _ => ?_) fun _ => Only.pure ()
    exact Only.bind (aside_sys fun _ _ _ h => h) fun _ => ih

theorem aside_writeEnableControllers (dir : CStr) :
    Only (Aside k) (writeEnableControllers dir) := by
  refine Only.bind (aside_sys fun _ _ _ h => h) fun p => Only.bind (aside_sys fun _ _ _ h => h) fun b => ?_
  cases b.text with
  | none => exact Only.bind (aside_sys fun _ _ _ h => h) fun _ => Only.pure _
  | some text =>
    refine Only.bind (aside_sys fun _ _ _ h => h) fun _ => ?_
    cases buildSubtreeValue (trimNewline (cstring text)) 256 with
    | none => exact Only.bind (aside_memFree _) fun _ => Only.pure _
    | some val =>
      refine Only.bind ?_ fun _ => Only.bind (aside_memFree _) fun _ => Only.pure _
      exact Only.bind (aside_sys fun _ _ _ h => h) fun _ => Only.bind (aside_trySubtree _ val 4) fun _ =>
        aside_sys fun _ _ _ h => h

theorem ends_aside {A : Type} {m : SpawnM A} (h : Only (Aside k) m) (t : Cgroups) :
    Ends (CgroupAnswered k) (fun _ s => s = t) m fun _ _ s => s = t :=
  Ends.only h fun _ _ _ _ hk hs hmay => (hk _ _ _ hmay).trans hs

/-- The cgroups with the one of the cage, and `pid` in it. -/
def entered (t : Cgroups) (pid : Nat) : Cgroups :=
  ({ t with dirs := if cageLoc pid ∈ t.dirs then t.dirs else t.dirs ++ [cageLoc pid] } : Cgroups).moved
    pid (cageLoc pid)

theorem dropLast_cageLoc (pid : Nat) : (cageLoc pid).dropLast = cgroupLoc := List.dropLast_concat

theorem makeCgroupDir_ends (t : Cgroups) :
    Ends (CgroupAnswered k) (fun _ s => s = t) (makeCgroupDir pid) fun r _ s => r = 0 →
      (cgroupLoc ∈ t.dirs ∨ cageLoc pid ∈ t.dirs) ∧
        s = { t with dirs := if cageLoc pid ∈ t.dirs then t.dirs else t.dirs ++ [cageLoc pid] } := by
  refine Ends.ite (fun _ => Ends.pure fun _ _ _ h => nomatch h) fun hlen => ?_
  refine Ends.bind (Q := fun r _ s => (r, s) = sysMkdir t (cgdir pid))
    (Ends.perform fun _ _ _ _ hs hmay => hs ▸ hmay) fun r => Ends.pure fun _ s hs hr => ?_
  have hshort : ¬(cgdir pid).length ≥ pathMax := hlen
  rw [sysMkdir, if_neg hshort, comps_cgdir, dropLast_cageLoc] at hs
  by_cases hthere : cageLoc pid ∈ t.dirs
  · rw [if_pos hthere] at hs ⊢
    exact ⟨.inr hthere, congrArg Prod.snd hs⟩
  · rw [if_neg hthere] at hs ⊢
    by_cases hroot : cgroupLoc ∈ t.dirs
    · rw [if_pos hroot] at hs
      exact ⟨.inl hroot, congrArg Prod.snd hs⟩
    · rw [if_neg hroot] at hs
      have hother : r = .other := congrArg Prod.fst hs
      rw [if_pos hother] at hr
      cases hr

theorem writePid_zero {path : CStr} {l : Loc} {s s' : Cgroups} (hcomps : comps path = l ++ [procsFile])
    (h : (0, s') = writePid k s path pid) : s' = s.moved pid l := by
  rw [writePid, hcomps, List.dropLast_concat] at h
  split at h
  · exact congrArg Prod.snd h
  · cases h

theorem writeProcs_ends (t : Cgroups) :
    Ends (CgroupAnswered k) (fun _ s => s = t) (writeProcs (cgdir pid) pid) fun r _ s =>
      r = 0 → s = t.moved pid (cageLoc pid) := by
  have hcomps : comps (memPath (cgdir pid) (lit "cgroup.procs")) = cageLoc pid ++ [procsFile] := by
    have hlast : comps (lit "cgroup.procs") = [procsFile] := by decide
    rw [comps_memPath, comps_cgdir, hlast]
  unfold writeProcs
  refine Ends.bind (ends_aside (aside_sys (c := .alloc) fun _ _ _ h => h) t) fun p => ?_
  refine Ends.bind (Q := fun r _ s => (r, s) = writePid k t
    (memPath (cgdir pid) (lit "cgroup.procs")) pid)
    (Ends.perform fun _ _ _ _ hs hmay => hs ▸ hmay) fun r => ?_
  refine Ends.bind (Q := fun _ _ s => (r, s) = writePid k t
    (memPath (cgdir pid) (lit "cgroup.procs")) pid) (Ends.perform fun _ _ _ _ hs hmay => ?_) fun _ =>
    Ends.pure fun _ _ hs hr => writePid_zero hcomps (hr ▸ hs)
  rw [show _ = _ from hmay]
  exact hs

/-- After `cgroup_pre_unshare` the process is in the cgroup of its cage. -/
theorem cgroupPreUnshare_ends (t : Cgroups) :
    Ends (CgroupAnswered k) (fun _ s => s = t) (cgroupPreUnshare 2 pid) fun r _ s => r = 0 →
      (cgroupLoc ∈ t.dirs ∨ cageLoc pid ∈ t.dirs) ∧ s = entered t pid := by
  refine Ends.ite (fun h => absurd rfl h) fun _ => ?_
  refine Ends.bind (ends_aside (aside_enableCgroupControllers _) t) fun r => Ends.ite
    (fun _ => Ends.pure fun _ _ _ h => nomatch h) fun _ => ?_
  refine Ends.bind (makeCgroupDir_ends t) fun r => Ends.ite
    (fun _ => Ends.pure fun _ _ _ h => nomatch h) fun hmade => ?_
  refine Ends.bind (Q := fun r _ s => r = 0 → (cgroupLoc ∈ t.dirs ∨ cageLoc pid ∈ t.dirs) ∧
    s = entered t pid) ?_ fun r => Ends.ite (fun _ => Ends.pure fun _ _ _ h => nomatch h) fun hin => ?_
  · intro c s hs
    obtain ⟨hroot, hdirs⟩ := hs (not_not.mp hmade)
    refine Wp.mono (fun _ _ h hr => ⟨hroot, ?_⟩) _ (writeProcs_ends s c s rfl)
    rw [h hr, hdirs]
    rfl
  · intro c s hs
    obtain ⟨hroot, rfl⟩ := hs (not_not.mp hin)
    exact Wp.mono (fun _ _ h _ => ⟨hroot, h⟩) _
      (ends_aside (aside_writeEnableControllers _) _ c _ rfl)

/-- Where `cgroup_cleanup` has moved `pid` before it removes the cgroup of the cage. -/
def left (k : Sandbox.CgroupTree.Kernel) (t : Cgroups) (pid : Nat) : Cgroups :=
  if k.admits cgroupLoc pid then t.moved pid cgroupLoc else t

/-- What `cgroup_cleanup` leaves. -/
def Cleaned (k : Sandbox.CgroupTree.Kernel) (t : Cgroups) (pid : Nat) (t' : Cgroups) : Prop :=
  (cageLoc pid ∉ t.dirs → t' = t) ∧
    (cageLoc pid ∈ t.dirs → Swept k (cageLoc pid <+: ·) (left k t pid) t')

theorem ioExistsOnce_ends (t : Cgroups) (path : CStr) :
    Ends (CgroupAnswered k) (fun _ s => s = t) (SpawnM.proc (ioExistsOnce path)) fun e _ s =>
      e = accessResult (lookErr t path) ∧ s = t := by
  rintro c s rfl r s' ⟨rfl, rfl⟩
  exact ⟨rfl, rfl⟩

theorem comps_procs : comps (cgroupRoot ++ lit "/cgroup.procs") = cgroupLoc ++ [procsFile] := by decide

theorem lookErr_there (hfits : Fits t (cgdir pid) (cageLoc pid)) (hmem : cageLoc pid ∈ t.dirs) :
    lookErr t (cgdir pid) = none := by
  rw [lookErr, find_mem (comps_cgdir pid) (length_cgdir_lt hfits hmem) hmem]

theorem lookErr_gone (hlen : (cgdir pid).length < pathMax) (hmem : cageLoc pid ∉ t.dirs) :
    lookErr t (cgdir pid) = some .enoent := by
  rw [lookErr, find_gone (comps_cgdir pid) hlen hmem]

theorem writePid_root (hroot : cgroupLoc ∈ t.dirs) :
    (writePid k t (cgroupRoot ++ lit "/cgroup.procs") pid).2 = left k t pid := by
  have hlen : (cgroupRoot ++ lit "/cgroup.procs").length < pathMax := by decide
  rw [writePid, comps_procs, List.dropLast_concat, left]
  by_cases hadmits : k.admits cgroupLoc pid = true
  · rw [if_pos ⟨hlen, List.getLast?_concat .., hroot, hadmits⟩, if_pos hadmits]
  · rw [if_neg fun h => hadmits h.2.2.2, if_neg hadmits]

/-- `cgroup_cleanup` removes the cgroups of the cage in which no process is left. -/
theorem cgroupCleanup_ends (hlists : Lists k) (hwf : Wf cgroupLoc t)
    (hfits : Fits t (cgdir pid) (cageLoc pid)) :
    Ends (CgroupAnswered k) (fun _ s => s = t) (cgroupCleanup pid 2) fun _ _ s =>
      Cleaned k t pid s := by
  have hgone (hmem : cageLoc pid ∉ t.dirs) : Cleaned k t pid t :=
    ⟨fun _ => rfl, fun h => absurd h hmem⟩
  refine Ends.ite (fun h => absurd rfl h) fun _ => Ends.ite (fun hlong => ?_) fun hlen => ?_
  · refine Ends.pure fun _ s hs => hs ▸ hgone fun hmem => ?_
    exact absurd (length_cgdir_lt hfits hmem) (Nat.not_lt.mpr hlong)
  refine Ends.bind (ioExistsOnce_ends t _) fun e => ?_
  refine Ends.conseq (Ends.assume fun he => ?_) (fun _ _ h => h) fun _ _ _ h => h
  by_cases hmem : cageLoc pid ∈ t.dirs
  · have hroot : cgroupLoc ∈ t.dirs := hwf.parent cgroupLoc _ (List.prefix_refl _) hmem
    rw [he, lookErr_there hfits hmem]
    refine Ends.ite (fun h => absurd rfl h) fun _ => ?_
    refine Ends.bind (Q := fun _ _ s => s = left k t pid) (Ends.perform fun _ s r s' hs hmay => ?_)
      fun _ => ?_
    · subst hs
      exact (congrArg Prod.snd hmay).trans (writePid_root hroot)
    have hmoved : (left k t pid).dirs = t.dirs := by
      unfold left
      split <;> rfl
    obtain ⟨r, t', hrun, hswept, -⟩ := (cgroupRmdirRecursive_sweeps hlists pathMax _ _ _
      (comps_cgdir pid) (List.prefix_append cgroupLoc _) (hmoved ▸ hmem) (hwf.of_dirs hmoved)
      (hfits.of_dirs hmoved) (Nat.le_add_left _ _)).run
    refine Ends.bind (Q := fun _ _ s => Cleaned k t pid s) (Ends.perform fun _ s _ s' hs hmay => ?_)
      fun _ => Ends.pure fun _ _ h => h
    refine ⟨fun h => absurd hmem h, fun _ => ?_⟩
    have hleft : s' = (cgroupRmdir k s (cgdir pid)).2 := congrArg Prod.snd hmay
    rw [hleft, hs, cgroupRmdir, hrun]
    exact hswept
  · rw [he, lookErr_gone (Nat.not_le.mp hlen) hmem]
    exact Ends.ite (fun _ => Ends.pure fun _ _ hs => hs ▸ hgone hmem) fun h => absurd (by decide) h

end

/-- What the processes of a cage do with its cgroups; `pid` is the process that waits for the
others. -/
inductive CageAct where
  | fork (parent child : Nat)
  | exit (p : Nat)
  | move (p : Nat) (l : Loc)
  | mkdir (l : Loc) (c : CStr)
  | rmdir (l : Loc)

def cageStep (pid : Nat) (t : Cgroups) : CageAct → Option Cgroups
  | .fork parent child =>
      match t.procs.find? (·.1 = parent) with
      | none => none
      | some (_, l) =>
          if cageLoc pid <+: l ∧ ∀ p ∈ t.procs, p.1 ≠ child then
            some { t with procs := t.procs ++ [(child, l)] }
          else none
  | .exit p =>
      if p ≠ pid ∧ ∀ q ∈ t.procs, q.1 = p → cageLoc pid <+: q.2 then
        some { t with procs := t.procs.filter (·.1 ≠ p) }
      else none
  | .move p l =>
      if cageLoc pid <+: l ∧ l ∈ t.dirs ∧ ∀ q ∈ t.procs, q.1 = p → cageLoc pid <+: q.2 then
        some (t.moved p l)
      else none
  | .mkdir l c =>
      if cageLoc pid <+: l ∧ l ∈ t.dirs ∧ l ++ [c] ∉ t.dirs ∧ ValidName c then
        some { t with dirs := t.dirs ++ [l ++ [c]] }
      else none
  | .rmdir l =>
      if cageLoc pid <+: l ∧ l ≠ cageLoc pid ∧ t.busy l = false then
        some { t with dirs := t.dirs.filter (· ≠ l) }
      else none

/-- What has come of `t0` outside of the cage. -/
structure Within (pid : Nat) (t0 t : Cgroups) : Prop where
  wf : Wf cgroupLoc t
  cage : cageLoc pid ∈ t.dirs
  dirs : ∀ m, ¬cageLoc pid <+: m → (m ∈ t.dirs ↔ m ∈ t0.dirs)
  procs : ∀ p l, ¬cageLoc pid <+: l → ((p, l) ∈ t.procs ↔ (p, l) ∈ t0.procs ∧ p ≠ pid)
  alive : ∃ l, (pid, l) ∈ t.procs
  inside : ∀ l, (pid, l) ∈ t.procs → cageLoc pid <+: l

section

variable {k : Sandbox.CgroupTree.Kernel} {t t0 t' : Cgroups} {pid : Nat}

theorem not_prefix_cage : ¬cageLoc pid <+: cgroupLoc := fun h =>
  absurd h.length_le (by rw [cageLoc, List.length_append]; exact Nat.not_succ_le_self _)

/-- The cage's own set-up changes nothing outside. -/
theorem entered_within (hwf : Wf cgroupLoc t) (hroot : cgroupLoc ∈ t.dirs ∨ cageLoc pid ∈ t.dirs)
    (halive : ∃ l, (pid, l) ∈ t.procs) : Within pid t (entered t pid) := by
  obtain ⟨l₀, hl₀⟩ := halive
  have hbase : cgroupLoc ∈ t.dirs := hroot.elim id fun hcage =>
    hwf.parent cgroupLoc _ (List.prefix_refl _) hcage
  have hdirs (m : Loc) : m ∈ (entered t pid).dirs ↔ m ∈ t.dirs ∨ m = cageLoc pid := by
    change m ∈ (if cageLoc pid ∈ t.dirs then t.dirs else t.dirs ++ [cageLoc pid]) ↔ _
    split_ifs with hcage
    · exact ⟨.inl, fun h => h.elim id fun heq => heq ▸ hcage⟩
    · rw [List.mem_append, List.mem_singleton]
  refine ⟨?_, (hdirs _).mpr (.inr rfl), fun m hm => ?_, fun p l hl => ?_, ?_, fun l hl => ?_⟩
  · by_cases hcage : cageLoc pid ∈ t.dirs
    · exact hwf.of_dirs (if_pos hcage)
    · exact (hwf.snoc hbase (cageName_valid pid)).of_dirs (if_neg hcage)
  · rw [hdirs]
    exact or_iff_left fun heq => hm (heq ▸ List.prefix_refl _)
  · rw [entered, Cgroups.mem_moved]
    refine ⟨fun h => ?_, fun h => .inl ⟨h.2, h.1⟩⟩
    rcases h with ⟨hne, hmem⟩ | ⟨-, rfl, -⟩
    · exact ⟨hmem, hne⟩
    · exact absurd (List.prefix_refl _) hl
  · exact ⟨cageLoc pid, Cgroups.mem_moved.mpr (.inr ⟨rfl, rfl, l₀, hl₀⟩)⟩
  · rcases Cgroups.mem_moved.mp hl with ⟨hne, -⟩ | ⟨-, rfl, -⟩
    · exact absurd rfl hne
    · exact List.prefix_refl _

theorem Within.step {a : CageAct} (h : Within pid t0 t) (hstep : cageStep pid t a = some t') :
    Within pid t0 t' := by
  cases a with
  | fork parent child =>
    rw [cageStep] at hstep
    split at hstep
    · cases hstep
    · rename_i p l hfind
      split_ifs at hstep with hok
      obtain ⟨hbelow, hnew⟩ := hok
      cases hstep
      obtain ⟨l₀, hl₀⟩ := h.alive
      refine { h with
        wf := h.wf.of_dirs rfl
        procs := fun q m hm => ?_
        alive := ⟨l₀, List.mem_append_left _ hl₀⟩
        inside := ?_ }
      · rw [← h.procs q m hm, List.mem_append]
        refine or_iff_left fun heq => hm ?_
        exact (Prod.mk.inj (List.mem_singleton.mp heq)).2 ▸ hbelow
      · intro m hm
        rcases List.mem_append.mp hm with hold | heq
        · exact h.inside m hold
        · exact (Prod.mk.inj (List.mem_singleton.mp heq)).2 ▸ hbelow
  | exit p =>
    rw [cageStep] at hstep
    split_ifs at hstep with hok
    cases hstep
    obtain ⟨hne, hin⟩ := hok
    obtain ⟨l₀, hl₀⟩ := h.alive
    have hkeep (q : Nat) (m : Loc) :
        (q, m) ∈ t.procs.filter (·.1 ≠ p) ↔ (q, m) ∈ t.procs ∧ q ≠ p := by
      rw [List.mem_filter, decide_eq_true_eq]
    refine { h with
      wf := h.wf.of_dirs rfl
      procs := fun q m hm => ?_
      alive := ⟨l₀, (hkeep _ _).mpr ⟨hl₀, hne.symm⟩⟩
      inside := ?_ }
    · rw [← h.procs q m hm, hkeep]
      exact and_iff_left_of_imp fun hmem heq => hm (hin (q, m) hmem heq)
    · exact fun m hm => h.inside m ((hkeep _ _).mp hm).1
  | move p l =>
    rw [cageStep] at hstep
    split_ifs at hstep with hok
    cases hstep
    obtain ⟨hbelow, -, hin⟩ := hok
    obtain ⟨l₀, hl₀⟩ := h.alive
    refine { h with
      wf := h.wf.of_dirs rfl
      procs := fun q m hm => ?_
      alive := ?_
      inside := fun m hm => ?_ }
    · rw [← h.procs q m hm, Cgroups.mem_moved]
      refine ⟨fun hmem => ?_, fun hmem => .inl ⟨fun heq => hm (hin (q, m) hmem heq), hmem⟩⟩
      rcases hmem with ⟨-, hmem⟩ | ⟨-, rfl, -⟩
      · exact hmem
      · exact absurd hbelow hm
    · by_cases hp : pid = p
      · exact ⟨l, Cgroups.mem_moved.mpr (.inr ⟨hp, rfl, l₀, hp ▸ hl₀⟩)⟩
      · exact ⟨l₀, Cgroups.mem_moved.mpr (.inl ⟨hp, hl₀⟩)⟩
    · rcases Cgroups.mem_moved.mp hm with ⟨-, hmem⟩ | ⟨-, rfl, -⟩
      · exact h.inside m hmem
      · exact hbelow
  | mkdir l c =>
    rw [cageStep] at hstep
    split_ifs at hstep with hok
    cases hstep
    obtain ⟨hbelow, hl, -, hc⟩ := hok
    refine { h with
      wf := h.wf.snoc hl hc
      cage := List.mem_append_left _ h.cage
      dirs := fun m hm => ?_ }
    rw [← h.dirs m hm, List.mem_append]
    refine or_iff_left fun heq => hm ?_
    rw [List.mem_singleton.mp heq]
    exact hbelow.trans (List.prefix_append l [c])
  | rmdir l =>
    rw [cageStep] at hstep
    split_ifs at hstep with hok
    cases hstep
    obtain ⟨hbelow, hne, hidle⟩ := hok
    have hkeep (m : Loc) : m ∈ t.dirs.filter (· ≠ l) ↔ m ∈ t.dirs ∧ m ≠ l := by
      rw [List.mem_filter, decide_eq_true_eq]
    refine { h with
      wf := h.wf.filter hidle
      cage := (hkeep _).mpr ⟨h.cage, hne.symm⟩
      dirs := fun m hm => ?_ }
    rw [← h.dirs m hm, hkeep]
    exact and_iff_left fun heq => hm (heq ▸ hbelow)

/-- As it was before the cage, but for where `pid` is. -/
structure Restored (pid : Nat) (t0 t : Cgroups) : Prop where
  dirs : ∀ m, m ∈ t.dirs ↔ m ∈ t0.dirs ∧ ¬cageLoc pid <+: m
  others : ∀ p l, p ≠ pid → ((p, l) ∈ t.procs ↔ (p, l) ∈ t0.procs)
  own : ∀ l, (pid, l) ∈ t.procs ↔ l = cgroupLoc

/-- With nobody else in the cage, nothing is left of it. -/
theorem Within.restored (h : Within pid t0 t) (hnew : ∀ p ∈ t0.procs, ¬cageLoc pid <+: p.2)
    (hlast : ∀ p ∈ t.procs, cageLoc pid <+: p.2 → p.1 = pid)
    (hadmits : k.admits cgroupLoc pid = true) (hwilling : ∀ m, cageLoc pid <+: m → k.refuses m = false)
    (hclean : Cleaned k t pid t') : Restored pid t0 t' := by
  have hswept := hclean.2 h.cage
  rw [left, if_pos hadmits] at hswept
  have hempty (m : Loc) (hm : cageLoc pid <+: m) : ¬Occupied k (t.moved pid cgroupLoc) m := by
    rintro ⟨rel, -, ⟨⟨p, l⟩, hp, rfl⟩ | hrefuses⟩
    · have hbelow : cageLoc pid <+: m ++ rel := hm.trans (List.prefix_append m rel)
      rcases Cgroups.mem_moved.mp hp with ⟨hne, hold⟩ | ⟨-, heq, -⟩
      · exact hne (hlast _ hold hbelow)
      · exact not_prefix_cage (heq ▸ hbelow)
    · rw [hwilling _ (hm.trans (List.prefix_append m rel))] at hrefuses
      cases hrefuses
  obtain ⟨l₀, hl₀⟩ := h.alive
  refine ⟨fun m => ?_, fun p l hp => ?_, fun l => ?_⟩
  · rw [hswept.dirs]
    by_cases hm : cageLoc pid <+: m
    · exact ⟨fun hin => absurd (hin.2 hm) (hempty m hm), fun hin => absurd hm hin.2⟩
    · rw [← h.dirs m hm]
      exact ⟨fun hin => ⟨hin.1, hm⟩, fun hin => ⟨hin.1, fun hbelow => absurd hbelow hm⟩⟩
  · rw [hswept.procs, Cgroups.mem_moved]
    by_cases hl : cageLoc pid <+: l
    · refine ⟨fun hin => ?_, fun hin => absurd hl (hnew _ hin)⟩
      rcases hin with ⟨-, hin⟩ | ⟨heq, -⟩
      · exact absurd (hlast _ hin hl) hp
      · exact absurd heq hp
    · rw [h.procs p l hl]
      refine ⟨fun hin => ?_, fun hin => .inl ⟨hp, hin, hp⟩⟩
      rcases hin with ⟨-, hin, -⟩ | ⟨heq, -⟩
      · exact hin
      · exact absurd heq hp
  · rw [hswept.procs, Cgroups.mem_moved]
    refine ⟨fun hin => ?_, fun hl => .inr ⟨rfl, hl, l₀, hl₀⟩⟩
    rcases hin with ⟨hne, -⟩ | ⟨-, hl, -⟩
    · exact absurd rfl hne
    · exact hl

/-- However the calls are answered and whatever the processes of the cage do with their
cgroups: when they have gone, the cgroups are what they were before the cage. -/
theorem cage_leaves_cgroups (hlists : Lists k) (hwf : Wf cgroupLoc t0)
    (halive : ∃ l, (pid, l) ∈ t0.procs) (hnew : ∀ p ∈ t0.procs, ¬cageLoc pid <+: p.2)
    (hadmits : k.admits cgroupLoc pid = true)
    (hwilling : ∀ m, cageLoc pid <+: m → k.refuses m = false) (st st' : SpawnSt) :
    ((cgroupPreUnshare 2 pid).run st).Wp (CgroupAnswered k) (fun r t1 => r.1 = 0 → ∀ t2,
      Run (cageStep pid) Any t1 t2 → (∀ p ∈ t2.procs, cageLoc pid <+: p.2 → p.1 = pid) →
      Fits t2 (cgdir pid) (cageLoc pid) →
      ((cgroupCleanup pid 2).run st').Wp (CgroupAnswered k) (fun _ t3 => Restored pid t0 t3) t2) t0 := by
  refine Wp.mono (fun r t1 hpre hr t2 hrun hlast hfits => ?_) _ (cgroupPreUnshare_ends t0 st t0 rfl)
  obtain ⟨hroot, rfl⟩ := hpre hr
  have hwithin : Within pid t0 t2 := hrun.invariant (Within pid t0)
    (entered_within hwf hroot halive) fun _ _ _ hin _ hstep => hin.step hstep
  exact Wp.mono (fun _ t3 hclean => hwithin.restored hnew hlast hadmits hwilling hclean) _
    (cgroupCleanup_ends hlists hwithin.wf hfits st' t2 rfl)

end

/-- Before the cage: one process, in a cgroup of its own. -/
def beforeCage : Cgroups where
  dirs := [cgroupLoc, cgroupLoc ++ [lit "user"]]
  procs := [(9, cgroupLoc ++ [lit "user"])]

theorem beforeCage_wf : Wf cgroupLoc beforeCage := Wf.of_all (by decide)

theorem cage_leaves_cgroups_plain :
    ((cgroupPreUnshare 2 9).run SpawnSt.init).Wp (CgroupAnswered plainKernel) (fun r t1 => r.1 = 0 →
      ∀ t2, Run (cageStep 9) Any t1 t2 → (∀ p ∈ t2.procs, cageLoc 9 <+: p.2 → p.1 = 9) →
      Fits t2 (cgdir 9) (cageLoc 9) →
      ((cgroupCleanup 9 2).run SpawnSt.init).Wp (CgroupAnswered plainKernel)
        (fun _ t3 => Restored 9 beforeCage t3) t2) beforeCage :=
  cage_leaves_cgroups plainKernel_lists beforeCage_wf ⟨_, List.mem_singleton_self _⟩ (by decide)
    rfl (fun _ _ => rfl) SpawnSt.init SpawnSt.init

/-- A process of the cage makes a cgroup and moves into it. -/
example : (exec (cageStep 9) (entered beforeCage 9)
    [.fork 9 10, .mkdir (cageLoc 9) (lit "a"), .move 10 (cageLoc 9 ++ [lit "a"])]).map Cgroups.procs =
    some [(9, cageLoc 9), (10, cageLoc 9 ++ [lit "a"])] := by decide +kernel

end Cage.Core.Spawn
