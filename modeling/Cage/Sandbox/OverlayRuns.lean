import Cage.Sandbox.OverlayDirs

/-!
Overlay mounts after runs that were killed. A directory that is there from an earlier
run is no sign that the other one is.
-/

namespace Cage.Sandbox

open Lib.Program Util

variable {S : Type} {fs : FileSystem S} (missing : Errno → Bool) (modprobe : Steps Int)

/-- A run that was killed after some of its calls, or made them all. -/
structure Earlier where
  root : CStr
  pid : Nat
  cfg : Cfg
  calls : Nat

variable (fs) in
/-- The state in which the runs leave the file system, one after the other. Each is a
process of its own, and remembers nothing. -/
def leftBy (runs : List Earlier) (s : S) : S :=
  runs.foldl (fun s run =>
    ((setupOverlay missing modprobe run.root run.pid run.cfg).run emptyCache).cut fs.answer
      run.calls s) s

/-- A new process remembers nothing wrong. -/
theorem current_empty (s : S) : Current fs s emptyCache := by
  intro p r h
  cases List.eq_of_mem_replicate h

/-- After any runs, the directories are there at the overlay mount of a further one if
and only if those that it takes as they stand are there to begin with. -/
theorem ready_after (hfs : Makes fs) (hload : Loads fs modprobe) (runs : List Earlier) (s : S)
    (root : CStr) (pid : Nat) (cfg : Cfg) :
    Ready fs missing modprobe root pid cfg emptyCache (leftBy fs missing modprobe runs s) ↔
      ∀ dirs, provisioned fs (leftBy fs missing modprobe runs s) cfg = some dirs →
        fs.Both dirs (leftBy fs missing modprobe runs s) := by
  have hc : Current fs (leftBy fs missing modprobe runs s) emptyCache := current_empty _
  cases hprov : provisioned fs (leftBy fs missing modprobe runs s) cfg with
  | none =>
    refine iff_of_true ?_ nofun
    exact ready_of_none missing root pid cfg hfs hload hc hprov
  | some dirs =>
    rw [ready_iff_both missing root pid cfg hfs hload hc hprov]
    constructor
    · rintro hboth d hd
      cases hd
      exact hboth
    · intro hall
      exact hall dirs rfl

/-- Directories by their paths; those at `/d-loop` are on a loop file system. -/
def listed (s : List CStr) (path : CStr) : Except Errno Found :=
  if path ∈ s then .ok ⟨if pathUnder path (lit "/d-loop") then 2 else 1, .dir, 0xef53⟩
  else .error .enoent

/-- An overlay mount needs its directories. -/
def mountable (s : List CStr) (data : CStr) : Bool :=
  match parseOverlay data with
  | none => false
  | some c => c.upperdir.all (· ∈ s) && c.workdir.all (· ∈ s)

/-- A kernel that knows nothing but directories. -/
def listKernel : FileSystem (List CStr) where
  find := listed
  other
    | .lstat path, s =>
        ((listed s (stripTrailingSlash path)).map fun f => { dev := f.dev, kind := f.kind }, s)
    | .mkdir path _, s =>
        let dir := stripTrailingSlash path
        if dir ∈ s then (some .eexist, s)
        else if cutLast dir = [] ∨ cutLast dir ∈ s then (none, dir :: s)
        else (some .enoent, s)
    | .mount _ _ _ data, s => (if mountable s data then none else some .enoent, s)
    | k, s => (refused k, s)

theorem isDir_listed {s : List CStr} {path : CStr} :
    listKernel.IsDir s path ↔ stripTrailingSlash path ∈ s := by
  have hresolve : listKernel.resolve s path = listed s (stripTrailingSlash path) := by
    have hfind : listKernel.find s (stripTrailingSlash path) =
        listed s (stripTrailingSlash path) := rfl
    unfold FileSystem.resolve
    rw [hfind, listed]
    by_cases hmem : stripTrailingSlash path ∈ s
    · rw [if_pos hmem]
      exact if_neg fun h => h.2 rfl
    · rw [if_neg hmem]
  unfold FileSystem.IsDir
  rw [hresolve, listed]
  split
  · rename_i hmem
    exact iff_of_true ⟨_, rfl, rfl⟩ hmem
  · rename_i hmem
    exact iff_of_false (fun ⟨f, hf, _⟩ => by cases hf) hmem

theorem listKernel_makes : Makes listKernel where
  lstat _ _ := rfl
  made path mode s h := by
    rw [isDir_listed]
    by_cases hmem : stripTrailingSlash path ∈ s
    · simp only [listKernel, if_pos hmem] at h
      cases h
    · by_cases hparent : cutLast (stripTrailingSlash path) = [] ∨
          cutLast (stripTrailingSlash path) ∈ s
      · simp only [listKernel, if_neg hmem, if_pos hparent]
        exact List.mem_cons_self
      · simp only [listKernel, if_neg hmem, if_neg hparent] at h
        cases h
  kept path mode s q h := by
    rw [isDir_listed] at h ⊢
    simp only [listKernel]
    split
    · exact h
    · split
      · exact List.mem_cons_of_mem _ h
      · exact h
  refused _ _ _ _ _ _ _ h := h

theorem pure_loads : Loads listKernel (pure 0) := ⟨Only.pure _, fun _ _ _ h => h⟩

/-- The loop file system of `/d` is mounted, and empty. -/
def mountedLoop : List CStr := [lit "/", lit "/d", lit "/d-loop"]

def appdirA : Cfg :=
  { appdir := some (lit "/d/a"), name := none, upperdir := none, workdir := none, lowerdir := none }

/-- Killed before it mounts, a run leaves both directories to the next one. -/
theorem ready_after_first : Ready listKernel (fun _ => false) (pure 0) (lit "/r") 2 appdirA emptyCache
    (leftBy listKernel (fun _ => false) (pure 0) [⟨lit "/r", 1, appdirA, 11⟩] mountedLoop) := by
  refine (ready_after (fun _ => false) (pure 0) listKernel_makes pure_loads
    [⟨lit "/r", 1, appdirA, 11⟩] mountedLoop (lit "/r") 2 appdirA).mpr fun dirs hdirs => ?_
  have hleft : leftBy listKernel (fun _ => false) (pure 0) [⟨lit "/r", 1, appdirA, 11⟩] mountedLoop =
      lit "/d-loop/a/work" :: lit "/d-loop/a/upper" :: lit "/d-loop/a" :: mountedLoop := by decide
  rw [hleft] at hdirs ⊢
  have hprov : provisioned listKernel
      (lit "/d-loop/a/work" :: lit "/d-loop/a/upper" :: lit "/d-loop/a" :: mountedLoop) appdirA = some
      { appdir := lit "/d-loop/a", upperdir := lit "/d-loop/a/upper",
        workdir := lit "/d-loop/a/work", lowerdir := lit "/", dirsCreated := false } := by
    decide
  cases hprov.symm.trans hdirs
  exact ⟨isDir_listed.mpr (by decide), isDir_listed.mpr (by decide)⟩

/-- Killed after its tenth call, a run leaves the upper directory and no work directory;
the next one mounts as if both were there. -/
theorem wedged_by_killed :
    let s := leftBy listKernel (fun _ => false) (pure 0) [⟨lit "/r", 1, appdirA, 10⟩] mountedLoop
    ¬ Ready listKernel (fun _ => false) (pure 0) (lit "/r") 2 appdirA emptyCache s ∧
      (((setupOverlay (fun _ => false) (pure 0) (lit "/r") 2 appdirA).run emptyCache).exec
        listKernel.answer s).1.1 = -1 := by
  have hleft : leftBy listKernel (fun _ => false) (pure 0) [⟨lit "/r", 1, appdirA, 10⟩] mountedLoop =
      lit "/d-loop/a/upper" :: lit "/d-loop/a" :: mountedLoop := by decide
  have hprov : provisioned listKernel (lit "/d-loop/a/upper" :: lit "/d-loop/a" :: mountedLoop)
      appdirA = some
      { appdir := lit "/d-loop/a", upperdir := lit "/d-loop/a/upper",
        workdir := lit "/d-loop/a/work", lowerdir := lit "/", dirsCreated := false } := by
    decide
  dsimp only
  rw [hleft]
  constructor
  · rw [ready_iff_both (fun _ => false) (lit "/r") 2 appdirA listKernel_makes pure_loads
      (current_empty _) hprov]
    rintro ⟨-, hwork⟩
    rw [isDir_listed] at hwork
    revert hwork
    decide
  · decide

end Cage.Sandbox
