import Cage.Sandbox.Appdir
import Cage.Util.IoCacheSafe

/-!
What `same_fs_detect` reads of a file system, which may be any that follows the
rule for slashes at the end of a path: they ask for a directory, and nothing else.
-/

namespace Cage.Sandbox

open Lib.Program Util

/-- What stands at a path, and the magic number of the file system it is on. -/
structure Found where
  dev : Nat
  kind : Kind
  magic : Nat
  deriving DecidableEq, Repr

/-- What stands at the paths that end in no slash, and the answers to all the
calls that do not just look at a path. -/
structure FileSystem (S : Type) where
  find : S → CStr → Except Errno Found
  other : (k : Call) → S → k.Ret × S

variable {S : Type}

namespace FileSystem

variable (fs : FileSystem S)

/-- Only a directory is found under a path with slashes at its end. -/
def resolve (s : S) (path : CStr) : Except Errno Found :=
  match fs.find s (stripTrailingSlash path) with
  | .error e => .error e
  | .ok f => if stripTrailingSlash path ≠ path ∧ f.kind ≠ .dir then .error .other else .ok f

def access (s : S) (path : CStr) : Option Errno :=
  match fs.resolve s path with
  | .error e => some e
  | .ok _ => none

def answer : (k : Call) → S → k.Ret × S
  | .access path, s => (fs.access s path, s)
  | .stat path, s => ((fs.resolve s path).map fun f => { dev := f.dev, kind := f.kind }, s)
  | .statfs path, s => ((fs.resolve s path).toOption.map Found.magic, s)
  | k, s => fs.other k s

end FileSystem

/-- What is asked for is a directory. -/
def asDir : Except Errno Found → Except Errno Found
  | .error e => .error e
  | .ok f => if f.kind = .dir then .ok f else .error .other

theorem asDir_of_dir {r : Except Errno Found} (h : ∀ f, r = .ok f → f.kind = .dir) :
    asDir r = r := by
  cases r with
  | error e => rfl
  | ok f => exact if_pos (h f rfl)

theorem asDir_of_other {f : Found} (h : f.kind ≠ .dir) : asDir (.ok f) = .error .other := if_neg h

variable {fs : FileSystem S} {s : S}

/-- More slashes at the end of a path ask for a directory. -/
theorem resolve_slashes {p : CStr} (hp : p ≠ []) (n : Nat) :
    fs.resolve s (p ++ List.replicate (n + 1) slash) = asDir (fs.resolve s p) := by
  have hne : stripTrailingSlash p ≠ p ++ List.replicate (n + 1) slash := fun h => by
    have hle := stripTrailingSlash_length_le p
    rw [h, List.length_append, List.length_replicate] at hle
    omega
  unfold FileSystem.resolve
  rw [stripTrailingSlash_slashes hp]
  cases fs.find s (stripTrailingSlash p) with
  | error e => rfl
  | ok f =>
    by_cases hdir : f.kind = .dir
    · simp [asDir, hdir]
    · simp only [ne_eq, hne, not_false_eq_true, hdir, and_true, if_true]
      split
      · rfl
      · exact (asDir_of_other hdir).symm

/-- What the process remembers of the file system is right. -/
def Current (fs : FileSystem S) (s : S) (cache : List Slot) : Prop :=
  ∀ p r, some (p, r) ∈ cache → r = accessResult (fs.access s p)

theorem Current.store {cache : List Slot} (h : Current fs s cache) (path : CStr) :
    Current fs s (ioCacheStore cache path (accessResult (fs.access s path))) := by
  intro p r hmem
  rcases mem_ioCacheStore hmem with hold | heq
  · exact h p r hold
  · cases heq
    rfl

theorem Current.lookup {cache : List Slot} (h : Current fs s cache) {path : CStr}
    (hne : ioCacheLookup cache path ≠ 2) :
    ioCacheLookup cache path = accessResult (fs.access s path) :=
  h path _ (mem_of_ioCacheLookup hne)

/-- From `s`, the program ends with `a` and changes nothing but what it remembers. -/
def Yields {A : Type} (fs : FileSystem S) (s : S) (m : Steps A) (a : A) : Prop :=
  ∀ c, Current fs s c → ∃ c', Current fs s c' ∧ (m.run c).exec fs.answer s = ((a, c'), s)

theorem Yields.pure {A : Type} (a : A) : Yields fs s (Pure.pure a) a := fun c hc => ⟨c, hc, rfl⟩

theorem Yields.bind {A B : Type} {m : Steps A} {f : A → Steps B} {a : A} {b : B}
    (hm : Yields fs s m a) (hf : Yields fs s (f a) b) : Yields fs s (m >>= f) b := by
  intro c hc
  obtain ⟨c', hc', hrun⟩ := hm c hc
  obtain ⟨d, hd, hrest⟩ := hf c' hc'
  refine ⟨d, hd, ?_⟩
  rw [StateT.run_bind, exec_bind, hrun]
  exact hrest

/-- A call that only looks. -/
theorem Yields.sys {k : Call} (h : (fs.answer k s).2 = s) :
    Yields fs s (Steps.sys k) (fs.answer k s).1 := by
  intro c hc
  refine ⟨c, hc, ?_⟩
  change (((fs.answer k s).1, c), (fs.answer k s).2) = _
  rw [h]

theorem Yields.ioExists (path : CStr) :
    Yields fs s (Steps.ioExists path) (accessResult (fs.access s path)) := by
  intro c hc
  by_cases hseen : ioCacheLookup c path = 2
  · by_cases hres : accessResult (fs.access s path) ≥ 0
    · refine ⟨_, hc.store path, ?_⟩
      change ((if ioCacheLookup c path ≠ 2 then _ else _ : Steps Int).run c).exec fs.answer s = _
      rw [if_neg (not_not.mpr hseen)]
      change ((if accessResult (fs.access s path) ≥ 0 then _ else _ : Steps Int).run c).exec
        fs.answer s = _
      rw [if_pos hres]
      rfl
    · refine ⟨c, hc, ?_⟩
      change ((if ioCacheLookup c path ≠ 2 then _ else _ : Steps Int).run c).exec fs.answer s = _
      rw [if_neg (not_not.mpr hseen)]
      change ((if accessResult (fs.access s path) ≥ 0 then _ else _ : Steps Int).run c).exec
        fs.answer s = _
      rw [if_neg hres]
      rfl
  · refine ⟨c, hc, ?_⟩
    change ((if ioCacheLookup c path ≠ 2 then _ else _ : Steps Int).run c).exec fs.answer s = _
    rw [if_pos hseen, hc.lookup hseen]
    rfl

/-- The ancestor at which `resolve_existing_parent` ends. -/
def closestExisting (fs : FileSystem S) (s : S) : Nat → CStr → Option CStr
  | 0, path => some path
  | n + 1, path =>
      if accessResult (fs.access s path) < 0 then none
      else if accessResult (fs.access s path) = 0 then some path
      else
        match beforeLastSlash path with
        | none => some path
        | some 0 => some (path.take 1)
        | some len => closestExisting fs s n (path.take len)

theorem resolveExistingParent_yields (n : Nat) (path : CStr) :
    Yields fs s (resolveExistingParent n path) (closestExisting fs s n path) := by
  induction n generalizing path with
  | zero => exact Yields.pure _
  | succ n ih =>
    unfold resolveExistingParent closestExisting
    refine Yields.bind (Yields.ioExists path) ?_
    split
    · exact Yields.pure _
    · split
      · exact Yields.pure _
      · rcases beforeLastSlash path with _ | _ | len
        · exact Yields.pure _
        · exact Yields.pure _
        · exact ih _

/-- What `stat_dev` finds out about a path and a device. -/
def sameDev (fs : FileSystem S) (s : S) (dev : Nat) (path : CStr) : Int :=
  match fs.resolve s path with
  | .error _ => -1
  | .ok f => if dev = f.dev then 1 else 0

def onOverlay (fs : FileSystem S) (s : S) (path : CStr) : Bool :=
  match fs.resolve s path with
  | .error _ => false
  | .ok f => f.magic = overlayfsSuperMagic

/-- The answer of `needs_loopback`. -/
def conflict (fs : FileSystem S) (s : S) (ap lowerdir : CStr) : Int × Nat :=
  match fs.resolve s lowerdir with
  | .error _ => (-1, 0)
  | .ok l =>
      (if isWithin ap lowerdir then sameDev fs s l.dev ap else if onOverlay fs s ap then 1 else 0,
        l.dev)

theorem stat_yields (path : CStr) :
    Yields fs s (Steps.sys (.stat path))
      ((fs.resolve s path).map fun f => ({ dev := f.dev, kind := f.kind } : Stat)) :=
  Yields.sys (k := .stat path) rfl

theorem onOverlayfs_yields (path : CStr) :
    Yields fs s (onOverlayfs path) (onOverlay fs s path) := by
  unfold onOverlayfs onOverlay
  refine Yields.bind (Yields.sys (k := .statfs path) rfl) ?_
  have hans : (fs.answer (.statfs path) s).1 = (fs.resolve s path).toOption.map Found.magic := rfl
  rw [hans]
  cases fs.resolve s path with
  | error e => exact Yields.pure _
  | ok f => exact Yields.pure _

theorem needsLoopback_yields (ap lowerdir : CStr) :
    Yields fs s (needsLoopback ap lowerdir) (conflict fs s ap lowerdir) := by
  unfold needsLoopback conflict
  refine Yields.bind (stat_yields lowerdir) ?_
  cases hlower : fs.resolve s lowerdir with
  | error e => exact Yields.pure _
  | ok l =>
    dsimp only [Except.map]
    split
    · refine Yields.bind (a := sameDev fs s l.dev ap) ?_ (Yields.pure _)
      unfold statDev sameDev
      refine Yields.bind (stat_yields lowerdir) ?_
      rw [hlower]
      refine Yields.bind (stat_yields ap) ?_
      cases fs.resolve s ap with
      | error e => exact Yields.pure _
      | ok f => exact Yields.pure _
    · exact Yields.bind (onOverlayfs_yields ap) (Yields.pure _)

/-- The answer of `same_fs_detect`. -/
def detect (fs : FileSystem S) (s : S) (lowerdir upperdir : CStr) : Int × Nat :=
  match closestExisting fs s ((cutLast upperdir).length + 1) (cutLast upperdir) with
  | none => (-1, 0)
  | some ap => conflict fs s ap lowerdir

theorem sameFsDetect_yields (lowerdir upperdir : CStr) :
    Yields fs s (sameFsDetect lowerdir upperdir) (detect fs s lowerdir upperdir) := by
  unfold sameFsDetect detect
  refine Yields.bind (resolveExistingParent_yields _ _) ?_
  cases closestExisting fs s ((cutLast upperdir).length + 1) (cutLast upperdir) with
  | none => exact Yields.pure _
  | some ap => exact needsLoopback_yields ap lowerdir

end Cage.Sandbox
