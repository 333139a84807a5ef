import Cage.Lib.Hoare
import Cage.Util.Io
import Cage.Util.MemPath
import Cage.Util.VolumeWalk

/-!
The tree of cgroups of the second version, with each process in one of them, and
`src/sandbox/cgroup_rmdir.c`, which removes a part of it.
-/

namespace Cage.Sandbox.CgroupTree

open Util

scoped instance : LawfulBEq Loc := inferInstanceAs (LawfulBEq (List CStr))

/-- The cgroups, named from the root of the file system, and where each process is. -/
structure Cgroups where
  dirs : List Loc
  procs : List (Nat × Loc)
  deriving DecidableEq, Repr

/-- What `readdir` gives of a cgroup, and what the kernel does not permit. -/
structure Kernel where
  listing : Cgroups → Loc → List CStr
  /-- the cgroup cannot be removed, although it is empty -/
  refuses : Loc → Bool
  /-- the process may be moved into the cgroup -/
  admits : Loc → Nat → Bool

/-- A process is in the cgroup, or another cgroup is. -/
def Cgroups.busy (t : Cgroups) (l : Loc) : Bool :=
  t.procs.any (fun p => p.2 = l) || t.dirs.any fun m => m ≠ [] && m.dropLast = l

def Cgroups.moved (t : Cgroups) (pid : Nat) (l : Loc) : Cgroups :=
  { t with procs := t.procs.map fun p => if p.1 = pid then (pid, l) else p }

/-- A run that does not return has no result. -/
abbrev CgM := OptionT (StateM Cgroups)

section

variable (k : Kernel)

/-- What a path leads to, if it is not too long. -/
def find (t : Cgroups) (path : CStr) : Except Errno Loc :=
  if path.length ≥ pathMax then .error .other
  else if comps path ∈ t.dirs then .ok (comps path) else .error .enoent

def opendir (path : CStr) : CgM (Except Errno (List CStr)) := fun t =>
  (some ((find t path).map (k.listing t)), t)

/-- `lstat` finds a directory. -/
def isDir (path : CStr) : CgM Bool := fun t => (some (find t path).isOk, t)

def sysRmdir (path : CStr) : CgM (Option Errno) := fun t =>
  match find t path with
  | .error e => (some (some e), t)
  | .ok l =>
      if t.busy l || k.refuses l then (some (some .other), t)
      else (some none, { t with dirs := t.dirs.filter (· ≠ l) })

/-- `rmdir_children` over the names of a directory; `recursive` is the call for a child. A
path that does not fit is cut off. -/
def rmdirChildren (recursive : CStr → CgM Int) (path : CStr) : List CStr → CgM Unit
  | [] => pure ()
  | name :: names =>
      if isDotOrDotdot name then rmdirChildren recursive path names
      else do
        let child := truncated pathMax (path ++ slash :: name)
        let dir ← isDir child
        if dir then do
          let _ ← recursive child
          rmdirChildren recursive path names
        else rmdirChildren recursive path names

/-- `cgroup_rmdir_recursive`, which does not return if it goes more than `n` calls deep. -/
def cgroupRmdirRecursive : Nat → CStr → CgM Int
  | 0, _ => failure
  | n + 1, path => do
      let d ← opendir k path
      match d with
      | .error e => pure (if e = .enoent then 0 else -1)
      | .ok names => do
          rmdirChildren (cgroupRmdirRecursive n) path names
          let r ← sysRmdir k path
          if r = none ∨ r = some .enoent then pure 0 else pure (-1)

end

end Cage.Sandbox.CgroupTree
