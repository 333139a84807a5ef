import Cage.Sandbox.Appdir
import Cage.Sandbox.ImageFs

/-!
A loop directory and its image, as the runs of cage share them: the files beside
the directory, the loop devices they are bound to, and the devices that are mounted
on the directory. What lies elsewhere is up to the surroundings, and so is whether a
call succeeds. A killed run leaves its devices bound. The kernel detaches those that are
not mounted, as after a `mount` that fails, and the runs with such a failure are here too.
-/

namespace Cage.Sandbox

open Lib.Program Util

structure LoopFs where
  files : ImageFs
  /-- what stands at the loop directory, under what is mounted there -/
  plain : Option Kind
  /-- the file that a loop device is bound to -/
  loops : Nat → Option Nat
  /-- the run that has bound a device last -/
  keeper : Nat → Nat
  /-- the files that have been opened to attach them -/
  opened : List Nat
  /-- the devices that are mounted on the loop directory, the last one first -/
  mounts : List Nat

/-- A loop directory, the number of the device it is on, and what a `stat` finds
elsewhere. -/
structure Site where
  loopdir : CStr
  base : Nat
  stat : LoopFs → CStr → Except Errno Stat

/-- `loop_img`. -/
def Site.img (k : Site) : CStr := k.loopdir ++ lit ".img"

/-- `st_dev` of the loop directory; each mount has a number of its own. -/
def Site.dev (k : Site) (s : LoopFs) : Nat :=
  match s.mounts with
  | [] => k.base
  | id :: _ => k.base + 1 + id

namespace LoopFs

def bind (s : LoopFs) (p id fd : Nat) : LoopFs :=
  { s with
    loops := Function.update s.loops id (some fd)
    keeper := Function.update s.keeper id p }

/-- A device that is mounted stays bound. -/
def unbind (s : LoopFs) (id : Nat) : LoopFs :=
  if id ∈ s.mounts then s else { s with loops := Function.update s.loops id none }

section Devices

variable (s : LoopFs) {p id j fd : Nat}

@[simp] theorem bind_self : (s.bind p id fd).loops id = some fd := Function.update_self _ _ _

theorem bind_of_ne (h : j ≠ id) : (s.bind p id fd).loops j = s.loops j :=
  Function.update_of_ne h _ _

@[simp] theorem bind_keeper : (s.bind p id fd).keeper id = p := Function.update_self _ _ _

theorem unbind_of_mounted (h : id ∈ s.mounts) : s.unbind id = s := if_pos h

theorem unbind_self (h : id ∉ s.mounts) : (s.unbind id).loops id = none := by
  unfold unbind
  rw [if_neg h]
  exact Function.update_self _ _ _

theorem unbind_of_ne (h : j ≠ id) : (s.unbind id).loops j = s.loops j := by
  unfold unbind
  split
  · rfl
  · exact Function.update_of_ne h _ _

@[simp] theorem unbind_files : (s.unbind id).files = s.files := by
  unfold unbind
  split <;> rfl

@[simp] theorem unbind_opened : (s.unbind id).opened = s.opened := by
  unfold unbind
  split <;> rfl

@[simp] theorem unbind_mounts : (s.unbind id).mounts = s.mounts := by
  unfold unbind
  split <;> rfl

@[simp] theorem unbind_keeper : (s.unbind id).keeper = s.keeper := by
  unfold unbind
  split <;> rfl

end Devices

/-- The answers to the calls of process `p`. -/
def answer (k : Site) (p : Nat) (c : Choice) : (call : Call) → LoopFs → call.Ret × LoopFs
  | .access path, s =>
      if path = k.img then ((s.files.answer p c (.access path)).1, s)
      else (if c.full then none else some c.errno, s)
  | .stat path, s => (if c.full then k.stat s path else .error c.errno, s)
  | .lstat path, s =>
      (if c.full ∧ path = k.loopdir then
        match s.plain with
        | none => .error .enoent
        | some kind => .ok { dev := k.dev s, kind := kind }
       else .error c.errno, s)
  | .statfs _, s => (if c.full then some c.part else none, s)
  | .openRw path, s =>
      match (s.files.answer p c (.openRw path)).1 with
      | some fd => (some fd, { s with opened := fd :: s.opened })
      | none => (none, s)
  | .mkdir path _, s =>
      if c.full = false then (some c.errno, s)
      else if path = k.loopdir then
        match s.plain with
        | none => (none, { s with plain := some .dir })
        | some _ => (some .eexist, s)
      else (none, s)
  | .loopFree, s => (if c.full ∧ s.loops c.part = none then some c.part else none, s)
  | .loopSet id fd, s =>
      if c.full ∧ s.loops id = none then (true, s.bind p id fd) else (false, s)
  | .loopClose id, s => ((), s.unbind id)
  | .mountLoop id target, s =>
      if c.full ∧ target = k.loopdir ∧ s.plain = some .dir ∧ (s.loops id).isSome then
        (none, { s with mounts := id :: s.mounts })
      else (some c.errno, s)
  | call, s => ((s.files.answer p c call).1, { s with files := (s.files.answer p c call).2 })

end LoopFs

end Cage.Sandbox
