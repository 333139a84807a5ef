import Cage.Ext4.Create

/-!
The directory of the loop image, as the processes share it: names for files, and
the contents of the files. Every call of a process can fail, and a write can stop
short. For each file it is recorded which process has created it, and whether an
unlink of it was refused.
-/

namespace Cage.Sandbox

open Lib.Program Util

inductive Node where
  | file (f : File)
  /-- a directory, a symbolic link or anything else -/
  | other

/-- Files are numbered from 0 to `next`. -/
structure ImageFs where
  entry : CStr → Option Nat
  node : Nat → Node
  next : Nat
  maker : Nat → Option Nat
  refused : Nat → Bool
  entry_lt : ∀ name i, entry name = some i → i < next
  maker_lt : ∀ i p, maker i = some p → i < next

namespace ImageFs

/-- Nobody has done anything yet. -/
structure Fresh (s : ImageFs) : Prop where
  maker : ∀ i, s.maker i = none
  refused : ∀ i, s.refused i = false

def setNode (s : ImageFs) (i : Nat) (n : Node) : ImageFs :=
  { s with node := Function.update s.node i n }

/-- `p` creates an empty file. -/
def make (s : ImageFs) (p : Nat) (path : CStr) : ImageFs where
  entry := Function.update s.entry path (some s.next)
  node := Function.update s.node s.next (.file .empty)
  next := s.next + 1
  maker := Function.update s.maker s.next (some p)
  refused := s.refused
  entry_lt name i h := by
    by_cases hname : name = path
    · subst hname
      rw [Function.update_self] at h
      cases h
      exact Nat.lt_succ_self _
    · rw [Function.update_of_ne hname] at h
      exact Nat.lt_succ_of_lt (s.entry_lt name i h)
  maker_lt i q h := by
    by_cases hi : i = s.next
    · exact Nat.lt_succ_of_le (Nat.le_of_eq hi)
    · rw [Function.update_of_ne hi] at h
      exact Nat.lt_succ_of_lt (s.maker_lt i q h)

def remove (s : ImageFs) (path : CStr) : ImageFs :=
  { s with
    entry := Function.update s.entry path none
    entry_lt := fun name i h => by
      by_cases hname : name = path
      · subst hname
        rw [Function.update_self] at h
        cases h
      · rw [Function.update_of_ne hname] at h
        exact s.entry_lt name i h }

/-- An unlink of the file of that name has failed. -/
def refuse (s : ImageFs) (path : CStr) : ImageFs :=
  { s with refused := fun i => s.refused i || s.entry path == some i }

/-- Two names of one file stay as they are. -/
def move (s : ImageFs) (old new : CStr) : ImageFs :=
  if s.entry new = s.entry old then s
  else
    { s with
      entry := Function.update (Function.update s.entry old none) new (s.entry old)
      entry_lt := fun name i h => by
        by_cases hnew : name = new
        · subst hnew
          rw [Function.update_self] at h
          exact s.entry_lt old i h
        · rw [Function.update_of_ne hnew] at h
          by_cases hold : name = old
          · subst hold
            rw [Function.update_self] at h
            cases h
          · rw [Function.update_of_ne hold] at h
            exact s.entry_lt name i h }

section Names

variable (s : ImageFs) {path old new name : CStr}

@[simp] theorem make_self (p : Nat) : (s.make p path).entry path = some s.next :=
  Function.update_self _ _ s.entry

theorem make_of_ne (p : Nat) (h : name ≠ path) : (s.make p path).entry name = s.entry name :=
  Function.update_of_ne h _ s.entry

@[simp] theorem remove_self : (s.remove path).entry path = none :=
  Function.update_self _ _ s.entry

theorem remove_of_ne (h : name ≠ path) : (s.remove path).entry name = s.entry name :=
  Function.update_of_ne h _ s.entry

@[simp] theorem move_node : (s.move old new).node = s.node := by
  unfold move
  split <;> rfl

@[simp] theorem move_maker : (s.move old new).maker = s.maker := by
  unfold move
  split <;> rfl

@[simp] theorem move_refused : (s.move old new).refused = s.refused := by
  unfold move
  split <;> rfl

@[simp] theorem move_self : (s.move old new).entry new = s.entry old := by
  unfold move
  split
  · rename_i h
    exact h
  · exact Function.update_self _ _ _

theorem move_of_ne (hold : name ≠ old) (hnew : name ≠ new) :
    (s.move old new).entry name = s.entry name := by
  unfold move
  split
  · rfl
  · exact (Function.update_of_ne hnew _ _).trans (Function.update_of_ne hold _ s.entry)

end Names

/-- The file that an open of the path is given. -/
def opens (s : ImageFs) (path : CStr) : Option Nat :=
  match s.entry path with
  | none => none
  | some i =>
      match s.node i with
      | .file _ => some i
      | .other => none

theorem opens_some (s : ImageFs) {path : CStr} {i : Nat} (h : s.opens path = some i) :
    s.entry path = some i ∧ ∃ f, s.node i = .file f := by
  unfold opens at h
  cases hentry : s.entry path with
  | none =>
    rw [hentry] at h
    cases h
  | some k =>
    rw [hentry] at h
    cases hnode : s.node k with
    | other =>
      simp only [hnode] at h
      cases h
    | file f =>
      simp only [hnode, Option.some.injEq] at h
      subst h
      exact ⟨rfl, f, hnode⟩

/-- The answer to a call on an open file. -/
def onNode (c : Choice) (s : ImageFs) (i : Nat) (k : ImgCall) : k.Ret × ImageFs :=
  match s.node i with
  | .file f => ((ImgCall.answer c k f).1, s.setNode i (.file (ImgCall.answer c k f).2))
  | .other => ((ImgCall.answer { c with full := false } k .empty).1, s)

/-- The answers to the calls of process `p`. Those that the code of the image does
not make fail. -/
def answer (p : Nat) (c : Choice) : (k : Call) → ImageFs → k.Ret × ImageFs
  | .access path, s =>
      (if c.full then (if (s.entry path).isSome then none else some .enoent) else some c.errno, s)
  | .stat _, s => (.error c.errno, s)
  | .lstat _, s => (.error c.errno, s)
  | .statfs _, s => (none, s)
  | .mkdir _ _, s => (some c.errno, s)
  | .unlink path, s =>
      if c.full then
        (if (s.entry path).isSome then (none, s.remove path) else (some .enoent, s))
      else (some c.errno, s.refuse path)
  | .rename old new, s =>
      if c.full then
        (if (s.entry old).isSome then (none, s.move old new) else (some .enoent, s))
      else (some c.errno, s)
  | .create path _, s =>
      if c.full && (s.entry path).isNone then (some s.next, s.make p path) else (none, s)
  | .openRead path, s => (if c.full then s.opens path else none, s)
  | .openRw path, s => (if c.full then s.opens path else none, s)
  | .ftruncate fd n, s =>
      if c.full then
        match s.node fd with
        | .file f => (true, s.setNode fd (.file (f.truncate n)))
        | .other => (false, s)
      else (false, s)
  | .fstat fd, s =>
      (if c.full then
        match s.node fd with
        | .file f => some f.size
        | .other => none
       else none, s)
  | .file fd k, s => s.onNode c fd k
  | .close _, s => ((), s)
  | .getrandom n, s => (if c.full then some (Lib.Buffer.make n c.random) else none, s)
  | .time, s => (c.now, s)
  | .loopFree, s => (none, s)
  | .loopSet _ _, s => (false, s)
  | .loopClose _, s => ((), s)
  | .mountLoop _ _, s => (some c.errno, s)
  | .mount _ _ _ _, s => (some c.errno, s)

end ImageFs

end Cage.Sandbox
