import Cage.Util.IoAt

/-!
A tree of directories, files and symbolic links with their owners, seen through the
system calls of `io.c` by a process that may search every directory. What is not
written in the tree (which calls are refused, and whose a new directory is) is the
kernel's to say.
-/

namespace Cage.Util.Volume

inductive Body where
  | dir
  | file
  | link (target : CStr)
  deriving DecidableEq, Repr

def Body.kind : Body → Kind
  | .dir => .dir
  | .file => .file
  | .link _ => .link

structure Owner where
  uid : UInt32
  gid : UInt32
  deriving DecidableEq, Repr

/-- The id -1 leaves what there is. -/
def Owner.chown (old new : Owner) : Owner where
  uid := At.chowned new.uid old.uid
  gid := At.chowned new.gid old.gid

structure Inode where
  body : Body
  owner : Owner
  deriving DecidableEq, Repr

abbrev Tree := TreeOf Inode

structure Kernel where
  /-- the working directory, where a relative path begins -/
  cwd : Loc
  /-- why nothing can be made there: no space, a read-only file system -/
  refuses : Tree → Loc → Option Errno
  refusesChown : Loc → Bool
  /-- the ids of the process, or the group of a set-group-ID directory above -/
  born : Loc → Owner
  /-- neither `unlink` nor `rmdir` removes it: a mount point, an immutable file -/
  keeps : Loc → Bool
  /-- `opendir` does not open it -/
  closed : Loc → Bool
  /-- `readdir` ends in front of it -/
  hides : Loc → Bool

/-- How many links are followed on the way. -/
def linksMax : Nat := 40

/-- A path ends in a slash. -/
def slashed (path : CStr) : Bool := path.getLast? == some slash

/-- The components of a path; a slash at the end asks for a directory. -/
def parts (path : CStr) : Loc := comps path ++ if slashed path then [[dot]] else []

/-- Where the lookup of a path begins. -/
def start (cwd : Loc) (path : CStr) : Loc := if path.head? = some slash then [] else cwd

def bodyAt (t : Tree) (l : Loc) : Option Body := (t.lookup l).map Inode.body

section

variable (t : Tree) (follow : Bool) (gone : Loc → Except Errno Loc)

/-- The lookup of components from a directory on; `again` goes on behind a link, and
`gone` says what it means that the last component is missing. -/
def walkWith (again : Loc → Loc → Except Errno Loc) : Loc → Loc → Except Errno Loc
  | cur, [] => .ok cur
  | cur, c :: cs =>
      if c = [dot] then walkWith again cur cs
      else if c = [dot, dot] then walkWith again cur.dropLast cs
      else if c.length > nameMax then .error .other
      else
        match bodyAt t (cur ++ [c]) with
        | none => if cs = [] then gone (cur ++ [c]) else .error .enoent
        | some .dir => walkWith again (cur ++ [c]) cs
        | some .file => if cs = [] then .ok (cur ++ [c]) else .error .other
        | some (.link target) =>
            if cs = [] ∧ follow = false then .ok (cur ++ [c])
            else again (start cur target) (parts target ++ cs)

/-- The lookup with `n` links to follow. -/
def walk : Nat → Loc → Loc → Except Errno Loc
  | 0 => walkWith t follow gone fun _ _ => .error .other
  | n + 1 => walkWith t follow gone (walk n)

end

variable (k : Kernel)

/-- A lookup of a whole path. -/
def findWith (gone : Loc → Except Errno Loc) (t : Tree) (follow : Bool) (path : CStr) :
    Except Errno Loc :=
  if path = [] then .error .enoent
  else if path.length ≥ pathMax then .error .other
  else walk t follow gone linksMax (start k.cwd path) (parts path)

/-- Where a path leads. -/
def find (t : Tree) (follow : Bool) (path : CStr) : Except Errno Loc :=
  findWith k (fun _ => .error .enoent) t follow path

/-- The directory that has the last component of a path, and that component. -/
def lastOf (t : Tree) (path : CStr) : Except Errno (Loc × CStr) :=
  if path = [] then .error .enoent
  else if path.length ≥ pathMax then .error .other
  else
    match walk t true (fun _ => .error .enoent) linksMax (start k.cwd path)
        ((comps path).dropLast ++ [[dot]]) with
    | .error e => .error e
    | .ok l =>
        let name := (comps path).getLast?.getD [dot]
        if name.length > nameMax then .error .other else .ok (l, name)

/-- The last component is no entry of a directory. -/
def special (name : CStr) : Bool := name == [dot] || name == [dot, dot]

theorem special_eq_false {name : CStr} :
    special name = false ↔ name ≠ [dot] ∧ name ≠ [dot, dot] := by
  unfold special
  rw [Bool.or_eq_false_iff, beq_eq_false_iff_ne, beq_eq_false_iff_ne]

theorem special_of_valid {name : CStr} (h : ValidName name) : special name = false :=
  special_eq_false.mpr h.2.2

def lookInode (t : Tree) (follow : Bool) (path : CStr) : Except Errno Inode :=
  match find k t follow path with
  | .error e => .error e
  | .ok l =>
      match t.lookup l with
      | none => .error .enoent
      | some i => .ok i

def lookErrno (t : Tree) (path : CStr) : Option Errno :=
  match lookInode k t true path with
  | .error e => some e
  | .ok _ => none

def lookKind (t : Tree) (follow : Bool) (path : CStr) : Except Errno Kind :=
  (lookInode k t follow path).map fun i => i.body.kind

def openDir (t : Tree) (path : CStr) : Option (List CStr) :=
  match find k t true path with
  | .error _ => none
  | .ok l =>
      if bodyAt t l = some .dir ∧ k.closed l = false then
        some ([dot] :: [dot, dot] :: (children t l).filter fun c => !k.hides (l ++ [c]))
      else
        none

def unlinkAt (path : CStr) (t : Tree) : Option Errno × Tree :=
  match lastOf k t path with
  | .error e => (some e, t)
  | .ok (l, name) =>
      if special name then (some .other, t)
      else
        match bodyAt t (l ++ [name]) with
        | none => (some .enoent, t)
        | some .dir => (some .other, t)
        | some _ =>
            if slashed path || k.keeps (l ++ [name]) then (some .other, t)
            else (none, t.erase (l ++ [name]))

def rmdirAt (path : CStr) (t : Tree) : Option Errno × Tree :=
  match lastOf k t path with
  | .error e => (some e, t)
  | .ok (l, name) =>
      if special name then (some .other, t)
      else
        match bodyAt t (l ++ [name]) with
        | none => (some .enoent, t)
        | some .dir =>
            if children t (l ++ [name]) ≠ [] ∨ k.keeps (l ++ [name]) then (some .other, t)
            else (none, t.erase (l ++ [name]))
        | some _ => (some .other, t)

def mkdirAt (path : CStr) (t : Tree) : Option Errno × Tree :=
  match lastOf k t path with
  | .error e => (some e, t)
  | .ok (l, name) =>
      if special name then (some .eexist, t)
      else
        match t.lookup (l ++ [name]) with
        | some _ => (some .eexist, t)
        | none =>
            match k.refuses t (l ++ [name]) with
            | some e => (some e, t)
            | none => (none, t.insert (l ++ [name]) { body := .dir, owner := k.born (l ++ [name]) })

def chownAt (path : CStr) (uid gid : UInt32) (t : Tree) : Option Errno × Tree :=
  match find k t true path with
  | .error e => (some e, t)
  | .ok l =>
      match t.lookup l with
      | none => (some .enoent, t)
      | some i =>
          if k.refusesChown l then (some .other, t)
          else (none, t.insert l { i with owner := i.owner.chown { uid := uid, gid := gid } })

/-- `open` with `O_CREAT` makes a missing file, behind a dangling link as well. -/
def creatAt (path : CStr) (t : Tree) : Option Errno × Tree :=
  match findWith k .ok t true path with
  | .error e => (some e, t)
  | .ok l =>
      match bodyAt t l with
      | none =>
          match k.refuses t l with
          | some e => (some e, t)
          | none => (none, t.insert l { body := .file, owner := k.born l })
      | some .file => (none, t)
      | some _ => (some .other, t)

/-- The calls of `io.c` on the tree. -/
def volume : Sys Tree where
  access path := fun t => (lookErrno k t path, t)
  stat path := fun t => (lookKind k t true path, t)
  lstat path := fun t => (lookKind k t false path, t)
  unlink path := unlinkAt k path
  rmdir path := rmdirAt k path
  mkdir path _ := mkdirAt k path
  chown path uid gid := chownAt k path uid gid
  creat path _ := creatAt k path
  readdir path := fun t => (openDir k t path, t)

/-- The root is a directory, what is in the tree is in a directory of it, and the names
are names. -/
structure Wf (t : Tree) : Prop where
  root : bodyAt t [] = some .dir
  parent : ∀ l c, bodyAt t (l ++ [c]) ≠ none → bodyAt t l = some .dir
  names : ∀ l c, bodyAt t (l ++ [c]) ≠ none → ValidName c ∧ c.length ≤ nameMax

def NoLinks (t : Tree) : Prop := ∀ l target, bodyAt t l ≠ some (.link target)

def rootIds : Owner where
  uid := 0
  gid := 0

/-- Nothing is refused. -/
def freeKernel : Kernel where
  cwd := []
  refuses _ _ := none
  refusesChown _ := false
  born _ := rootIds
  keeps _ := false
  closed _ := false
  hides _ := false

def bareTree : Tree := AList.singleton [] { body := .dir, owner := rootIds }

theorem bodyAt_bare (l : Loc) : bodyAt bareTree l = if l = [] then some .dir else none := by
  unfold bodyAt
  split
  · rename_i h
    rw [h]
    rfl
  · rename_i h
    have hnone : bareTree.lookup l = none := by
      unfold bareTree
      rw [AList.lookup_eq_none, AList.mem_keys, AList.keys_singleton, List.mem_singleton]
      exact h
    rw [hnone]
    rfl

theorem bare_wf : Wf bareTree where
  root := rfl
  parent l c h := by
    rw [bodyAt_bare, if_neg (List.concat_ne_nil c l)] at h
    exact absurd rfl h
  names l c h := by
    rw [bodyAt_bare, if_neg (List.concat_ne_nil c l)] at h
    exact absurd rfl h

end Cage.Util.Volume
