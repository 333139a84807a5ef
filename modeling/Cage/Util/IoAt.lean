import Mathlib.Data.List.AList
import Cage.Util.Disk

/-!
The creators of `src/util/io_at.c`, which walk down from an open directory, and
the system calls they make on a tree with symbolic links. The process runs as
0:0. A call that follows a link leaves the tree: where it comes out is a place
beyond the root.
-/

namespace Cage.Util.At

inductive Content where
  | dir
  | file
  | link (target : CStr)
  deriving DecidableEq, Repr

structure Obj where
  content : Content
  uid : UInt32
  gid : UInt32
  deriving DecidableEq, Repr

def Obj.kind (o : Obj) : Kind :=
  match o.content with
  | .dir => .dir
  | .file => .file
  | .link _ => .link

/-- The components from the root directory down, or a path that leads elsewhere. -/
inductive Place where
  | under (l : Loc)
  | beyond (path : CStr)
  deriving DecidableEq, Repr

inductive Deed where
  | created
  | opened
  | chowned
  deriving DecidableEq, Repr

structure Touch where
  deed : Deed
  place : Place
  deriving DecidableEq, Repr

/-- The tree, the open descriptors, what has been done to objects so far, and
which of the next calls fail. -/
structure Guest where
  objs : AList fun _ : Loc => Obj
  fds : AList fun _ : Nat => Place
  touched : List Touch
  faults : List Bool
  /-- the top of the tree is the root of the whole file system, where `..` stays -/
  rooted : Bool := false

def Guest.put (g : Guest) (l : Loc) (o : Obj) : Guest := { g with objs := g.objs.insert l o }

def Guest.touch (g : Guest) (deed : Deed) (place : Place) : Guest :=
  { g with touched := g.touched ++ [{ deed := deed, place := place }] }

/-- The lowest descriptor that is not open. -/
def Guest.freshFd (g : Guest) : Nat :=
  ((List.range (g.fds.keys.length + 1)).find? fun fd => fd ∉ g.fds.keys).getD 0

def Guest.openFd (g : Guest) (place : Place) : Option Nat × Guest :=
  (some g.freshFd,
    { g.touch .opened place with fds := g.fds.insert g.freshFd place })

def tick (g : Guest) : Bool × Guest :=
  match g.faults with
  | [] => (false, g)
  | f :: faults => (f, { g with faults := faults })

/-- Where the entry `name` of the directory open as `fd` is. -/
def resolve (g : Guest) (fd : Nat) (name : CStr) (nofollow : Bool) : Option Place :=
  match g.fds.lookup fd with
  | none => none
  | some (.beyond path) => some (.beyond (path ++ slash :: name))
  | some (.under l) =>
      if name = [dot] then some (.under l)
      else if name = [dot, dot] then
        some (if l = [] ∧ g.rooted = false then .beyond name else .under l.dropLast)
      else
        match (g.objs.lookup l).map Obj.kind with
        | some .dir =>
            match (g.objs.lookup (l ++ [name])).map Obj.content with
            | some (.link target) =>
                some (if nofollow then .under (l ++ [name]) else .beyond target)
            | _ => some (.under (l ++ [name]))
        | _ => none

/-- A system call on an entry of an open directory. -/
def call {A : Type} (failed : A) (fd : Nat) (name : CStr) (nofollow : Bool)
    (f : Place → Guest → A × Guest) : StateM Guest A := fun g =>
  if (tick g).1 then (failed, (tick g).2)
  else
    match resolve (tick g).2 fd name nofollow with
    | none => (failed, (tick g).2)
    | some place => f place (tick g).2

/-- `fstatat` with `AT_SYMLINK_NOFOLLOW`. -/
def sysFstatat (fd : Nat) (name : CStr) : StateM Guest (Option Kind) :=
  call none fd name true fun place g =>
    match place with
    | .beyond _ => (none, g)
    | .under l => ((g.objs.lookup l).map Obj.kind, g)

/-- `mkdirat`, which never follows the last component. -/
def sysMkdirat (fd : Nat) (name : CStr) (_mode : Nat) : StateM Guest (Option Errno) :=
  call (some .other) fd name true fun place g =>
    match place with
    | .beyond _ => (some .other, g.touch .created place)
    | .under l =>
        match g.objs.lookup l with
        | some _ => (some .eexist, g)
        | none => (none, (g.put l { content := .dir, uid := 0, gid := 0 }).touch .created place)

/-- The id -1 leaves an owner as it is. -/
def chowned (id old : UInt32) : UInt32 := if id = 0xFFFFFFFF then old else id

/-- `fchownat` with `AT_SYMLINK_NOFOLLOW`. -/
def sysFchownat (fd : Nat) (name : CStr) (uid gid : UInt32) : StateM Guest Int :=
  call (-1) fd name true fun place g =>
    match place with
    | .beyond _ => (-1, g.touch .chowned place)
    | .under l =>
        match g.objs.lookup l with
        | none => (-1, g)
        | some o =>
            (0, (g.put l { o with uid := chowned uid o.uid, gid := chowned gid o.gid }).touch
              .chowned place)

structure OpenFlags where
  nofollow : Bool
  directory : Bool
  creat : Bool

/-- `openat`; with `creat` it opens for writing. -/
def sysOpenat (fd : Nat) (name : CStr) (flags : OpenFlags) : StateM Guest (Option Nat) :=
  call none fd name flags.nofollow fun place g =>
    match place with
    | .beyond _ => (none, g.touch .opened place)
    | .under l =>
        match (g.objs.lookup l).map Obj.kind with
        | none =>
            if flags.creat then
              ((g.put l { content := .file, uid := 0, gid := 0 }).touch .created place).openFd place
            else (none, g)
        | some .dir => if flags.creat then (none, g) else g.openFd place
        | some .file => if flags.directory then (none, g) else g.openFd place
        | some .link => (none, g)

def sysClose (fd : Nat) : StateM Guest Unit := fun g => ((), { g with fds := g.fds.erase fd })

structure Owner where
  uid : UInt32
  gid : UInt32
  deriving DecidableEq, Repr

/-- `sizeof(c->name)`. -/
def compBuffer : Nat := 256

/-- `next_comp`: what is left of the path, 1 with the component, 0 at the end or
-1 for a component that does not fit. -/
def nextComp (p : CStr) : CStr × Int × CStr :=
  let start := p.dropWhile (· = slash)
  if start = [] then (start, 0, [])
  else
    let name := start.takeWhile (· ≠ slash)
    let rest := start.dropWhile (· ≠ slash)
    if name.length ≥ compBuffer then (rest, -1, []) else (rest, 1, name)

def openComponentNofollow (dirfd : Nat) (name : CStr) : StateM Guest (Option Nat) :=
  sysOpenat dirfd name { nofollow := true, directory := true, creat := false }

def createDirComponent (dirfd : Nat) (name : CStr) (o : Owner) : StateM Guest Int := do
  let r ← sysMkdirat dirfd name 0o755
  if r ≠ none then pure (-1)
  else if o.uid ≠ 0 ∨ o.gid ≠ 0 then do
    let c ← sysFchownat dirfd name o.uid o.gid
    if c ≠ 0 then pure (-1) else pure 0
  else pure 0

def ensureDirComponent (dirfd : Nat) (name : CStr) (o : Owner) : StateM Guest (Option Nat) := do
  let st ← sysFstatat dirfd name
  match st with
  | some kind => if kind ≠ .dir then pure none else openComponentNofollow dirfd name
  | none => do
      let r ← createDirComponent dirfd name o
      if r ≠ 0 then pure none else openComponentNofollow dirfd name

def noMoreComponents (p : CStr) : Bool := (nextComp p).2.1 = 0

def releaseParent (parent rootfd : Nat) : StateM Guest Unit :=
  if parent ≠ rootfd then sysClose parent else pure ()

/-- The loop of `descend_components`, at most `n` rounds of it. A round reads at
least one byte, so `rel.length + 1` rounds are enough. -/
def descendLoop (rootfd : Nat) (o : Owner) : Nat → Nat → CStr → StateM Guest (Option (Nat × CStr))
  | 0, _, _ => pure none
  | n + 1, cur, p =>
      let c := nextComp p
      if c.2.1 > 0 then
        if noMoreComponents c.1 then pure (some (cur, c.2.2))
        else do
          let fd ← ensureDirComponent cur c.2.2 o
          match fd with
          | none => do
              releaseParent cur rootfd
              pure none
          | some fd => do
              releaseParent cur rootfd
              descendLoop rootfd o n fd c.1
      else do
        releaseParent cur rootfd
        pure none

/-- The parent directory of the last component, with that component. -/
def descendComponents (rootfd : Nat) (rel : CStr) (o : Owner) :
    StateM Guest (Option (Nat × CStr)) :=
  descendLoop rootfd o (rel.length + 1) rootfd rel

def chownLeaf (parent : Nat) (leaf : CStr) (uid gid : UInt32) : StateM Guest Int :=
  if uid = 0 ∧ gid = 0 then pure 0
  else do
    let c ← sysFchownat parent leaf uid gid
    if c ≠ 0 then pure (-1) else pure 0

def mkdirLeaf (parent : Nat) (leaf : CStr) (o : Owner) (mode : Nat) : StateM Guest Int := do
  let r ← sysMkdirat parent leaf mode
  if r ≠ none ∧ r ≠ some .eexist then pure (-1) else chownLeaf parent leaf o.uid o.gid

def ioMkdirOwnAt (rootfd : Nat) (rel : CStr) (uid gid : UInt32) (mode : Nat) :
    StateM Guest Int := do
  let d ← descendComponents rootfd rel { uid := uid, gid := gid }
  match d with
  | none => pure (-1)
  | some (parent, leaf) => do
      let r ← mkdirLeaf parent leaf { uid := uid, gid := gid } mode
      releaseParent parent rootfd
      pure r

def ioMkdirParentsAt (rootfd : Nat) (rel : CStr) (uid gid : UInt32) (mode : Nat) :
    StateM Guest Int := do
  let d ← descendComponents rootfd rel { uid := 0, gid := 0 }
  match d with
  | none => pure (-1)
  | some (parent, leaf) => do
      let r ← mkdirLeaf parent leaf { uid := uid, gid := gid } mode
      releaseParent parent rootfd
      pure r

def ioTouchAt (rootfd : Nat) (rel : CStr) (uid gid : UInt32) : StateM Guest Int := do
  let d ← descendComponents rootfd rel { uid := uid, gid := gid }
  match d with
  | none => pure (-1)
  | some (parent, leaf) => do
      let fd ← sysOpenat parent leaf { nofollow := true, directory := false, creat := true }
      match fd with
      | none => do
          releaseParent parent rootfd
          pure (-1)
      | some fd => do
          sysClose fd
          let r ← chownLeaf parent leaf uid gid
          releaseParent parent rootfd
          pure r

end Cage.Util.At
