import Mathlib.Data.List.AList
import Cage.Lib.Descent
import Cage.Util.Io

/-!
A file system without symbolic links, seen through the system calls of `io.c`
by a process that may search every directory. A file is named by the components
of its path from the root. Any call may fail: `faults` says, call by call, which
do, with an error other than those that a lookup gives.
-/

namespace Cage.Util

/-- The components from the root. -/
abbrev Loc := List CStr

inductive Node where
  | dir
  | file
  deriving DecidableEq, Repr

def Node.kind : Node → Kind
  | .dir => .dir
  | .file => .file

/-- What there is at each place. -/
abbrev TreeOf (A : Type) := AList fun _ : Loc => A

abbrev Tree := TreeOf Node

structure Disk where
  tree : Tree
  faults : List Bool

/-- The components of a path, which starts at the root; `cur` is the part of a
component that has been read. -/
def compsFrom (cur : CStr) : CStr → Loc
  | [] => if cur = [] then [] else [cur]
  | c :: s =>
      if c = slash then (if cur = [] then compsFrom [] s else cur :: compsFrom [] s)
      else compsFrom (cur ++ [c]) s

def comps (path : CStr) : Loc := compsFrom [] path

def dots : Lib.Descent.Dots CStr where
  here := [dot]
  up := [dot, dot]

/-- `NAME_MAX`. -/
def nameMax : Nat := 255

/-- The lookup of the components `cs` from `l` on. -/
def walk (t : Tree) (l : Loc) : Loc → Except Errno Node
  | [] =>
      match t.lookup l with
      | none => .error .enoent
      | some n => .ok n
  | c :: cs =>
      match t.lookup l with
      | none => .error .enoent
      | some .file => .error .other
      | some .dir => if c.length > nameMax then .error .other else walk t (l ++ [c]) cs

def Disk.find (d : Disk) (path : CStr) : Except Errno Node :=
  if path.length ≥ pathMax then .error .other else walk d.tree [] (comps path)

/-- The directory that has, or would have, an entry for the path. -/
def Disk.entry (d : Disk) (path : CStr) : Except Errno Loc :=
  if path.length ≥ pathMax then .error .other
  else
    match (comps path).getLast? with
    | none => .ok []
    | some name =>
        match walk d.tree [] (comps path).dropLast with
        | .error e => .error e
        | .ok .file => .error .other
        | .ok .dir => if name.length > nameMax then .error .other else .ok (comps path)

/-- The names in a directory. -/
def children {A : Type} (t : TreeOf A) (l : Loc) : List CStr :=
  t.keys.filterMap fun x => if x.dropLast = l then x.getLast? else none

def tick : StateM Disk Bool := fun d =>
  match d.faults with
  | [] => (false, d)
  | f :: faults => (f, { d with faults := faults })

/-- A call that only looks. -/
def look {A : Type} (failed : A) (f : Disk → A) : StateM Disk A := fun d =>
  (if (tick d).1 then failed else f (tick d).2, (tick d).2)

def setEntry (t : Tree) (l : Loc) : Option Node → Tree
  | none => t.erase l
  | some n => t.insert l n

/-- A call that changes the entry of a path. `act` gives the error, or what the
entry is afterwards. -/
def change (path : CStr) (act : Tree → Loc → Option Node → Except Errno (Option Node)) :
    StateM Disk (Option Errno) := fun d =>
  let d' := (tick d).2
  if (tick d).1 then (some .other, d')
  else
    match d'.entry path with
    | .error e => (some e, d')
    | .ok l =>
        match act d'.tree l (d'.tree.lookup l) with
        | .error e => (some e, d')
        | .ok r => (none, { d' with tree := setEntry d'.tree l r })

def unlinkEntry (_ : Tree) (_ : Loc) : Option Node → Except Errno (Option Node)
  | none => .error .enoent
  | some .dir => .error .other
  | some .file => .ok none

def rmdirEntry (t : Tree) (l : Loc) : Option Node → Except Errno (Option Node)
  | none => .error .enoent
  | some .file => .error .other
  | some .dir => if l = [] ∨ children t l ≠ [] then .error .other else .ok none

def mkdirEntry (_ : Tree) (_ : Loc) : Option Node → Except Errno (Option Node)
  | none => .ok (some .dir)
  | some _ => .error .eexist

def creatEntry (_ : Tree) (_ : Loc) : Option Node → Except Errno (Option Node)
  | none => .ok (some .file)
  | some .dir => .error .other
  | some .file => .ok (some .file)

/-- The names up to the first `readdir` that fails. -/
def readNames : List CStr → StateM Disk (List CStr)
  | [] => pure []
  | name :: names => do
      let bad ← tick
      if bad then pure []
      else do
        let rest ← readNames names
        pure (name :: rest)

def lookErrno (path : CStr) (d : Disk) : Option Errno :=
  match d.find path with
  | .ok _ => none
  | .error e => some e

def lookKind (path : CStr) (d : Disk) : Except Errno Kind := (d.find path).map Node.kind

def openDir (path : CStr) (d : Disk) : Option (List CStr) :=
  match d.find path with
  | .ok .dir => some (children d.tree (comps path))
  | _ => none

def disk : Sys Disk where
  access path := look (some .other) (lookErrno path)
  stat path := look (.error .other) (lookKind path)
  lstat path := look (.error .other) (lookKind path)
  unlink path := change path unlinkEntry
  rmdir path := change path rmdirEntry
  mkdir path _ := change path mkdirEntry
  chown path _ _ := look (some .other) (lookErrno path)
  creat path _ := change path creatEntry
  readdir path := do
    let names ← look none (openDir path)
    match names with
    | none => pure none
    | some names => do
        let names ← readNames names
        pure (some names)

/-- A name that an entry of a directory can have. -/
def ValidName (c : CStr) : Prop := c ≠ [] ∧ slash ∉ c ∧ c ≠ [dot] ∧ c ≠ [dot, dot]

instance (c : CStr) : Decidable (ValidName c) := inferInstanceAs (Decidable (_ ∧ _ ∧ _ ∧ _))

/-- A canonical absolute path, as its components. -/
structure Path where
  loc : Loc
  valid : ∀ c ∈ loc, ValidName c

def renderTail (l : Loc) : CStr := l.flatMap fun c => slash :: c

def render : Loc → CStr
  | [] => [slash]
  | c :: l => renderTail (c :: l)

def Path.str (p : Path) : CStr := render p.loc

end Cage.Util
