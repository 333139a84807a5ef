import Cage.Sandbox.OverlayReady
import Cage.Util.Rmtree

/-!
A host whose directories, files and links are seen through its mounts, and what the
calls of `ext4fix.c` do to it. Which calls fail is the kernel's to say.
-/

namespace Cage.Sandbox

open Lib.Program Util
open Util.Volume (Wf Frays bodyAt find lastOf special without)

structure Host (k : Volume.Kernel) where
  tree : Volume.Tree
  wf : Wf tree
  /-- the working directory is a directory -/
  home : bodyAt tree k.cwd = some .dir
  /-- the number of the file system that a place is on -/
  device : Loc → Nat
  /-- `f_type` of the file system with that number -/
  magic : Nat → Nat
  /-- what the image of the loop file system holds -/
  image : Volume.Tree

variable {k : Volume.Kernel}

namespace Host

variable (v : Host k)

def found (path : CStr) : Except Errno Found :=
  match find k v.tree true path with
  | .error e => .error e
  | .ok l =>
      match bodyAt v.tree l with
      | none => .error .enoent
      | some b => .ok { dev := v.device l, kind := b.kind, magic := v.magic (v.device l) }

/-- What `lstat` says. -/
def stated (path : CStr) : Except Errno Stat :=
  match find k v.tree false path with
  | .error e => .error e
  | .ok l =>
      match bodyAt v.tree l with
      | none => .error .enoent
      | some b => .ok { dev := v.device l, kind := b.kind }

/-- The path names the entry at that place. -/
def names (path : CStr) (m : Loc) : Bool :=
  match lastOf k v.tree path with
  | .error _ => false
  | .ok (l, name) => m == l ++ [name]

end Host

/-- The two hosts have the same file systems. -/
structure SameMounts (v w : Host k) : Prop where
  device : w.device = v.device
  magic : w.magic = v.magic
  image : w.image = v.image

/-- `open` with `O_CREAT | O_EXCL` has made a file. -/
def Creates (path : CStr) (v w : Host k) : Prop :=
  ∃ l name, lastOf k v.tree path = .ok (l, name) ∧ special name = false ∧
    bodyAt v.tree (l ++ [name]) = none ∧
      w.tree = v.tree.insert (l ++ [name]) { body := .file, owner := k.born (l ++ [name]) }

/-- `rename` has put a file in another's place. What it does to a directory is left open. -/
def Renames (old new : CStr) (v w : Host k) : Prop :=
  ∃ l name l' name' i, lastOf k v.tree old = .ok (l, name) ∧ lastOf k v.tree new = .ok (l', name') ∧
    v.tree.lookup (l ++ [name]) = some i ∧
      (i.body = .file → bodyAt v.tree (l' ++ [name']) ≠ some .dir ∧
        w.tree = (v.tree.erase (l ++ [name])).insert (l' ++ [name']) i)

/-- A file system is mounted at `e`, with a device number of its own: the one that the
image holds, or a new one, which has no links. -/
structure Covers (e : Loc) (dev : Nat) (v w : Host k) : Prop where
  dir : bodyAt v.tree e = some .dir
  beside : ∀ m, ¬ (e <+: m ∧ m ≠ e) → bodyAt w.tree m = bodyAt v.tree m
  inside : ∃ root : Volume.Tree, (root = v.image ∨ Volume.NoLinks root) ∧
    ∀ r, r ≠ [] → bodyAt w.tree (e ++ r) = bodyAt root r
  device : ∀ m, w.device m = if e <+: m then dev else v.device m
  fresh : ∀ m, v.device m ≠ dev
  magic : w.magic dev ≠ overlayfsSuperMagic

/-- What a call does to the host, with its answer. -/
def Effect : (call : Call) → call.Ret → Host k → Host k → Prop
  | .mkdir path _, none, v, w => Volume.mkdirAt k path v.tree = (none, w.tree) ∧ SameMounts v w
  | .unlink path, none, v, w => Volume.unlinkAt k path v.tree = (none, w.tree) ∧ SameMounts v w
  | .create path _, some _, v, w => Creates path v w ∧ SameMounts v w
  | .rename old new, none, v, w => Renames old new v w ∧ SameMounts v w
  | .mountLoop _ target, none, v, w => ∃ e dev, find k v.tree true target = .ok e ∧ Covers e dev v w
  | .mount _ _ _ _, _, _, _ => True
  | _, _, v, w => w = v

variable {S : Type}

/-- The calls are answered as by such a host. -/
structure OnHost (fs : FileSystem S) (view : S → Host k) : Prop where
  find : ∀ s path, fs.find s path = (view s).found path
  lstat : ∀ path s, fs.other (.lstat path) s = ((view s).stated path, s)
  effect : ∀ call s, Effect call (fs.other call s).1 (view s) (view (fs.other call s).2)

end Cage.Sandbox
