import Cage.Util.CStr

/-!
The path operations of `src/util/io.c` and the `io_exists` cache of
`src/util/io_cache.c`, over the system calls they make. What a system call does
is a parameter: `Sys` lists the calls, with the state of the file system as the
state of a monad.
-/

namespace Cage.Util

inductive Errno where
  | enoent
  | eacces
  | eexist
  | other
  deriving DecidableEq, Repr

/-- `EEXIST`, where `errno` is a number. -/
def eexist : Int := 17

inductive Kind where
  | dir
  | file
  | link
  deriving DecidableEq, Repr

/-- The system calls of `io.c`. `none` and `ok` are success. -/
structure Sys (S : Type) where
  access : CStr → StateM S (Option Errno)
  stat : CStr → StateM S (Except Errno Kind)
  lstat : CStr → StateM S (Except Errno Kind)
  unlink : CStr → StateM S (Option Errno)
  rmdir : CStr → StateM S (Option Errno)
  mkdir : CStr → Nat → StateM S (Option Errno)
  chown : CStr → UInt32 → UInt32 → StateM S (Option Errno)
  /-- `open` with `O_WRONLY | O_CREAT`, closed at once -/
  creat : CStr → Nat → StateM S (Option Errno)
  /-- `opendir`, and the names that `readdir` gives before it ends -/
  readdir : CStr → StateM S (Option (List CStr))

/-- A slot of the cache: a path and the answer for it. -/
abbrev Slot := Option (CStr × Int)

structure IoState (S : Type) where
  cache : List Slot
  sys : S

abbrev Io (S : Type) := StateM (IoState S)

def Io.sys {S A : Type} (m : StateM S A) : Io S A := fun w =>
  let (a, s) := m w.sys
  (a, { w with sys := s })

def Io.cache {S : Type} : Io S (List Slot) := fun w => (w.cache, w)

def Io.setCache {S : Type} (c : List Slot) : Io S Unit := fun w => ((), { w with cache := c })

/-- `IO_CACHE_MAX`. -/
def ioCacheMax : Nat := 32

def emptyCache : List Slot := List.replicate ioCacheMax none

def holds (path : CStr) (slot : Slot) : Bool :=
  match slot with
  | none => false
  | some (p, _) => p == path

/-- The answer in the first slot that has the path, or 2. -/
def ioCacheLookup (cache : List Slot) (path : CStr) : Int :=
  match cache.find? (holds path) with
  | some (some (_, res)) => res
  | _ => 2

def ioCacheFind (cache : List Slot) (path : CStr) : Option Nat := cache.findIdx? (holds path)

def ioCacheEmpty (cache : List Slot) : Option Nat := cache.findIdx? fun slot => slot.isNone

/-- `io_cache_store`: over the slot of the path, into a free one, or else into
the first. -/
def ioCacheStore (cache : List Slot) (path : CStr) (res : Int) : List Slot :=
  match ioCacheFind cache path with
  | some i => cache.set i (some (path, res))
  | none =>
      match ioCacheEmpty cache with
      | some i => cache.set i (some (path, res))
      | none => cache.set 0 (some (path, res))

def isPrefixDir (pre path : CStr) : Bool :=
  pre.length < path.length && path.take pre.length == pre && path[pre.length]? == some slash

def pathIsRelated (a b : CStr) : Bool := a == b || isPrefixDir a b || isPrefixDir b a

def invalidateSlot (path : CStr) (slot : Slot) : Slot :=
  match slot with
  | none => none
  | some (p, res) => if pathIsRelated p path then none else some (p, res)

variable {S : Type}

def ioCacheInvalidate (path : CStr) : Io S Unit := do
  let c ← Io.cache
  Io.setCache (c.map (invalidateSlot path))

variable (k : Sys S)

/-- What `io_exists` makes of the result of `access`. -/
def accessResult : Option Errno → Int
  | none => 0
  | some .enoent => 1
  | some .eacces => 1
  | some _ => -1

def ioExists (path : CStr) : Io S Int := do
  let cache ← Io.cache
  let c := ioCacheLookup cache path
  if c ≠ 2 then pure c
  else do
    let r ← Io.sys (k.access path)
    let res := accessResult r
    if res ≥ 0 then do
      let cache ← Io.cache
      Io.setCache (ioCacheStore cache path res)
      pure res
    else
      pure res

def ioIsdir (path : CStr) : Io S Int := do
  let st ← Io.sys (k.stat path)
  match st with
  | .error _ => pure (-1)
  | .ok kind => pure (if kind = .dir then 0 else 1)

def ioUnlink (path : CStr) : Io S Int := do
  let r ← Io.sys (k.unlink path)
  match r with
  | some _ => pure (-1)
  | none => do
      ioCacheInvalidate path
      pure 0

def ioUnlinkQuiet (path : CStr) : Io S Int := do
  let r ← Io.sys (k.unlink path)
  if r ≠ none ∧ r ≠ some .enoent then pure (-1)
  else do
    ioCacheInvalidate path
    pure 0

def dot : UInt8 := 46

def isDotOrDotdot (name : CStr) : Bool := name == [dot] || name == [dot, dot]

/-- `sizeof(child)` in `rmtree_dir` and `sizeof(parent)` in `mkdir_parent`. -/
def pathBuffer : Nat := 4096

/-- The loop of `rmtree_dir` over the names of a directory; `rmtree` removes one
child. -/
def rmtreeDir (rmtree : CStr → Io S Int) (path : CStr) (rc : Int) : List CStr → Io S Int
  | [] => pure rc
  | name :: names => do
      if isDotOrDotdot name then rmtreeDir rmtree path rc names
      else do
        let child := path ++ slash :: name
        if child.length ≥ pathBuffer then rmtreeDir rmtree path (-1) names
        else do
          let r ← rmtree child
          rmtreeDir rmtree path (if r ≠ 0 then -1 else rc) names

def unlinkPath (path : CStr) : Io S Int := do
  let r ← Io.sys (k.unlink path)
  if r ≠ none ∧ r ≠ some .enoent then pure (-1) else pure 0

def isSymlinkPath (path : CStr) : Io S Bool := do
  let st ← Io.sys (k.lstat path)
  match st with
  | .error _ => pure false
  | .ok kind => pure (kind = .link)

def unlinkCached (path : CStr) : Io S Int := do
  let r ← unlinkPath k path
  if r = 0 then do
    ioCacheInvalidate path
    pure r
  else
    pure r

/-- The body of `io_rmtree`, with the call for a child as a parameter. -/
def rmtreeStep (rmtree : CStr → Io S Int) (path : CStr) : Io S Int := do
  let link ← isSymlinkPath k path
  if link then unlinkCached k path
  else do
    let d ← Io.sys (k.readdir path)
    match d with
    | none => unlinkCached k path
    | some names => do
        let rc ← rmtreeDir rmtree path 0 names
        if rc ≠ 0 then pure (-1)
        else do
          let r ← Io.sys (k.rmdir path)
          if r ≠ none ∧ r ≠ some .enoent then pure (-1)
          else do
            ioCacheInvalidate path
            pure 0

/-- `io_rmtree`, `n` calls deep at most. A child's path is longer than its
parent's and shorter than the buffer, so `pathBuffer` calls are enough. -/
def rmtreeDepth : Nat → CStr → Io S Int
  | 0, _ => pure (-1)
  | n + 1, path => rmtreeStep k (rmtreeDepth n) path

def ioRmtree (path : CStr) : Io S Int := rmtreeDepth k (pathBuffer + 1) path

def mkdirm (path : CStr) (mode : Nat) : Io S Int := do
  let r ← Io.sys (k.mkdir path mode)
  match r with
  | some _ => pure (-1)
  | none => pure 0

/-- `strrchr(path, '/')`: how much of the path stands before the last slash. -/
def beforeLastSlash (path : CStr) : Option Nat :=
  if slash ∈ path then some (path.length - 1 - path.reverse.idxOf slash) else none

def mkdirParent (mkdir : CStr → Io S Int) (path : CStr) : Io S Int :=
  match beforeLastSlash path with
  | none => pure 0
  | some len =>
      if len = 0 then pure 0
      else if len ≥ pathBuffer then pure (-1)
      else mkdir (path.take len)

def mkdirCheckExisting (path : CStr) : Io S Int := do
  let d ← ioIsdir k path
  if d < 0 then pure (-1)
  else if d = 0 then pure 0
  else pure (-1)

def mkdirExisting (path : CStr) : Io S Int := do
  let r ← mkdirCheckExisting k path
  if r = 0 then do
    ioCacheInvalidate path
    pure r
  else
    pure r

def mkdirDeep (mkdir : CStr → Io S Int) (path : CStr) : Io S Int := do
  let p ← mkdirParent mkdir path
  if p ≠ 0 then pure (-1)
  else do
    let r ← mkdirm k path 0o755
    if r = 0 then do
      ioCacheInvalidate path
      pure r
    else
      pure r

/-- The body of `io_mkdir`, with the call for the parent as a parameter. -/
def mkdirStep (mkdir : CStr → Io S Int) (path : CStr) : Io S Int := do
  let r ← Io.sys (k.mkdir path 0o755)
  match r with
  | none => do
      ioCacheInvalidate path
      pure 0
  | some .eexist => mkdirExisting k path
  | some .enoent => mkdirDeep k mkdir path
  | some _ => pure (-1)

/-- `io_mkdir`, `n` calls deep at most. The parent's path is shorter. -/
def mkdirDepth : Nat → CStr → Io S Int
  | 0, _ => pure (-1)
  | n + 1, path => mkdirStep k (mkdirDepth n) path

def ioMkdir (path : CStr) : Io S Int := mkdirDepth k (path.length + 1) path

def mkdirChown (path : CStr) (uid gid : UInt32) (mode : Nat) : Io S Int := do
  let r ← Io.sys (k.mkdir path mode)
  match r with
  | some _ => pure (-1)
  | none => do
      ioCacheInvalidate path
      if uid ≠ 0 ∨ gid ≠ 0 then do
        let c ← Io.sys (k.chown path uid gid)
        match c with
        | some _ => pure (-1)
        | none => pure 0
      else
        pure 0

/-- The loop of `mkdir_parents`, which has come to the end of `done`. At a slash
the path is cut there. -/
def mkdirParentsFrom (uid gid : UInt32) (done : CStr) : CStr → Io S Int
  | [] => pure 0
  | c :: rest =>
      if c ≠ slash then mkdirParentsFrom uid gid (done ++ [c]) rest
      else do
        let e ← ioExists k done
        if e = 0 then mkdirParentsFrom uid gid (done ++ [c]) rest
        else do
          let r ← mkdirChown k done uid gid 0o755
          if r ≠ 0 then pure (-1) else mkdirParentsFrom uid gid (done ++ [c]) rest

/-- `mkdir_parents`, whose loop starts behind the first byte. -/
def mkdirParents (path : CStr) (uid gid : UInt32) : Io S Int :=
  mkdirParentsFrom k uid gid (path.take 1) (path.drop 1)

def ioMkdirOwn (path : CStr) (uid gid : UInt32) (mode : Nat) : Io S Int := do
  let e ← ioExists k path
  if e < 0 then pure (-1)
  else if e = 0 then pure 0
  else do
    let r ← mkdirParents k path uid gid
    if r ≠ 0 then pure (-1) else mkdirChown k path uid gid mode

def ioMkdtmp (path : CStr) (sticky : Bool) : Io S Int := do
  let r ← Io.sys (k.mkdir path (if sticky then 0o1777 else 0o755))
  match r with
  | some _ => pure (-1)
  | none => do
      ioCacheInvalidate path
      pure 0

def ioTouch (path : CStr) : Io S Int := do
  let r ← Io.sys (k.creat path 0o644)
  match r with
  | some _ => pure (-1)
  | none => do
      ioCacheInvalidate path
      pure 0

theorem rmtreeDir_congr {f g : CStr → Io S Int} {path : CStr}
    (h : ∀ name, (path ++ slash :: name).length < pathBuffer →
      f (path ++ slash :: name) = g (path ++ slash :: name)) (rc : Int) (names : List CStr) :
    rmtreeDir f path rc names = rmtreeDir g path rc names := by
  induction names generalizing rc with
  | nil => rfl
  | cons name names ih =>
    unfold rmtreeDir
    by_cases hlen : (path ++ slash :: name).length ≥ pathBuffer
    · simp only [hlen, if_true, ih]
    · simp only [hlen, if_false, ih, h name (Nat.lt_of_not_ge hlen)]

/-- `rmtree_dir` calls for children whose path fits in the buffer only. -/
theorem rmtreeStep_congr {f g : CStr → Io S Int} {path : CStr}
    (h : ∀ name, (path ++ slash :: name).length < pathBuffer →
      f (path ++ slash :: name) = g (path ++ slash :: name)) :
    rmtreeStep k f path = rmtreeStep k g path := by
  unfold rmtreeStep
  simp only [rmtreeDir_congr h]

theorem rmtreeDepth_succ {n : Nat} {path : CStr} (h : pathBuffer ≤ n + path.length) :
    rmtreeDepth k (n + 2) path = rmtreeDepth k (n + 1) path := by
  induction n generalizing path with
  | zero =>
    refine rmtreeStep_congr k fun name hname => ?_
    rw [List.length_append] at hname
    omega
  | succ n ih =>
    refine rmtreeStep_congr k fun name _ => ih ?_
    rw [List.length_append, List.length_cons]
    omega

/-- The depth of `io_rmtree` is no bound: more calls do the same. -/
theorem ioRmtree_deeper (n : Nat) (path : CStr) :
    rmtreeDepth k (pathBuffer + 1 + n) path = ioRmtree k path := by
  induction n with
  | zero => rfl
  | succ n ih =>
    have hmore : rmtreeDepth k (pathBuffer + n + 2) path =
        rmtreeDepth k (pathBuffer + n + 1) path := by
      refine rmtreeDepth_succ k ?_
      omega
    rw [← ih, Nat.add_right_comm pathBuffer 1 n, ← hmore, ← Nat.add_assoc,
      Nat.add_right_comm pathBuffer 1 n]

theorem mkdirStep_congr {f g : CStr → Io S Int} {path : CStr}
    (h : ∀ parent : CStr, parent.length < path.length → f parent = g parent) :
    mkdirStep k f path = mkdirStep k g path := by
  have hparent : mkdirParent f path = mkdirParent g path := by
    unfold mkdirParent
    cases hlen : beforeLastSlash path with
    | none => rfl
    | some len =>
      have hlt : len < path.length := by
        unfold beforeLastSlash at hlen
        split at hlen
        · rename_i hmem
          have hpos := List.length_pos_of_mem hmem
          cases hlen
          omega
        · cases hlen
      have htake : (path.take len).length < path.length := by
        rw [List.length_take]
        omega
      dsimp only
      rw [h _ htake]
  unfold mkdirStep mkdirDeep
  rw [hparent]

theorem mkdirDepth_succ {n : Nat} {path : CStr} (h : path.length < n) :
    mkdirDepth k (n + 1) path = mkdirDepth k n path := by
  induction n generalizing path with
  | zero => exact absurd h (Nat.not_lt_zero _)
  | succ n ih =>
    refine mkdirStep_congr k fun parent hparent => ih ?_
    omega

theorem ioMkdir_deeper (n : Nat) (path : CStr) :
    mkdirDepth k (path.length + 1 + n) path = ioMkdir k path := by
  induction n with
  | zero => rfl
  | succ n ih =>
    rw [← ih]
    exact mkdirDepth_succ k (Nat.lt_add_right n (Nat.lt_succ_self path.length))

end Cage.Util
