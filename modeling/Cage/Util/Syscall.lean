import Cage.Lib.Buffer
import Cage.Lib.Program
import Cage.Util.Io

/-!
System calls as the calls of a program, for code whose steps are interleaved
with those of other processes, or that is killed between two of them. A
descriptor of a file is the number of the file it is open on.
-/

namespace Cage.Util

open Lib.Buffer Lib.Program

/-- A regular file. What was never written reads as zero. -/
structure File where
  size : Nat
  byte : Nat → UInt8
  hole : ∀ i, size ≤ i → byte i = 0

def File.empty : File := { size := 0, byte := fun _ => 0, hole := fun _ _ => rfl }

def File.slice (f : File) (off n : Nat) : ByteVec n := make n fun i => f.byte (off + i)

/-- The first `k` bytes of the buffer, at `off`. -/
def File.write (f : File) (off : Nat) {n : Nat} (d : ByteVec n) (k : Nat) : File where
  size := if k = 0 then f.size else max f.size (off + k)
  byte i := if off ≤ i ∧ i < off + k then Lib.Buffer.byte d (i - off) else f.byte i
  hole i hi := by
    by_cases hk : k = 0
    · subst hk
      rw [if_pos rfl] at hi
      rw [if_neg (by omega), f.hole i hi]
    · rw [if_neg hk] at hi
      rw [if_neg (by omega), f.hole i (by omega)]

def File.truncate (f : File) (n : Nat) : File where
  size := n
  byte i := if i < n then f.byte i else 0
  hole _ hi := if_neg (Nat.not_lt_of_le hi)

/-- What the surroundings decide about a call. A call that is not `full` fails,
or reads or writes `part` bytes only. -/
structure Choice where
  full : Bool
  part : Nat
  errno : Errno
  random : Nat → UInt8
  now : Nat

/-- The calls of the code that fills an image, on the image and for memory. -/
inductive ImgCall where
  | pread (n off : Nat)
  | pwrite (n : Nat) (data : ByteVec n) (off : Nat)
  | calloc (n : Nat)

abbrev ImgCall.Ret : ImgCall → Type
  | .pread n _ => Int × ByteVec n
  | .pwrite _ _ _ => Int
  | .calloc _ => Bool

/-- The count that a read or write of `n` bytes returns if it does not do all. -/
def shortCount (part n : Nat) : Int := if part = 0 ∨ n ≤ part then -1 else part

def ImgCall.answer (c : Choice) : (k : ImgCall) → File → k.Ret × File
  | .pread n off, f =>
      if c.full then (((min n (f.size - off) : Nat), f.slice off n), f)
      else ((shortCount c.part n, f.slice off n), f)
  | .pwrite n data off, f =>
      if c.full then ((n : Int), f.write off data n)
      else (shortCount c.part n, if n ≤ c.part then f else f.write off data c.part)
  | .calloc _, f => (c.full, f)

structure Stat where
  dev : Nat
  kind : Kind
  deriving DecidableEq, Repr

/-- A descriptor. -/
abbrev Fd := Nat

inductive Call where
  | access (path : CStr)
  | stat (path : CStr)
  | lstat (path : CStr)
  /-- the magic number of the file system, in `f_type` -/
  | statfs (path : CStr)
  | mkdir (path : CStr) (mode : Nat)
  | unlink (path : CStr)
  | rename (old new : CStr)
  /-- `open` with `O_RDWR | O_CREAT | O_EXCL` -/
  | create (path : CStr) (mode : Nat)
  /-- `open` with `O_RDONLY | O_NOFOLLOW | O_CLOEXEC` -/
  | openRead (path : CStr)
  /-- `open` with `O_RDWR | O_CLOEXEC` -/
  | openRw (path : CStr)
  | ftruncate (fd : Fd) (n : Nat)
  /-- `st_size` -/
  | fstat (fd : Fd)
  | file (fd : Fd) (k : ImgCall)
  | close (fd : Fd)
  | getrandom (n : Nat)
  | time
  /-- `find_free_loop` -/
  | loopFree
  /-- `LOOP_SET_FD` and `LOOP_SET_STATUS64` on the device of that number -/
  | loopSet (id : Nat) (fd : Fd)
  /-- the end of the use of the device, which detaches it unless it is mounted -/
  | loopClose (id : Nat)
  /-- `mount` of the ext4 file system on the loop device of that number -/
  | mountLoop (id : Nat) (target : CStr)
  | mount (source target fstype data : CStr)

abbrev Call.Ret : Call → Type
  | .access _ | .mkdir _ _ | .unlink _ | .rename _ _ | .mountLoop _ _ | .mount _ _ _ _ =>
      Option Errno
  | .stat _ | .lstat _ => Except Errno Stat
  | .statfs _ | .create _ _ | .openRead _ | .openRw _ | .fstat _ | .loopFree => Option Nat
  | .ftruncate _ _ | .loopSet _ _ => Bool
  | .file _ k => k.Ret
  | .close _ | .loopClose _ => Unit
  | .getrandom n => Option (ByteVec n)
  | .time => Nat

/-- A program with the `io_exists` cache of its process. -/
abbrev Steps := StateT (List Slot) (Prog Call Call.Ret)

def Steps.sys (k : Call) : Steps k.Ret := StateT.lift (perform k)

/-- A program that fills an image, on the image behind `fd`. -/
def onFile {A : Type} (fd : Fd) : Prog ImgCall ImgCall.Ret A → Prog Call Call.Ret A
  | .done a => .done a
  | .call k next => .call (.file fd k) fun r => onFile fd (next r)

namespace Steps

def ioCacheInvalidate (path : CStr) : Steps Unit := modify fun c => c.map (invalidateSlot path)

def ioExists (path : CStr) : Steps Int := do
  let cache ← get
  let c := ioCacheLookup cache path
  if c ≠ 2 then pure c
  else do
    let r ← sys (.access path)
    let res := accessResult r
    if res ≥ 0 then do
      modify fun cache => ioCacheStore cache path res
      pure res
    else
      pure res

def ioUnlink (path : CStr) : Steps Int := do
  let r ← sys (.unlink path)
  match r with
  | some _ => pure (-1)
  | none => do
      ioCacheInvalidate path
      pure 0

def ioUnlinkQuiet (path : CStr) : Steps Int := do
  let r ← sys (.unlink path)
  if r ≠ none ∧ r ≠ some .enoent then pure (-1)
  else do
    ioCacheInvalidate path
    pure 0

def ioIsdir (path : CStr) : Steps Int := do
  let st ← sys (.stat path)
  match st with
  | .error _ => pure (-1)
  | .ok st => pure (if st.kind = .dir then 0 else 1)

def mkdirm (path : CStr) (mode : Nat) : Steps Int := do
  let r ← sys (.mkdir path mode)
  match r with
  | some _ => pure (-1)
  | none => pure 0

def mkdirParent (mkdir : CStr → Steps Int) (path : CStr) : Steps Int :=
  match beforeLastSlash path with
  | none => pure 0
  | some len =>
      if len = 0 then pure 0
      else if len ≥ pathBuffer then pure (-1)
      else mkdir (path.take len)

def mkdirCheckExisting (path : CStr) : Steps Int := do
  let d ← ioIsdir path
  if d < 0 then pure (-1)
  else if d = 0 then pure 0
  else pure (-1)

def mkdirExisting (path : CStr) : Steps Int := do
  let r ← mkdirCheckExisting path
  if r = 0 then do
    ioCacheInvalidate path
    pure r
  else
    pure r

def mkdirDeep (mkdir : CStr → Steps Int) (path : CStr) : Steps Int := do
  let p ← mkdirParent mkdir path
  if p ≠ 0 then pure (-1)
  else do
    let r ← mkdirm path 0o755
    if r = 0 then do
      ioCacheInvalidate path
      pure r
    else
      pure r

/-- The body of `io_mkdir`, with the call for the parent as a parameter. -/
def mkdirStep (mkdir : CStr → Steps Int) (path : CStr) : Steps Int := do
  let r ← sys (.mkdir path 0o755)
  match r with
  | none => do
      ioCacheInvalidate path
      pure 0
  | some .eexist => mkdirExisting path
  | some .enoent => mkdirDeep mkdir path
  | some _ => pure (-1)

/-- `io_mkdir`, `n` calls deep at most. The parent's path is shorter. -/
def mkdirDepth : Nat → CStr → Steps Int
  | 0, _ => pure (-1)
  | n + 1, path => mkdirStep (mkdirDepth n) path

def ioMkdir (path : CStr) : Steps Int := mkdirDepth (path.length + 1) path

end Steps

section Alone

variable {S A B : Type}

/-- The calls of the programs do what those of `y` do. -/
structure SameCalls (answer : (k : Call) → S → k.Ret × S) (y : Sys S) : Prop where
  access : ∀ path s, answer (.access path) s = y.access path s
  unlink : ∀ path s, answer (.unlink path) s = y.unlink path s
  mkdir : ∀ path mode s, answer (.mkdir path mode) s = y.mkdir path mode s
  stat : ∀ path s,
    ((answer (.stat path) s).1.map Stat.kind, (answer (.stat path) s).2) = y.stat path s

/-- The program, undisturbed, does what the function does. -/
def RunsAs (answer : (k : Call) → S → k.Ret × S) (m : Steps A) (f : Io S A) : Prop :=
  ∀ w, (m.run w.cache).exec answer w.sys = (((f w).1, (f w).2.cache), (f w).2.sys)

variable {answer : (k : Call) → S → k.Ret × S} {y : Sys S}

theorem RunsAs.pure (a : A) : RunsAs answer (Pure.pure a) (Pure.pure a) := fun _ => rfl

theorem RunsAs.bind {m : Steps A} {f : Io S A} {n : A → Steps B} {g : A → Io S B}
    (hm : RunsAs answer m f) (hn : ∀ a, RunsAs answer (n a) (g a)) :
    RunsAs answer (m >>= n) (f >>= g) := by
  intro w
  rw [StateT.run_bind, exec_bind, hm w]
  exact hn (f w).1 (f w).2

/-- A call, of which the function sees what `conv` leaves of the answer. -/
theorem RunsAs.sys_bind {D : Type} {k : Call} (conv : k.Ret → D) {f : StateM S D}
    {n : k.Ret → Steps A} {g : D → Io S A} (h : ∀ s, (conv (answer k s).1, (answer k s).2) = f s)
    (hn : ∀ r, RunsAs answer (n r) (g (conv r))) :
    RunsAs answer (Steps.sys k >>= n) (Io.sys f >>= g) := by
  intro w
  have hrun : ((Steps.sys k >>= n).run w.cache).exec answer w.sys =
      ((n (answer k w.sys).1).run w.cache).exec answer (answer k w.sys).2 := rfl
  have hio : (Io.sys f >>= g) w = g (f w.sys).1 { w with sys := (f w.sys).2 } := rfl
  rw [hrun, hio, ← h]
  exact hn (answer k w.sys).1 { w with sys := (answer k w.sys).2 }

theorem RunsAs.ite {c : Prop} [Decidable c] {m n : Steps A} {f g : Io S A}
    (hm : RunsAs answer m f) (hn : RunsAs answer n g) :
    RunsAs answer (if c then m else n) (if c then f else g) := by
  split
  · exact hm
  · exact hn

theorem RunsAs.invalidate (path : CStr) :
    RunsAs answer (Steps.ioCacheInvalidate path) (ioCacheInvalidate path) := fun _ => rfl

theorem RunsAs.invalidate_pure (path : CStr) (a : A) :
    RunsAs answer (do Steps.ioCacheInvalidate path; Pure.pure a)
      (do ioCacheInvalidate path; Pure.pure a) :=
  (RunsAs.invalidate path).bind fun _ => RunsAs.pure a

theorem runsAs_ioExists (h : SameCalls answer y) (path : CStr) :
    RunsAs answer (Steps.ioExists path) (ioExists y path) := by
  have hcache : RunsAs answer (get : Steps (List Slot)) (Io.cache : Io S (List Slot)) :=
    fun _ => rfl
  have hstore (res : Int) : RunsAs answer
      (modify fun cache => ioCacheStore cache path res : Steps PUnit)
      (do let cache ← Io.cache; Io.setCache (ioCacheStore cache path res)) := fun _ => rfl
  refine hcache.bind fun cache => RunsAs.ite (RunsAs.pure _) ?_
  refine RunsAs.sys_bind id (h.access path) fun r => RunsAs.ite ?_ (RunsAs.pure _)
  exact (hstore _).bind fun _ => RunsAs.pure _

theorem runsAs_ioUnlink (h : SameCalls answer y) (path : CStr) :
    RunsAs answer (Steps.ioUnlink path) (ioUnlink y path) := by
  refine RunsAs.sys_bind id (h.unlink path) fun r => ?_
  cases r with
  | some e => exact RunsAs.pure _
  | none => exact RunsAs.invalidate_pure path _

theorem runsAs_ioUnlinkQuiet (h : SameCalls answer y) (path : CStr) :
    RunsAs answer (Steps.ioUnlinkQuiet path) (ioUnlinkQuiet y path) :=
  RunsAs.sys_bind id (h.unlink path) fun _ =>
    RunsAs.ite (RunsAs.pure _) (RunsAs.invalidate_pure path _)

theorem runsAs_ioIsdir (h : SameCalls answer y) (path : CStr) :
    RunsAs answer (Steps.ioIsdir path) (ioIsdir y path) := by
  refine RunsAs.sys_bind (Except.map Stat.kind) (h.stat path) fun st => ?_
  cases st <;> exact RunsAs.pure _

theorem runsAs_mkdirExisting (h : SameCalls answer y) (path : CStr) :
    RunsAs answer (Steps.mkdirExisting path) (mkdirExisting y path) := by
  have hcheck : RunsAs answer (Steps.mkdirCheckExisting path) (mkdirCheckExisting y path) :=
    (runsAs_ioIsdir h path).bind fun _ =>
      RunsAs.ite (RunsAs.pure _) (RunsAs.ite (RunsAs.pure _) (RunsAs.pure _))
  exact hcheck.bind fun r => RunsAs.ite (RunsAs.invalidate_pure path r) (RunsAs.pure _)

theorem runsAs_mkdirParent {mkdir : CStr → Steps Int} {mkdir' : CStr → Io S Int}
    (hmkdir : ∀ p, RunsAs answer (mkdir p) (mkdir' p)) (path : CStr) :
    RunsAs answer (Steps.mkdirParent mkdir path) (mkdirParent mkdir' path) := by
  unfold Steps.mkdirParent mkdirParent
  cases beforeLastSlash path with
  | none => exact RunsAs.pure _
  | some len => exact RunsAs.ite (RunsAs.pure _) (RunsAs.ite (RunsAs.pure _) (hmkdir _))

theorem runsAs_mkdirDeep (h : SameCalls answer y) {mkdir : CStr → Steps Int}
    {mkdir' : CStr → Io S Int} (hmkdir : ∀ p, RunsAs answer (mkdir p) (mkdir' p)) (path : CStr) :
    RunsAs answer (Steps.mkdirDeep mkdir path) (mkdirDeep y mkdir' path) := by
  have hmake : RunsAs answer (Steps.mkdirm path 0o755) (mkdirm y path 0o755) := by
    refine RunsAs.sys_bind id (h.mkdir path 0o755) fun r => ?_
    cases r <;> exact RunsAs.pure _
  refine (runsAs_mkdirParent hmkdir path).bind fun p => RunsAs.ite (RunsAs.pure _) ?_
  exact hmake.bind fun r => RunsAs.ite (RunsAs.invalidate_pure path r) (RunsAs.pure _)

/-- `io_mkdir` call by call is `io_mkdir`, however deep it goes. -/
theorem runsAs_ioMkdir (h : SameCalls answer y) (path : CStr) :
    RunsAs answer (Steps.ioMkdir path) (ioMkdir y path) := by
  have hdepth (n : Nat) (path : CStr) :
      RunsAs answer (Steps.mkdirDepth n path) (mkdirDepth y n path) := by
    induction n generalizing path with
    | zero => exact RunsAs.pure _
    | succ n ih =>
      refine RunsAs.sys_bind id (h.mkdir path 0o755) fun r => ?_
      cases r with
      | none => exact RunsAs.invalidate_pure path _
      | some e =>
        cases e with
        | eexist => exact runsAs_mkdirExisting h path
        | enoent => exact runsAs_mkdirDeep h ih path
        | eacces | other => exact RunsAs.pure _
  exact hdepth _ path

end Alone

end Cage.Util
