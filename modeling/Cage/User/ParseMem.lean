import Cage.Lib.Checked
import Cage.User.Parse

/-!
`user_new` with its memory: `src/user/user_parse.c` again, with each `malloc`,
`realloc` and `free`, and the array of tokens as the slots that were reserved for
it. A store outside of them is a fault, and so is a read of a slot that nothing was
written to. An allocation may fail; `mem_strdup` ends the process when it does. The
`int` of `count_tokens` is a `Nat`: no argument of a program is long enough to
overflow it.
-/

namespace Cage.User

open Cage.Util Cage.Lib.Checked

/-- The allocations asked for, the blocks that there are, numbered from 0, and
those that have been freed, the latest first. -/
structure Memory where
  asked : Nat
  next : Nat
  freed : List Nat
  deriving DecidableEq, Repr

def Memory.start : Memory := { asked := 0, next := 0, freed := [] }

/-- A string in a block of its own. -/
structure Str where
  id : Nat
  bytes : CStr
  deriving DecidableEq, Repr

/-- `group_token_t` in the array. -/
structure TokenMem where
  name : Option Str
  gid : UInt32
  deriving DecidableEq, Repr

/-- The array of tokens: its block, and its slots. -/
structure TokenArray where
  id : Nat
  slots : List (Option TokenMem)
  deriving DecidableEq, Repr

/-- The fields of `user_t` that the parser sets; it leaves the others zero. -/
structure UserMem where
  id : Nat
  uid : UInt32
  uidFilled : Bool
  nameGiven : Bool
  name : Option Str
  tokens : Option TokenArray
  count : Nat
  rootfs : Option Str
  deriving DecidableEq, Repr

/-- The block of `calloc`, with the root file system. -/
def UserMem.zero (id : Nat) (rootfs : Option Str) : UserMem where
  id := id
  uid := 0
  uidFilled := false
  nameGiven := false
  name := none
  tokens := none
  count := 0
  rootfs := rootfs

section Allocation

variable (ok : Nat → Bool)

/-- `malloc` and `calloc`; whether the request is met is up to `ok`. -/
def malloc : Exec Memory (Option Nat) := do
  let m ← get
  if ok m.asked then
    set { m with asked := m.asked + 1, next := m.next + 1 }
    pure (some m.next)
  else
    set { m with asked := m.asked + 1 }
    pure none

def free (block : Option Nat) : Exec Memory Unit := do
  let m ← get
  set { m with freed := block.toList ++ m.freed }

/-- `realloc` to `n` slots: the old block goes, if there is a new one. -/
def reallocTokens (old : Option TokenArray) (n : Nat) : Exec Memory (Option TokenArray) := do
  let id ← malloc ok
  match id with
  | none => pure none
  | some id => do
      free (old.map TokenArray.id)
      let kept := ((old.map TokenArray.slots).getD []).take n
      pure (some { id := id, slots := kept ++ List.replicate (n - kept.length) none })

def memStrdup (s : CStr) : Exec Memory Str := do
  let m ← get
  set { m with next := m.next + 1 }
  pure { id := m.next, bytes := s }

end Allocation

section Parser

variable (ok : Nat → Bool)

/-- `parse_one_token` on slot `n`. -/
def parseOneTokenMem (slots : List (Option TokenMem)) (n : Nat) (s : CStr) :
    Exec Memory (Int × List (Option TokenMem)) := do
  let slots ← store slots n (some { name := none, gid := 0 })
  if s.length = 0 ∨ s.length ≥ 256 then pure (-1, slots)
  else if allDigits s then
    match parseId s with
    | none => pure (-1, slots)
    | some gid => do
        let slots ← store slots n (some { name := none, gid := gid })
        pure (0, slots)
  else do
    let name ← malloc ok
    match name with
    | none => pure (-1, slots)
    | some id => do
        let slots ← store slots n (some { name := some { id := id, bytes := s }, gid := 0 })
        pure (0, slots)

/-- What the filling of the array has come to. -/
structure Filling where
  ret : Int
  slots : List (Option TokenMem)
  count : Nat
  deriving DecidableEq, Repr

def addTokenMem (slots : List (Option TokenMem)) (n : Nat) (a : CStr) : Exec Memory Filling := do
  if a.length = 0 then pure { ret := -1, slots := slots, count := n }
  else do
    let r ← parseOneTokenMem ok slots n a
    if r.1 ≠ 0 then pure { ret := -1, slots := r.2, count := n }
    else pure { ret := 0, slots := r.2, count := n + 1 }

/-- `fill_tokens`, where `a` is the part of the token that `skip_colon` has
passed. -/
def fillTokensMem (slots : List (Option TokenMem)) (n : Nat) (a : CStr) :
    CStr → Exec Memory Filling
  | [] => addTokenMem ok slots n a
  | c :: s =>
      if c = colon then do
        let r ← addTokenMem ok slots n a
        if r.ret ≠ 0 then pure r else fillTokensMem r.slots r.count [] s
      else
        fillTokensMem slots n (a ++ [c]) s

def appendTokensMem (u : UserMem) (s : Option CStr) : Exec Memory (Int × UserMem) := do
  let nt := countTokens s
  if nt = 0 then pure (0, u)
  else do
    let ng ← reallocTokens ok u.tokens (u.count + nt)
    match ng with
    | none => pure (-1, u)
    | some t => do
        let r ← fillTokensMem ok t.slots u.count [] (s.getD [])
        pure (r.ret, { u with tokens := some { t with slots := r.slots }, count := r.count })

def storeIdentityMem (u : UserMem) (ub : CStr) : Exec Memory (Int × UserMem) := do
  if allDigits ub then
    match parseId ub with
    | none => pure (-1, u)
    | some uid => pure (0, { u with uidFilled := true, uid := uid })
  else do
    let name ← memStrdup ub
    pure (0, { u with name := some name, nameGiven := true })

def parseUserIdentityMem (u : UserMem) (s : CStr) (c : Option CStr) :
    Exec Memory (Int × UserMem) := do
  let ulen := identityLength s c
  if ulen = 0 ∨ ulen ≥ 256 then pure (-1, u) else storeIdentityMem u (s.take ulen)

def parseUserBodyMem (u : UserMem) (s g : Option CStr) : Exec Memory (Int × UserMem) :=
  match s with
  | none | some [] => appendTokensMem ok { u with uidFilled := true, uid := 0 } g
  | some s => do
      let c := strchr s colon
      let r ← parseUserIdentityMem u s c
      if r.1 ≠ 0 then pure (-1, r.2)
      else do
        let r ← appendTokensMem ok r.2 g
        if r.1 ≠ 0 then pure (-1, r.2)
        else
          match c with
          | none => pure (0, r.2)
          | some rest => appendTokensMem ok r.2 (some rest.tail)

end Parser

/-- The loop of `user_free` over `k` tokens from `i` on. -/
def freeNames (slots : List (Option TokenMem)) (i : Nat) : Nat → Exec Memory Unit
  | 0 => pure ()
  | k + 1 => do
      let t ← load slots i
      match t with
      | none => fault .bounds
      | some t => do
          free (t.name.map Str.id)
          freeNames slots (i + 1) k

/-- `user_free` on a user of the parser. -/
def userFree (u : UserMem) : Exec Memory Unit := do
  free (u.name.map Str.id)
  free (u.rootfs.map Str.id)
  match u.tokens with
  | none => pure ()
  | some t => do
      freeNames t.slots 0 u.count
      free (some t.id)

def dupRootfs (r : Option CStr) : Exec Memory (Option Str) :=
  match r with
  | none => pure none
  | some r => some <$> memStrdup r

def userNewMem (ok : Nat → Bool) (s g r : Option CStr) : Exec Memory (Option UserMem) := do
  let block ← malloc ok
  match block with
  | none => pure none
  | some id => do
      let rootfs ← dupRootfs r
      let res ← parseUserBodyMem ok (UserMem.zero id rootfs) s g
      if res.1 ≠ 0 then do
        userFree res.2
        free (some id)
        pure none
      else pure (some res.2)

end Cage.User
