import Cage.Util.CStr

/-!
`user_t` and the `-u` and `-g` grammar: `src/user/user_priv.h` and
`src/user/user_parse.c`, with every allocation succeeding.
-/

namespace Cage.User

open Cage.Util

/-- `group_token_t`. A token with a name is still to be looked up. -/
structure GroupToken where
  name : Option CStr
  gid : UInt32
  deriving DecidableEq, Repr

/-- `user_t`. -/
structure UserT where
  uid : UInt32
  uidFilled : Bool
  nameGiven : Bool
  name : Option CStr
  groupTokens : List GroupToken
  gid : UInt32
  gidFilled : Bool
  groups : Option (List UInt32)
  passwdGid : UInt32
  home : Option CStr
  shell : Option CStr
  rootfs : Option CStr
  passwdParsed : Bool
  groupParsed : Bool
  deriving DecidableEq, Repr

/-- The user that `calloc` returns. -/
def UserT.zero : UserT where
  uid := 0
  uidFilled := false
  nameGiven := false
  name := none
  groupTokens := []
  gid := 0
  gidFilled := false
  groups := none
  passwdGid := 0
  home := none
  shell := none
  rootfs := none
  passwdParsed := false
  groupParsed := false

def allDigits (s : CStr) : Bool := !s.isEmpty && s.all isDigit

/-- The digits at the front of a string, read onto `v`. -/
def readDigits (v : Nat) : CStr → Nat × CStr
  | [] => (v, [])
  | c :: s => if isDigit c then readDigits (v * 10 + (c.toNat - 48)) s else (v, c :: s)

/-- `strtoul` in base ten on a string that starts with a digit; `none` stands
for `ERANGE`. -/
def strtoul (s : CStr) : Option (Nat × CStr) :=
  let (v, rest) := readDigits 0 s
  if v > 2 ^ 64 - 1 then none else some (v, rest)

def parseId (s : CStr) : Option UInt32 :=
  match strtoul s with
  | none => none
  | some (v, rest) => if rest ≠ [] ∨ v > 2 ^ 32 - 1 then none else some (UInt32.ofNat v)

def countTokens : Option CStr → Nat
  | none => 0
  | some [] => 0
  | some s => 1 + s.count colon

def parseOneToken (s : CStr) : Option GroupToken :=
  if s.length = 0 ∨ s.length ≥ 256 then none
  else if allDigits s then (parseId s).map fun gid => { name := none, gid := gid }
  else some { name := some s, gid := 0 }

def addToken (t : List GroupToken) (a : CStr) : Option (List GroupToken) :=
  if a.length = 0 then none else (parseOneToken a).map fun tok => t ++ [tok]

/-- `fill_tokens`, where `a` is the part of the token that `skip_colon` has
passed. -/
def fillTokens (t : List GroupToken) (a : CStr) : CStr → Option (List GroupToken)
  | [] => addToken t a
  | c :: s =>
      if c = colon then
        match addToken t a with
        | none => none
        | some t' => fillTokens t' [] s
      else
        fillTokens t (a ++ [c]) s

def appendTokens (t : List GroupToken) (s : Option CStr) : Option (List GroupToken) :=
  if countTokens s = 0 then some t else fillTokens t [] (s.getD [])

def storeIdentity (u : UserT) (ub : CStr) : Option UserT :=
  if allDigits ub then
    (parseId ub).map fun uid => { u with uidFilled := true, uid := uid }
  else
    some { u with name := some ub, nameGiven := true }

/-- `ulen`: the identity is what stands before the colon, or all of `s`. -/
def identityLength (s : CStr) : Option CStr → Nat
  | some c => s.length - c.length
  | none => s.length

def parseUserIdentity (u : UserT) (s : CStr) (c : Option CStr) : Option UserT :=
  let ulen := identityLength s c
  if ulen = 0 ∨ ulen ≥ 256 then none else storeIdentity u (s.take ulen)

def parseUserBody (u : UserT) (s g : Option CStr) : Option UserT :=
  match s with
  | none | some [] =>
      (appendTokens u.groupTokens g).map fun t =>
        { u with uidFilled := true, uid := 0, groupTokens := t }
  | some s =>
      let c := strchr s colon
      match parseUserIdentity u s c with
      | none => none
      | some u =>
          match appendTokens u.groupTokens g with
          | none => none
          | some t =>
              match c with
              | none => some { u with groupTokens := t }
              | some rest =>
                  (appendTokens t (some rest.tail)).map fun t => { u with groupTokens := t }

def userNew (s g r : Option CStr) : Option UserT :=
  parseUserBody { UserT.zero with rootfs := r } s g

/-- Nothing has been looked up yet. -/
structure Fresh (u : UserT) : Prop where
  passwdParsed : u.passwdParsed = false
  groupParsed : u.groupParsed = false
  gidFilled : u.gidFilled = false
  groups : u.groups = none
  home : u.home = none
  shell : u.shell = none
  byUid : u.nameGiven = false → u.uidFilled = true ∧ u.name = none
  byName : u.nameGiven = true → u.uidFilled = false ∧ u.name.isSome = true

theorem Fresh.setTokens {u : UserT} (h : Fresh u) (t : List GroupToken) :
    Fresh { u with groupTokens := t } where
  passwdParsed := h.passwdParsed
  groupParsed := h.groupParsed
  gidFilled := h.gidFilled
  groups := h.groups
  home := h.home
  shell := h.shell
  byUid := h.byUid
  byName := h.byName

/-- The user before its identity is stored. -/
def Blank (u : UserT) : Prop := ∃ r, u = { UserT.zero with rootfs := r }

theorem storeIdentity_fresh {u u' : UserT} {ub : CStr} (hu : Blank u)
    (h : storeIdentity u ub = some u') : Fresh u' ∧ u'.rootfs = u.rootfs := by
  obtain ⟨r, rfl⟩ := hu
  unfold storeIdentity at h
  split at h
  · obtain ⟨uid, -, rfl⟩ := Option.map_eq_some_iff.mp h
    exact ⟨by constructor <;> simp [UserT.zero], rfl⟩
  · cases h
    exact ⟨by constructor <;> simp [UserT.zero], rfl⟩

theorem parseUserIdentity_fresh {u u' : UserT} {s : CStr} {c : Option CStr} (hu : Blank u)
    (h : parseUserIdentity u s c = some u') : Fresh u' ∧ u'.rootfs = u.rootfs := by
  unfold parseUserIdentity at h
  dsimp only at h
  split at h
  · cases h
  · exact storeIdentity_fresh hu h

theorem userNew_fresh {s g r : Option CStr} {u : UserT} (h : userNew s g r = some u) :
    Fresh u ∧ u.rootfs = r := by
  unfold userNew parseUserBody at h
  split at h
  · obtain ⟨t, -, rfl⟩ := Option.map_eq_some_iff.mp h
    exact ⟨by constructor <;> simp [UserT.zero], rfl⟩
  · obtain ⟨t, -, rfl⟩ := Option.map_eq_some_iff.mp h
    exact ⟨by constructor <;> simp [UserT.zero], rfl⟩
  · simp only at h
    split at h
    · cases h
    · rename_i u₁ hid
      obtain ⟨hfresh, hroot⟩ := parseUserIdentity_fresh ⟨r, rfl⟩ hid
      split at h
      · cases h
      · split at h
        · cases h
          exact ⟨hfresh.setTokens _, hroot⟩
        · obtain ⟨t, -, rfl⟩ := Option.map_eq_some_iff.mp h
          exact ⟨hfresh.setTokens _, hroot⟩

end Cage.User
