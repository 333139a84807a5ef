import Cage.User.Parse

/-!
The databases and the getters: `src/user/user_pwd.c`, `src/user/user_resolve.c`
and `src/user/user.c`, with every allocation succeeding. A getter of the source
writes to the user it is given; here it answers with the user it leaves.
-/

namespace Cage.User

open Cage.Util

/-- `struct passwd`. -/
structure Passwd where
  name : CStr
  uid : UInt32
  gid : UInt32
  dir : CStr
  shell : CStr
  deriving DecidableEq, Repr

/-- `struct group`; an absent member array is the empty one. -/
structure Group where
  name : CStr
  gid : UInt32
  mem : List CStr
  deriving DecidableEq, Repr

/-- What `fopen` finds at a path: the entries that `fgetpwent` or `fgetgrent`
reads from the file. -/
structure Db where
  passwd : CStr → Option (List Passwd)
  group : CStr → Option (List Group)

/-- The path that `open_db` opens. -/
def dbPath (rootfs : Option CStr) (file : CStr) : Option CStr :=
  match rootfs with
  | none => none
  | some r =>
      if r.length + 1 + file.length + 1 > pathMax then none
      else if r.length > 1 ∧ r.getLast? ≠ some slash then some (r ++ [slash] ++ file)
      else some (r ++ file)

def openDb {E : Type} (files : CStr → Option (List E)) (rootfs : Option CStr) (file : CStr) :
    Option (List E) :=
  (dbPath rootfs file).bind files

def etcPasswd : CStr := lit "etc/passwd"

def etcGroup : CStr := lit "etc/group"

def root : CStr := lit "root"

def rootHome : CStr := lit "/root"

def nobody : CStr := lit "nobody"

def nobodyId : UInt32 := 65534

def defaultHome : CStr := lit "/home/.user"

def defaultShell : CStr := lit "/bin/sh"

def setRootFallback (u : UserT) : UserT :=
  { u with name := some root, home := some rootHome, passwdGid := 0 }

def resolvePasswdNodb (u : UserT) : UserT :=
  if !u.uidFilled then
    { u with uid := nobodyId, uidFilled := true, passwdGid := nobodyId }
  else if u.uid ≠ 0 then
    { u with passwdGid := u.uid }
  else
    setRootFallback u

def resolveByUid (u : UserT) (pf : List Passwd) : UserT :=
  match pf.find? fun pw => pw.uid = u.uid with
  | some pw =>
      { u with
        name := some pw.name, home := some pw.dir, shell := some pw.shell, passwdGid := pw.gid }
  | none => if u.uid = 0 then setRootFallback u else { u with passwdGid := u.uid }

def assignFromPasswd (u : UserT) (pw : Passwd) : UserT :=
  { u with
    uid := pw.uid, passwdGid := pw.gid, home := some pw.dir, shell := some pw.shell,
    uidFilled := true }

def resolveByName (u : UserT) (pf : List Passwd) : UserT :=
  match pf.find? fun pw => some pw.name = u.name with
  | some pw => assignFromPasswd u pw
  | none =>
      match pf.find? fun pw => pw.name = nobody with
      | some pw => assignFromPasswd u pw
      | none => { u with uid := nobodyId, passwdGid := nobodyId, uidFilled := true }

def resolvePasswd (db : Db) (u : UserT) : UserT :=
  if u.passwdParsed then u
  else
    let v := match openDb db.passwd u.rootfs etcPasswd with
      | none => resolvePasswdNodb u
      | some pf => if u.uidFilled then resolveByUid u pf else resolveByName u pf
    { v with passwdParsed := true }

def hasNamedTokens (tokens : List GroupToken) : Bool := tokens.any fun t => t.name.isSome

/-- The loop over the tokens for one group: it stops at the first that still
has this group's name. -/
def resolveToken (gr : Group) : List GroupToken → List GroupToken
  | [] => []
  | t :: ts =>
      if t.name = some gr.name then { name := none, gid := gr.gid } :: ts
      else t :: resolveToken gr ts

/-- `resolve_named_in_group` on the user's tokens. -/
def resolveNamedInGroup (gf : List Group) (tokens : List GroupToken) : List GroupToken :=
  gf.foldl (fun ts gr => resolveToken gr ts) tokens

def memberOfGroup (name : CStr) (namelen : Nat) (members : List CStr) : Bool :=
  members.any fun m => m.take namelen == name.take namelen && m.length == namelen

def appendGroupToken (u : UserT) (gid : UInt32) : UserT :=
  { u with groupTokens := u.groupTokens ++ [{ name := none, gid := gid }] }

def resolveGroupsEnum (db : Db) (u : UserT) : UserT :=
  let u := resolvePasswd db u
  let u := { u with gid := u.passwdGid, gidFilled := true }
  match openDb db.group u.rootfs etcGroup with
  | none => { u with groupParsed := true }
  | some gf =>
      let name := u.name.getD []
      let u := gf.foldl (fun u gr =>
        if memberOfGroup name name.length gr.mem then appendGroupToken u gr.gid else u) u
      { u with groupParsed := true }

def resolveGroupsByTokens (db : Db) (u : UserT) : UserT :=
  match openDb db.group u.rootfs etcGroup with
  | none => { u with groupParsed := true }
  | some gf =>
      let u := { u with
        groupTokens := resolveNamedInGroup gf u.groupTokens, groupParsed := true }
      match u.groupTokens.find? fun t => t.name.isNone with
      | some t => { u with gid := t.gid, gidFilled := true }
      | none => u

def shouldEnumerateGroups (u : UserT) : Bool :=
  u.groupTokens.isEmpty && !u.gidFilled && u.nameGiven && u.name.isSome

def resolveGroups (db : Db) (u : UserT) : UserT :=
  if u.groupParsed then u
  else if shouldEnumerateGroups u then resolveGroupsEnum db u
  else if !hasNamedTokens u.groupTokens then { u with groupParsed := true }
  else resolveGroupsByTokens db u

def getUid (db : Db) (u : UserT) : UInt32 × UserT :=
  if u.uidFilled then (u.uid, u)
  else
    let u := resolvePasswd db u
    (u.uid, u)

def userResolve (db : Db) (u : UserT) : UserT := resolvePasswd db u

def getName (db : Db) (u : UserT) : Option CStr × UserT :=
  if u.name.isSome then (u.name, u)
  else
    let u := if u.passwdParsed then u else resolvePasswd db u
    (u.name, u)

def getHome (db : Db) (u : UserT) : CStr × UserT :=
  let u := if u.passwdParsed then u else resolvePasswd db u
  (u.home.getD defaultHome, u)

def getShell (db : Db) (u : UserT) : CStr × UserT :=
  let u := if u.passwdParsed then u else resolvePasswd db u
  (u.shell.getD defaultShell, u)

def getGidFromPasswd (db : Db) (u : UserT) : UserT :=
  let (uid, u) := getUid db u
  let u := if u.passwdParsed then u else resolvePasswd db u
  { u with gid := if uid ≠ 0 then u.passwdGid else uid, gidFilled := true }

/-- The gid of the first token when it needs no lookup. -/
def firstNumeric : List GroupToken → Option UInt32
  | [] => none
  | t :: _ => if t.name = none then some t.gid else none

def getGid (db : Db) (u : UserT) : UInt32 × UserT :=
  if u.gidFilled then (u.gid, u)
  else
    match firstNumeric u.groupTokens with
    | some g => (g, { u with gid := g, gidFilled := true })
    | none =>
        let u := resolveGroups db u
        if u.gidFilled then (u.gid, u)
        else
          let u := getGidFromPasswd db u
          (u.gid, u)

def gidAlreadyInList (list : List UInt32) (g : UInt32) : Bool := list.any fun x => x == g

def ensurePrimaryGidInGroups (u : UserT) : UserT :=
  match u.groups with
  | some gs => if gidAlreadyInList gs u.gid then u else { u with groups := some (gs ++ [u.gid]) }
  | none => { u with groups := some [u.gid] }

def insertGidSorted (gs : List UInt32) (g : UInt32) : List UInt32 :=
  let ins := (gs.takeWhile fun x => x < g).length
  gs.take ins ++ g :: gs.drop ins

/-- One round of `append_remaining_gids`. -/
def appendRemainingGid (gid : UInt32) (gs : List UInt32) (t : GroupToken) : List UInt32 :=
  if t.name ≠ none then gs
  else if t.gid = gid then gs
  else if gidAlreadyInList gs t.gid then gs
  else insertGidSorted gs t.gid

def appendRemainingGids (u : UserT) : UserT :=
  { u with groups := u.groups.map fun gs => u.groupTokens.foldl (appendRemainingGid u.gid) gs }

def getGroups (db : Db) (u : UserT) : List UInt32 × UserT :=
  let u := resolveGroups db u
  let u := (getGid db u).2
  let u := appendRemainingGids (ensurePrimaryGidInGroups u)
  (u.groups.getD [], u)

/-- The calls of `user.h` on a user. -/
inductive Call where
  | userResolve
  | getUid
  | getGid
  | getName
  | getHome
  | getShell
  | getGroups
  deriving DecidableEq, Repr

inductive Answer where
  | done
  | id (i : UInt32)
  | name (n : Option CStr)
  | path (p : CStr)
  | groups (gs : List UInt32)
  deriving DecidableEq, Repr

def call (db : Db) (u : UserT) : Call → Answer × UserT
  | .userResolve => (.done, userResolve db u)
  | .getUid => let r := getUid db u; (.id r.1, r.2)
  | .getGid => let r := getGid db u; (.id r.1, r.2)
  | .getName => let r := getName db u; (.name r.1, r.2)
  | .getHome => let r := getHome db u; (.path r.1, r.2)
  | .getShell => let r := getShell db u; (.path r.1, r.2)
  | .getGroups => let r := getGroups db u; (.groups r.1, r.2)

end Cage.User
