import Cage.User.Resolve
import Cage.Lib.SortedSet

/-!
What a `-u` and `-g` specification means under given databases: one value for
each getter, whatever was asked before.
-/

namespace Cage.User

open Cage.Util Cage.Lib

inductive Identity where
  | uid (uid : UInt32)
  | name (name : CStr)
  deriving DecidableEq, Repr

inductive Token where
  | gid (gid : UInt32)
  | name (name : CStr)
  deriving DecidableEq, Repr

structure Spec where
  identity : Identity
  tokens : List Token
  deriving DecidableEq, Repr

def GroupToken.token (t : GroupToken) : Token :=
  match t.name with
  | none => .gid t.gid
  | some n => .name n

@[simp] theorem GroupToken.token_numeric (g : UInt32) :
    GroupToken.token { name := none, gid := g } = .gid g := rfl

@[simp] theorem GroupToken.token_named (n : CStr) (g : UInt32) :
    GroupToken.token { name := some n, gid := g } = .name n := rfl

/-- The specification a fresh user carries. -/
def UserT.identity (u : UserT) : Identity :=
  if u.nameGiven then .name (u.name.getD []) else .uid u.uid

def UserT.spec (u : UserT) : Spec where
  identity := u.identity
  tokens := u.groupTokens.map GroupToken.token

/-- What the password database makes of an identity. -/
structure Account where
  uid : UInt32
  gid : UInt32
  name : Option CStr
  home : Option CStr
  shell : Option CStr
  deriving DecidableEq, Repr

def Account.ofPasswd (pw : Passwd) (name : CStr) : Account where
  uid := pw.uid
  gid := pw.gid
  name := some name
  home := some pw.dir
  shell := some pw.shell

/-- An id that is in no entry. Root has a name and a home all the same. -/
def Account.ofUid (uid : UInt32) : Account where
  uid := uid
  gid := uid
  name := if uid = 0 then some root else none
  home := if uid = 0 then some rootHome else none
  shell := none

/-- A name that is in no entry, where `nobody` is in none either. -/
def Account.unknown (name : CStr) : Account where
  uid := nobodyId
  gid := nobodyId
  name := some name
  home := none
  shell := none

def account (pf : List Passwd) : Identity → Account
  | .uid uid =>
      match pf.find? fun pw => pw.uid = uid with
      | some pw => .ofPasswd pw pw.name
      | none => .ofUid uid
  | .name n =>
      match (pf.find? fun pw => pw.name = n).or (pf.find? fun pw => pw.name = nobody) with
      | some pw => .ofPasswd pw n
      | none => .unknown n

theorem account_uid (pf : List Passwd) (uid : UInt32) :
    account pf (.uid uid) =
      match pf.find? fun pw => pw.uid = uid with
      | some pw => .ofPasswd pw pw.name
      | none => .ofUid uid := rfl

theorem account_name (pf : List Passwd) (n : CStr) :
    account pf (.name n) =
      match (pf.find? fun pw => pw.name = n).or (pf.find? fun pw => pw.name = nobody) with
      | some pw => .ofPasswd pw n
      | none => .unknown n := rfl

/-- The group of a token, when there is one. -/
def tokenGid (gf : List Group) : Token → Option UInt32
  | .gid g => some g
  | .name n => (gf.find? fun gr => gr.name = n).map Group.gid

@[simp] theorem tokenGid_gid (gf : List Group) (g : UInt32) : tokenGid gf (.gid g) = some g := rfl

theorem tokenGid_name (gf : List Group) (n : CStr) :
    tokenGid gf (.name n) = (gf.find? fun gr => gr.name = n).map Group.gid := rfl

/-- The groups that have `n` as a member. -/
def memberGids (gf : List Group) (n : CStr) : List UInt32 :=
  (gf.filter fun gr => n ∈ gr.mem).map Group.gid

/-- The gid of a user who names no group. -/
def Account.loginGid (a : Account) : UInt32 := if a.uid = 0 then 0 else a.gid

/-- The primary gid and the other gids of a specification. -/
def groupIds (pf : List Passwd) (gf : List Group) (sp : Spec) : UInt32 × List UInt32 :=
  let a := account pf sp.identity
  match sp.identity, sp.tokens with
  | .name n, [] => (a.gid, memberGids gf n)
  | _, tokens =>
      let gids := tokens.filterMap (tokenGid gf)
      (gids.head?.getD a.loginGid, gids)

/-- The answer the databases assign to a call. -/
def reference (pf : List Passwd) (gf : List Group) (sp : Spec) : Call → Answer
  | .userResolve => .done
  | .getUid => .id (account pf sp.identity).uid
  | .getGid => .id (groupIds pf gf sp).1
  | .getName => .name (account pf sp.identity).name
  | .getHome => .path ((account pf sp.identity).home.getD defaultHome)
  | .getShell => .path ((account pf sp.identity).shell.getD defaultShell)
  | .getGroups =>
      let ids := groupIds pf gf sp
      .groups (SortedSet.ofList (ids.1 :: ids.2))

end Cage.User
