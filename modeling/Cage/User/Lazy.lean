import Cage.User.Lookup
import Cage.Lib.Calls

/-!
The caches of a user. `u₀` is the user as the specification left it, `u` the
same user after some calls. What `u` has looked up is what `u₀` would find, so
the order of the calls does not matter. Nothing is assumed of the databases
here: a file may be missing and a group name may stand twice.
-/

namespace Cage.User

open Cage.Util Cage.Lib

/-- The password entries; a missing file has none. -/
def passwdEntries (db : Db) (u₀ : UserT) : List Passwd :=
  (openDb db.passwd u₀.rootfs etcPasswd).getD []

def userAccount (db : Db) (u₀ : UserT) : Account := account (passwdEntries db u₀) u₀.identity

/-- The tokens once the group file has been read. -/
def settledTokens (db : Db) (u₀ : UserT) : List GroupToken :=
  match openDb db.group u₀.rootfs etcGroup with
  | none => u₀.groupTokens
  | some gf =>
      if shouldEnumerateGroups u₀ then
        (memberGids gf (u₀.name.getD [])).map fun g => { name := none, gid := g }
      else
        resolveNamedInGroup gf u₀.groupTokens

/-- The gid that the tokens give. A first token without a name needs no group
file; the others are looked at in the file only. -/
def tokensGid (db : Db) (u₀ : UserT) : Option UInt32 :=
  match firstNumeric u₀.groupTokens with
  | some g => some g
  | none =>
      match openDb db.group u₀.rootfs etcGroup with
      | none => none
      | some gf => (settledGids (resolveNamedInGroup gf u₀.groupTokens)).head?

def settledGid (db : Db) (u₀ : UserT) : UInt32 :=
  if shouldEnumerateGroups u₀ then (userAccount db u₀).gid
  else (tokensGid db u₀).getD (userAccount db u₀).loginGid

def settledGroups (db : Db) (u₀ : UserT) : List UInt32 :=
  SortedSet.ofList (settledGid db u₀ :: settledGids (settledTokens db u₀))

def settledAnswer (db : Db) (u₀ : UserT) : Call → Answer
  | .userResolve => .done
  | .getUid => .id (userAccount db u₀).uid
  | .getGid => .id (settledGid db u₀)
  | .getName => .name (userAccount db u₀).name
  | .getHome => .path ((userAccount db u₀).home.getD defaultHome)
  | .getShell => .path ((userAccount db u₀).shell.getD defaultShell)
  | .getGroups => .groups (settledGroups db u₀)

/-- The password fields hold an account. -/
structure Holds (u : UserT) (a : Account) : Prop where
  uidFilled : u.uidFilled = true
  uid : u.uid = a.uid
  gid : u.passwdGid = a.gid
  name : u.name = a.name
  home : u.home = a.home
  shell : u.shell = a.shell

/-- The password fields are those of another user. -/
structure SamePasswd (u v : UserT) : Prop where
  uidFilled : u.uidFilled = v.uidFilled
  uid : u.uid = v.uid
  name : u.name = v.name
  home : u.home = v.home
  shell : u.shell = v.shell

/-- The group fields are those of another user. -/
structure SameGroups (u v : UserT) : Prop where
  groupTokens : u.groupTokens = v.groupTokens
  gid : u.gid = v.gid
  gidFilled : u.gidFilled = v.gidFilled
  groups : u.groups = v.groups
  groupParsed : u.groupParsed = v.groupParsed

/-- The password half of a user is as at the start, or looked up. -/
structure PasswdCache (db : Db) (u₀ u : UserT) : Prop where
  rootfs : u.rootfs = u₀.rootfs
  nameGiven : u.nameGiven = u₀.nameGiven
  unparsed : u.passwdParsed = false → SamePasswd u u₀
  parsed : u.passwdParsed = true → Holds u (userAccount db u₀)

/-- The group half. Where the groups are parsed and the gid is still open, a
gid can only come from a first token that needed no lookup. -/
structure GroupCache (db : Db) (u₀ u : UserT) : Prop where
  unparsed : u.groupParsed = false →
    u.groupTokens = u₀.groupTokens ∧ u.groups = none ∧
      (u.gidFilled = true → (firstNumeric u₀.groupTokens).isSome)
  parsed : u.groupParsed = true →
    u.groupTokens = settledTokens db u₀ ∧
      (u.gidFilled = false → shouldEnumerateGroups u₀ = false ∧
        tokensGid db u₀ = firstNumeric u₀.groupTokens ∧
        firstNumeric (settledTokens db u₀) = firstNumeric u₀.groupTokens)
  gid : u.gidFilled = true → u.gid = settledGid db u₀
  groups : ∀ gs, u.groups = some gs → gs = settledGroups db u₀ ∧ u.gidFilled = true

structure Cache (db : Db) (u₀ u : UserT) : Prop where
  passwd : PasswdCache db u₀ u
  group : GroupCache db u₀ u

theorem GroupCache.of_same {db : Db} {u₀ u v : UserT} (h : GroupCache db u₀ u)
    (hs : SameGroups v u) : GroupCache db u₀ v where
  unparsed := by
    rw [hs.groupParsed, hs.groupTokens, hs.groups, hs.gidFilled]
    exact h.unparsed
  parsed := by
    rw [hs.groupParsed, hs.groupTokens, hs.gidFilled]
    exact h.parsed
  gid := by
    rw [hs.gidFilled, hs.gid]
    exact h.gid
  groups := by
    rw [hs.groups, hs.gidFilled]
    exact h.groups

theorem resolvePasswd_sameGroups (db : Db) (u : UserT) : SameGroups (resolvePasswd db u) u := by
  unfold resolvePasswd
  split
  · exact ⟨rfl, rfl, rfl, rfl, rfl⟩
  · constructor <;>
    · unfold resolvePasswdNodb resolveByUid resolveByName setRootFallback assignFromPasswd
      grind

/-- A lookup by uid, in the file or without it. -/
theorem holds_resolveByUid {u : UserT} (pf : List Passwd) (hfilled : u.uidFilled = true)
    (hname : u.name = none) (hhome : u.home = none) (hshell : u.shell = none) :
    Holds (resolveByUid u pf) (account pf (.uid u.uid)) := by
  rw [account_uid]
  unfold resolveByUid
  cases hpw : pf.find? fun pw => pw.uid = u.uid with
  | some pw =>
    have huid : pw.uid = u.uid := by simpa using List.find?_some hpw
    exact ⟨hfilled, huid.symm, rfl, rfl, rfl, rfl⟩
  | none =>
    dsimp only
    by_cases hroot : u.uid = 0
    · rw [if_pos hroot]
      constructor <;> simp [setRootFallback, Account.ofUid, hroot, hfilled, hshell]
    · rw [if_neg hroot]
      constructor <;> simp [Account.ofUid, hroot, hfilled, hname, hhome, hshell]

theorem holds_resolveByName {u : UserT} (pf : List Passwd) {n : CStr} (hname : u.name = some n)
    (hhome : u.home = none) (hshell : u.shell = none) :
    Holds (resolveByName u pf) (account pf (.name n)) := by
  have hsame : (fun pw : Passwd => decide (some pw.name = u.name)) =
      fun pw => decide (pw.name = n) := by
    funext pw
    rw [hname]
    simp
  unfold resolveByName
  rw [account_name, hsame]
  cases pf.find? fun pw => pw.name = n with
  | some pw => exact ⟨rfl, rfl, rfl, hname, rfl, rfl⟩
  | none =>
    rw [Option.none_or]
    cases pf.find? fun pw => pw.name = nobody with
    | some pw => exact ⟨rfl, rfl, rfl, hname, rfl, rfl⟩
    | none => exact ⟨rfl, rfl, rfl, hname, hhome, hshell⟩

/-- Without the file the lookup ends as in an empty one. -/
theorem resolvePasswdNodb_eq (u : UserT) :
    resolvePasswdNodb u = if u.uidFilled then resolveByUid u [] else resolveByName u [] := by
  unfold resolvePasswdNodb
  by_cases hfilled : u.uidFilled
  · by_cases huid : u.uid = 0
    · simp [hfilled, huid, resolveByUid]
    · simp [hfilled, huid, resolveByUid]
  · simp [hfilled, resolveByName]

theorem resolvePasswd_eq (db : Db) {u : UserT} (h : u.passwdParsed = false) :
    resolvePasswd db u =
      { (if u.uidFilled then resolveByUid u (passwdEntries db u)
          else resolveByName u (passwdEntries db u)) with passwdParsed := true } := by
  unfold resolvePasswd passwdEntries
  rw [if_neg (by simp [h])]
  cases openDb db.passwd u.rootfs etcPasswd with
  | none =>
    exact congrArg (fun v : UserT => { v with passwdParsed := true }) (resolvePasswdNodb_eq u)
  | some pf => rfl

theorem holds_setParsed {u : UserT} {a : Account} (h : Holds u a) :
    Holds { u with passwdParsed := true } a :=
  ⟨h.uidFilled, h.uid, h.gid, h.name, h.home, h.shell⟩

theorem resolvePasswd_of_parsed (db : Db) {u : UserT} (h : u.passwdParsed = true) :
    resolvePasswd db u = u := by
  unfold resolvePasswd
  rw [if_pos h]

theorem resolvePasswd_frame (db : Db) (u : UserT) :
    (resolvePasswd db u).rootfs = u.rootfs ∧ (resolvePasswd db u).nameGiven = u.nameGiven ∧
      (resolvePasswd db u).passwdParsed = true := by
  cases h : u.passwdParsed with
  | true =>
    rw [resolvePasswd_of_parsed db h]
    exact ⟨rfl, rfl, h⟩
  | false =>
    unfold resolvePasswd resolvePasswdNodb resolveByUid resolveByName setRootFallback
      assignFromPasswd
    grind

theorem holds_resolvePasswd {db : Db} {u₀ u : UserT} (hfresh : Fresh u₀)
    (h : PasswdCache db u₀ u) (hp : u.passwdParsed = false) :
    Holds (resolvePasswd db u) (userAccount db u₀) := by
  have hsame := h.unparsed hp
  have hhome : u.home = none := hsame.home.trans hfresh.home
  have hshell : u.shell = none := hsame.shell.trans hfresh.shell
  have hentries : passwdEntries db u = passwdEntries db u₀ := by
    unfold passwdEntries
    rw [h.rootfs]
  rw [resolvePasswd_eq db hp, hentries]
  apply holds_setParsed
  cases hgiven : u₀.nameGiven with
  | false =>
    obtain ⟨hfilled, hname⟩ := hfresh.byUid hgiven
    have hacc : userAccount db u₀ = account (passwdEntries db u₀) (.uid u.uid) := by
      unfold userAccount UserT.identity
      rw [hgiven, hsame.uid]
      rfl
    rw [if_pos (hsame.uidFilled.trans hfilled), hacc]
    exact holds_resolveByUid _ (hsame.uidFilled.trans hfilled) (hsame.name.trans hname) hhome hshell
  | true =>
    obtain ⟨hfilled, hname⟩ := hfresh.byName hgiven
    obtain ⟨n, hn⟩ := Option.isSome_iff_exists.mp hname
    have hacc : userAccount db u₀ = account (passwdEntries db u₀) (.name n) := by
      unfold userAccount UserT.identity
      rw [hgiven, hn]
      rfl
    rw [if_neg (by simp [hsame.uidFilled, hfilled]), hacc]
    exact holds_resolveByName _ (hsame.name.trans hn) hhome hshell

theorem resolvePasswd_cache {db : Db} {u₀ u : UserT} (hfresh : Fresh u₀) (h : Cache db u₀ u) :
    Cache db u₀ (resolvePasswd db u) ∧ Holds (resolvePasswd db u) (userAccount db u₀) := by
  have hholds : Holds (resolvePasswd db u) (userAccount db u₀) := by
    cases hp : u.passwdParsed with
    | true =>
      rw [resolvePasswd_of_parsed db hp]
      exact h.passwd.parsed hp
    | false => exact holds_resolvePasswd hfresh h.passwd hp
  obtain ⟨hroot, hgiven, hparsed⟩ := resolvePasswd_frame db u
  refine ⟨⟨⟨hroot.trans h.passwd.rootfs, hgiven.trans h.passwd.nameGiven, ?_, fun _ => hholds⟩,
    h.group.of_same (resolvePasswd_sameGroups db u)⟩, hholds⟩
  rw [hparsed]
  intro hp
  cases hp

/-- A write to the group fields. -/
def UserT.withGroups (u : UserT) (ts : List GroupToken) (gid : UInt32) (filled : Bool)
    (gs : Option (List UInt32)) (parsed : Bool) : UserT :=
  { u with
    groupTokens := ts, gid := gid, gidFilled := filled, groups := gs, groupParsed := parsed }

theorem PasswdCache.withGroups {db : Db} {u₀ u : UserT} (h : PasswdCache db u₀ u)
    (ts : List GroupToken) (gid : UInt32) (filled : Bool) (gs : Option (List UInt32))
    (parsed : Bool) : PasswdCache db u₀ (u.withGroups ts gid filled gs parsed) where
  rootfs := h.rootfs
  nameGiven := h.nameGiven
  unparsed hp :=
    let hs := h.unparsed hp
    ⟨hs.uidFilled, hs.uid, hs.name, hs.home, hs.shell⟩
  parsed hp :=
    let ha := h.parsed hp
    ⟨ha.uidFilled, ha.uid, ha.gid, ha.name, ha.home, ha.shell⟩

theorem account_name_name (pf : List Passwd) (n : CStr) : (account pf (.name n)).name = some n := by
  rw [account_name]
  split <;> rfl

theorem account_uid_uid (pf : List Passwd) (uid : UInt32) : (account pf (.uid uid)).uid = uid := by
  rw [account_uid]
  split
  · rename_i pw hpw
    simpa [Account.ofPasswd] using List.find?_some hpw
  · rfl

theorem userAccount_of_name {db : Db} {u₀ : UserT} {n : CStr} (hgiven : u₀.nameGiven = true)
    (hname : u₀.name = some n) : (userAccount db u₀).name = some n := by
  unfold userAccount UserT.identity
  rw [if_pos hgiven, hname]
  exact account_name_name _ n

theorem userAccount_of_uid {db : Db} {u₀ : UserT} (hgiven : u₀.nameGiven = false) :
    (userAccount db u₀).uid = u₀.uid := by
  unfold userAccount UserT.identity
  rw [if_neg (by simp [hgiven])]
  exact account_uid_uid _ u₀.uid

theorem firstNumeric_ne_nil {ts : List GroupToken} (h : (firstNumeric ts).isSome) : ts ≠ [] := by
  rintro rfl
  cases h

/-- Whether the groups are enumerated is settled by the specification. -/
theorem shouldEnumerateGroups_eq {db : Db} {u₀ u : UserT} (hfresh : Fresh u₀) (h : Cache db u₀ u)
    (hp : u.groupParsed = false) : shouldEnumerateGroups u = shouldEnumerateGroups u₀ := by
  obtain ⟨htok, -, hfilled⟩ := h.group.unparsed hp
  unfold shouldEnumerateGroups
  rw [htok, h.passwd.nameGiven, hfresh.gidFilled]
  cases hgiven : u₀.nameGiven with
  | false => simp
  | true =>
    obtain ⟨n, hn⟩ := Option.isSome_iff_exists.mp (hfresh.byName hgiven).2
    have hname : u.name.isSome = true := by
      cases hpw : u.passwdParsed with
      | true => rw [(h.passwd.parsed hpw).name, userAccount_of_name hgiven hn]; rfl
      | false => rw [(h.passwd.unparsed hpw).name, hn]; rfl
    cases hg : u.gidFilled with
    | false => rw [hname, hn]; rfl
    | true =>
      have hne := firstNumeric_ne_nil (hfilled hg)
      simp [hne]

theorem foldl_appendGroupToken (name : CStr) (gf : List Group) (u : UserT) :
    gf.foldl (fun u gr =>
        if memberOfGroup name name.length gr.mem then appendGroupToken u gr.gid else u) u =
      { u with groupTokens :=
          u.groupTokens ++ (memberGids gf name).map fun g => { name := none, gid := g } } := by
  induction gf generalizing u with
  | nil => simp [memberGids]
  | cons gr gf ih =>
    rw [List.foldl_cons, ih]
    by_cases h : name ∈ gr.mem
    · simp [(memberOfGroup_iff name gr.mem).mpr h, appendGroupToken, memberGids, h]
    · have hno : memberOfGroup name name.length gr.mem = false := by
        simpa [← memberOfGroup_iff] using h
      simp [hno, memberGids, h]

theorem resolveNamedInGroup_of_not_named {ts : List GroupToken} (gf : List Group)
    (h : hasNamedTokens ts = false) : resolveNamedInGroup gf ts = ts := by
  induction ts with
  | nil => exact resolveNamedInGroup_nil gf
  | cons t ts ih =>
    obtain ⟨name, gid⟩ := t
    simp only [hasNamedTokens, List.any_cons, Bool.or_eq_false_iff, Option.isSome_eq_false_iff,
      Option.isNone_iff_eq_none] at h
    obtain ⟨rfl, hrest⟩ := h
    rw [resolveNamedInGroup_numeric, ih hrest]

theorem find_settled (ts : List GroupToken) :
    (ts.find? fun t => t.name.isNone).map GroupToken.gid = (settledGids ts).head? := by
  induction ts with
  | nil => rfl
  | cons t ts ih =>
    obtain ⟨name, gid⟩ := t
    cases name with
    | none => rfl
    | some n => exact ih

theorem firstNumeric_eq_some {ts : List GroupToken} {g : UInt32} (h : firstNumeric ts = some g) :
    ∃ ts', ts = { name := none, gid := g } :: ts' := by
  cases ts with
  | nil => cases h
  | cons t ts =>
    obtain ⟨name, gid⟩ := t
    cases name with
    | none =>
      cases h
      exact ⟨ts, rfl⟩
    | some n => cases h

theorem firstNumeric_eq_none {ts : List GroupToken} (h : (settledGids ts).head? = none) :
    firstNumeric ts = none := by
  cases hg : firstNumeric ts with
  | none => rfl
  | some g =>
    obtain ⟨ts', rfl⟩ := firstNumeric_eq_some hg
    cases h

theorem tokensGid_of_file {db : Db} {u₀ : UserT} {gf : List Group}
    (h : openDb db.group u₀.rootfs etcGroup = some gf) :
    tokensGid db u₀ = (settledGids (resolveNamedInGroup gf u₀.groupTokens)).head? := by
  unfold tokensGid
  rw [h]
  cases hg : firstNumeric u₀.groupTokens with
  | none => rfl
  | some g =>
    obtain ⟨ts', hts⟩ := firstNumeric_eq_some hg
    rw [hts, resolveNamedInGroup_numeric]
    rfl

theorem tokensGid_of_not_named {db : Db} {u₀ : UserT}
    (h : hasNamedTokens u₀.groupTokens = false) :
    tokensGid db u₀ = firstNumeric u₀.groupTokens := by
  cases hopen : openDb db.group u₀.rootfs etcGroup with
  | none =>
    unfold tokensGid
    rw [hopen]
    cases firstNumeric u₀.groupTokens <;> rfl
  | some gf =>
    rw [tokensGid_of_file hopen, resolveNamedInGroup_of_not_named gf h]
    cases hts : u₀.groupTokens with
    | nil => rfl
    | cons t ts =>
      rw [hts] at h
      obtain ⟨name, gid⟩ := t
      simp only [hasNamedTokens, List.any_cons, Bool.or_eq_false_iff, Option.isSome_eq_false_iff,
        Option.isNone_iff_eq_none] at h
      obtain ⟨rfl, -⟩ := h
      rfl

end Cage.User
