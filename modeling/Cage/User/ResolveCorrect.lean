import Cage.User.Getters

/-!
With both databases at hand and no group name twice, the getters answer as the
documentation says.
-/

namespace Cage.User

open Cage.Util Cage.Lib

theorem shouldEnumerateGroups_fresh {u : UserT} (hfresh : Fresh u) :
    shouldEnumerateGroups u = (u.groupTokens.isEmpty && u.nameGiven) := by
  unfold shouldEnumerateGroups
  rw [hfresh.gidFilled]
  cases hgiven : u.nameGiven with
  | false => simp
  | true => simp [(hfresh.byName hgiven).2]

theorem groupIds_enum {pf : List Passwd} {gf : List Group} {u : UserT} (hfresh : Fresh u)
    (h : shouldEnumerateGroups u = true) :
    groupIds pf gf u.spec = ((account pf u.identity).gid, memberGids gf (u.name.getD [])) := by
  rw [shouldEnumerateGroups_fresh hfresh, Bool.and_eq_true, List.isEmpty_iff] at h
  unfold groupIds UserT.spec UserT.identity
  simp [h.1, h.2]

theorem groupIds_tokens {pf : List Passwd} {gf : List Group} {u : UserT} (hfresh : Fresh u)
    (h : shouldEnumerateGroups u = false) :
    groupIds pf gf u.spec =
      let gids := (u.groupTokens.map GroupToken.token).filterMap (tokenGid gf)
      (gids.head?.getD (account pf u.identity).loginGid, gids) := by
  rw [shouldEnumerateGroups_fresh hfresh, Bool.and_eq_false_iff] at h
  unfold groupIds UserT.spec UserT.identity
  rcases h with h | h
  · cases htok : u.groupTokens with
    | nil => simp [htok] at h
    | cons t ts => simp
  · simp [h]

theorem settledGids_map_numeric (gids : List UInt32) :
    settledGids (gids.map fun g => { name := none, gid := g }) = gids := by
  induction gids with
  | nil => rfl
  | cons g gids ih => rw [List.map_cons, settledGids_numeric, ih]

section BothFiles

variable {db : Db} {u : UserT} {pf : List Passwd} {gf : List Group}
variable (hfresh : Fresh u) (hp : openDb db.passwd u.rootfs etcPasswd = some pf)
variable (hg : openDb db.group u.rootfs etcGroup = some gf)
variable (hdistinct : (gf.map Group.name).Nodup)

include hp in
theorem userAccount_reference : userAccount db u = account pf u.spec.identity := by
  unfold userAccount passwdEntries
  rw [hp]
  rfl

include hfresh hp hg hdistinct in
theorem settledGid_reference : settledGid db u = (groupIds pf gf u.spec).1 := by
  unfold settledGid
  rw [userAccount_reference hp]
  cases henum : shouldEnumerateGroups u with
  | true =>
    rw [groupIds_enum hfresh henum]
    rfl
  | false =>
    rw [groupIds_tokens hfresh henum, tokensGid_of_file hg, head_settledGids hdistinct]
    rfl

include hfresh hg hdistinct in
theorem mem_settledTokens_reference (g : UInt32) :
    g ∈ settledGids (settledTokens db u) ↔ g ∈ (groupIds pf gf u.spec).2 := by
  unfold settledTokens
  rw [hg]
  cases henum : shouldEnumerateGroups u with
  | true =>
    rw [groupIds_enum hfresh henum]
    exact iff_of_eq (congrArg (g ∈ ·) (settledGids_map_numeric _))
  | false =>
    rw [groupIds_tokens hfresh henum]
    exact mem_settledGids hdistinct u.groupTokens g

include hfresh hp hg hdistinct in
theorem settledGroups_reference :
    settledGroups db u =
      SortedSet.ofList ((groupIds pf gf u.spec).1 :: (groupIds pf gf u.spec).2) := by
  unfold settledGroups
  refine SortedSet.eq_ofList (SortedSet.increasing_ofList _) fun g => ?_
  rw [SortedSet.mem_ofList, List.mem_cons, List.mem_cons,
    settledGid_reference hfresh hp hg hdistinct, mem_settledTokens_reference hfresh hg hdistinct]

include hfresh hp hg hdistinct in
theorem settledAnswer_reference (k : Call) : settledAnswer db u k = reference pf gf u.spec k := by
  cases k with
  | userResolve => rfl
  | getUid => exact congrArg (Answer.id ·.uid) (userAccount_reference hp)
  | getGid => exact congrArg Answer.id (settledGid_reference hfresh hp hg hdistinct)
  | getName => exact congrArg (Answer.name ·.name) (userAccount_reference hp)
  | getHome => exact congrArg (Answer.path <| ·.home.getD defaultHome) (userAccount_reference hp)
  | getShell => exact congrArg (Answer.path <| ·.shell.getD defaultShell) (userAccount_reference hp)
  | getGroups => exact congrArg Answer.groups (settledGroups_reference hfresh hp hg hdistinct)

end BothFiles

/-- The group lists the reference gives are increasing, and hold the primary
gid and the resolved or enumerated groups. -/
theorem reference_groups {pf : List Passwd} {gf : List Group} {sp : Spec} {k : Call}
    {ids : List UInt32} (h : reference pf gf sp k = .groups ids) :
    SortedSet.Increasing ids ∧
      ∀ g, g ∈ ids ↔ g = (groupIds pf gf sp).1 ∨ g ∈ (groupIds pf gf sp).2 := by
  cases k with
  | getGroups =>
    cases h
    refine ⟨SortedSet.increasing_ofList _, fun g => ?_⟩
    rw [SortedSet.mem_ofList, List.mem_cons]
  | _ => cases h

/-- Every list of calls on an accepted user is answered from the databases
alone, and `get_groups` gives an increasing list. -/
theorem getters_reference {s g r : Option CStr} {u : UserT} {db : Db} {pf : List Passwd}
    {gf : List Group} (hnew : userNew s g r = some u)
    (hp : openDb db.passwd r etcPasswd = some pf) (hg : openDb db.group r etcGroup = some gf)
    (hdistinct : (gf.map Group.name).Nodup) (ks : List Call) :
    Calls.answers (call db) u ks = ks.map (reference pf gf u.spec) ∧
      ∀ ids, Answer.groups ids ∈ Calls.answers (call db) u ks →
        SortedSet.Increasing ids ∧
          ∀ i, i ∈ ids ↔ i = (groupIds pf gf u.spec).1 ∨ i ∈ (groupIds pf gf u.spec).2 := by
  obtain ⟨hfresh, hroot⟩ := userNew_fresh hnew
  rw [← hroot] at hp hg
  have hanswers : Calls.answers (call db) u ks = ks.map (reference pf gf u.spec) := by
    rw [answers_settled db hfresh]
    exact List.map_congr_left fun k _ => settledAnswer_reference hfresh hp hg hdistinct k
  refine ⟨hanswers, fun ids hids => ?_⟩
  rw [hanswers] at hids
  obtain ⟨k, -, hk⟩ := List.mem_map.mp hids
  exact reference_groups hk

def alice : CStr := lit "alice"

def users : CStr := lit "users"

def adm : CStr := lit "adm"

def samplePasswd : List Passwd :=
  [{ name := alice, uid := 1000, gid := 50, dir := rootHome, shell := defaultShell }]

def sampleGroup : List Group :=
  [{ name := adm, gid := 4, mem := [alice] }, { name := users, gid := 100, mem := [] }]

/-- A root directory `/r` with both files. -/
def sampleDb : Db where
  passwd path := if path = lit "/r/" ++ etcPasswd then some samplePasswd else none
  group path := if path = lit "/r/" ++ etcGroup then some sampleGroup else none

/-- `-u alice:adm:27 -g users`. -/
def sampleUser : UserT :=
  { UserT.zero with
    name := some alice
    nameGiven := true
    rootfs := some (lit "/r")
    groupTokens := [{ name := some users, gid := 0 }, { name := some adm, gid := 0 },
      { name := none, gid := 27 }] }

theorem getters_reference_alice :
    Calls.answers (call sampleDb) sampleUser [.getGroups, .getUid, .getGid, .getGroups] =
      [.groups [4, 27, 100], .id 1000, .id 100, .groups [4, 27, 100]] :=
  (@getters_reference (some (lit "alice:adm:27")) (some users)
    (some (lit "/r")) sampleUser sampleDb samplePasswd sampleGroup
    (by decide) (by decide) (by decide) (by decide) _).1.trans (by decide)

end Cage.User
