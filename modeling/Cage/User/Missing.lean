import Cage.User.Getters

/-!
A database file that is missing against one that is there and empty. The password
lookup ends alike in both. `resolve_groups_by_tokens` returns early without the
group file, before the loop that takes the gid from the first id among the tokens.
-/

namespace Cage.User

open Cage.Util Cage.Lib

/-- The databases with another password file, whatever the root is. -/
def Db.withPasswd (db : Db) (pf : Option (List Passwd)) : Db := { db with passwd := fun _ => pf }

/-- The databases with another group file. -/
def Db.withGroup (db : Db) (gf : Option (List Group)) : Db := { db with group := fun _ => gf }

/-- However the getters are called, a file that is missing and an empty one give the
same answers. -/
def MissingAsEmpty (db : Db) (u : UserT) : Prop :=
  ∀ ks,
    Calls.answers (call (db.withPasswd none)) u ks =
      Calls.answers (call (db.withPasswd (some []))) u ks ∧
    Calls.answers (call (db.withGroup none)) u ks =
      Calls.answers (call (db.withGroup (some []))) u ks

/-- The first id of the tokens, where a group name stands in front of it. -/
def idBehindName (ts : List GroupToken) : Option UInt32 :=
  match firstNumeric ts with
  | some _ => none
  | none => (settledGids ts).head?

/-- No id stands behind a name, but for the gid that the account has anyway. -/
def NoIdBehindName (db : Db) (u : UserT) : Prop :=
  ∀ g, idBehindName u.groupTokens = some g → g = (userAccount db u).loginGid

section

variable {db : Db} {u : UserT}

theorem openDb_const {E : Type} (x : Option (List E)) (r : Option CStr) (file : CStr) :
    openDb (fun _ => x) r file = (dbPath r file).bind fun _ => x := rfl

theorem openDb_none {E : Type} (r : Option CStr) (file : CStr) :
    openDb (fun _ => (none : Option (List E))) r file = none := by
  rw [openDb_const]
  cases dbPath r file <;> rfl

/-- The entries of a missing password file are those of an empty one. -/
theorem passwdEntries_missing (db : Db) (u : UserT) :
    passwdEntries (db.withPasswd none) u = passwdEntries (db.withPasswd (some [])) u := by
  unfold passwdEntries Db.withPasswd
  rw [openDb_none, openDb_const]
  cases dbPath u.rootfs etcPasswd <;> rfl

theorem userAccount_missing (db : Db) (u : UserT) :
    userAccount (db.withPasswd none) u = userAccount (db.withPasswd (some [])) u := by
  unfold userAccount
  rw [passwdEntries_missing]

/-- The password file reaches the getters through the account only. -/
theorem settledAnswer_passwd {db' : Db} (hgroup : db'.group = db.group)
    (haccount : userAccount db' u = userAccount db u) :
    settledAnswer db' u = settledAnswer db u := by
  have htokens : settledTokens db' u = settledTokens db u := by
    unfold settledTokens
    rw [hgroup]
  have hgid : settledGid db' u = settledGid db u := by
    unfold settledGid tokensGid
    rw [hgroup, haccount]
  funext k
  cases k with
  | userResolve => rfl
  | getUid | getName | getHome | getShell =>
    unfold settledAnswer
    rw [haccount]
  | getGid => exact congrArg Answer.id hgid
  | getGroups =>
    unfold settledAnswer settledGroups
    rw [hgid, htokens]

theorem answers_withPasswd (hfresh : Fresh u) (ks : List Call) :
    Calls.answers (call (db.withPasswd none)) u ks =
      Calls.answers (call (db.withPasswd (some []))) u ks := by
  have hsame : settledAnswer (db.withPasswd none) u = settledAnswer (db.withPasswd (some [])) u :=
    settledAnswer_passwd rfl (userAccount_missing db u)
  rw [answers_settled _ hfresh, answers_settled _ hfresh, hsame]

/-- An empty group file settles no token. -/
theorem settledTokens_withGroup (gf : Option (List Group)) (h : gf = none ∨ gf = some []) :
    settledTokens (db.withGroup gf) u = u.groupTokens := by
  unfold settledTokens Db.withGroup
  rw [openDb_const]
  cases dbPath u.rootfs etcGroup with
  | none => rfl
  | some path =>
    rcases h with rfl | rfl
    · rfl
    · cases henum : shouldEnumerateGroups u with
      | true => rw [groupTokens_of_enum henum]; rfl
      | false => rfl

theorem tokensGid_missing : tokensGid (db.withGroup none) u = firstNumeric u.groupTokens := by
  unfold tokensGid Db.withGroup
  rw [openDb_none]
  cases firstNumeric u.groupTokens <;> rfl

/-- From an empty file the gid is that of the first id, wherever it stands. -/
theorem tokensGid_empty (hpath : dbPath u.rootfs etcGroup ≠ none) :
    tokensGid (db.withGroup (some [])) u =
      (firstNumeric u.groupTokens).or (idBehindName u.groupTokens) := by
  unfold tokensGid idBehindName Db.withGroup
  rw [openDb_const]
  obtain ⟨path, hpath⟩ := Option.ne_none_iff_exists'.mp hpath
  rw [hpath]
  cases firstNumeric u.groupTokens <;> rfl

/-- A root that gives no path to open has no group file in either case. -/
theorem tokensGid_pathless (hpath : dbPath u.rootfs etcGroup = none) :
    tokensGid (db.withGroup (some [])) u = firstNumeric u.groupTokens := by
  unfold tokensGid Db.withGroup
  rw [openDb_const, hpath]
  cases firstNumeric u.groupTokens <;> rfl

theorem firstNumeric_of_enum (h : shouldEnumerateGroups u = true) :
    firstNumeric u.groupTokens = none ∧ idBehindName u.groupTokens = none := by
  rw [groupTokens_of_enum h]
  exact ⟨rfl, rfl⟩

theorem idBehindName_of_numeric {ts : List GroupToken} {g : UInt32}
    (h : firstNumeric ts = some g) : idBehindName ts = none := by
  unfold idBehindName
  rw [h]

theorem or_getD_eq_iff {α : Type} {a b : Option α} {c : α} (h : a ≠ none → b = none) :
    a.getD c = (a.or b).getD c ↔ ∀ x, b = some x → x = c := by
  cases a with
  | some y => simp [h (Option.some_ne_none y)]
  | none =>
    cases b with
    | none => simp
    | some x => simp [eq_comm]

/-- The gids of both runs agree exactly under the condition. -/
theorem settledGid_missing_iff :
    settledGid (db.withGroup none) u = settledGid (db.withGroup (some [])) u ↔
      (dbPath u.rootfs etcGroup ≠ none → NoIdBehindName db u) := by
  have hlogin : ∀ gf, userAccount (db.withGroup gf) u = userAccount db u := fun _ => rfl
  unfold settledGid
  rw [tokensGid_missing, hlogin, hlogin]
  by_cases hpath : dbPath u.rootfs etcGroup = none
  · rw [tokensGid_pathless hpath]
    exact iff_of_true rfl fun h => absurd hpath h
  · rw [tokensGid_empty hpath]
    cases henum : shouldEnumerateGroups u with
    | true =>
      refine iff_of_true rfl fun _ g hg => ?_
      rw [(firstNumeric_of_enum henum).2] at hg
      cases hg
    | false =>
      have hbehind : firstNumeric u.groupTokens ≠ none → idBehindName u.groupTokens = none := by
        intro h
        obtain ⟨g, hg⟩ := Option.ne_none_iff_exists'.mp h
        exact idBehindName_of_numeric hg
      simp only [Bool.false_eq_true, if_false, hpath, ne_eq, not_false_eq_true, true_imp_iff]
      exact or_getD_eq_iff hbehind

theorem settledAnswer_withGroup
    (h : settledGid (db.withGroup none) u = settledGid (db.withGroup (some [])) u) :
    settledAnswer (db.withGroup none) u = settledAnswer (db.withGroup (some [])) u := by
  funext k
  cases k with
  | getGid => exact congrArg Answer.id h
  | getGroups =>
    unfold settledAnswer settledGroups
    rw [h, settledTokens_withGroup none (.inl rfl), settledTokens_withGroup _ (.inr rfl)]
  | _ => rfl

/-- A missing database is as good as an empty one exactly if no numeric group stands
behind a named one, or only the gid of the account does, or the root is none that a
group file could be opened under. -/
theorem missingAsEmpty_iff {s g r : Option CStr} (h : userNew s g r = some u) :
    MissingAsEmpty db u ↔ (dbPath r etcGroup ≠ none → NoIdBehindName db u) := by
  obtain ⟨hfresh, hroot⟩ := userNew_fresh h
  rw [← hroot, ← settledGid_missing_iff]
  constructor
  · intro hall
    have hgid := (hall [.getGid]).2
    rw [answers_settled _ hfresh, answers_settled _ hfresh] at hgid
    exact Answer.id.inj (List.head_eq_of_cons_eq hgid)
  · intro hgid ks
    refine ⟨answers_withPasswd hfresh ks, ?_⟩
    rw [answers_settled _ hfresh, answers_settled _ hfresh, settledAnswer_withGroup hgid]

end

/-- `-g 100:wheel` without a group file. -/
theorem missingAsEmpty_numeric :
    ∃ u, userNew none (some (lit "100:wheel")) (some (lit "/r")) = some u ∧
      MissingAsEmpty ⟨fun _ => none, fun _ => none⟩ u := by
  obtain ⟨u, hu, hbehind⟩ : ∃ u, userNew none (some (lit "100:wheel")) (some (lit "/r")) = some u ∧
      idBehindName u.groupTokens = none := ⟨_, rfl, rfl⟩
  refine ⟨u, hu, (missingAsEmpty_iff hu).mpr fun _ g hg => ?_⟩
  rw [hbehind] at hg
  cases hg

/-- `-g wheel:100`: the gid is 100 with an empty group file, and 0 with none. -/
theorem missing_drops_gid :
    (∃ u, userNew none (some (lit "wheel:100")) (some (lit "/r")) = some u ∧
      Calls.answers (call ⟨fun _ => none, fun _ => some []⟩) u [.getGid] = [.id 100] ∧
      Calls.answers (call ⟨fun _ => none, fun _ => none⟩) u [.getGid] = [.id 0]) ∧
    ¬ ∀ (db : Db) (s g r : Option CStr) (u : UserT), userNew s g r = some u →
      MissingAsEmpty db u := by
  refine ⟨⟨_, rfl, by decide, by decide⟩, fun h => ?_⟩
  have hall := h ⟨fun _ => none, fun _ => none⟩ none (some (lit "wheel:100")) (some (lit "/r")) _ rfl
  exact absurd (hall [.getGid]).2 (by decide)

end Cage.User
