import Cage.User.Lazy

/-!
Every getter keeps the caches and answers from them.
-/

namespace Cage.User

open Cage.Util Cage.Lib

variable {db : Db} {u₀ u : UserT}

theorem settledTokens_of_not_enum (h : shouldEnumerateGroups u₀ = false)
    (hnamed : hasNamedTokens u₀.groupTokens = false) :
    settledTokens db u₀ = u₀.groupTokens := by
  unfold settledTokens
  cases openDb db.group u₀.rootfs etcGroup with
  | none => rfl
  | some gf => simp [h, resolveNamedInGroup_of_not_named gf hnamed]

theorem groupTokens_of_enum (h : shouldEnumerateGroups u₀ = true) : u₀.groupTokens = [] := by
  unfold shouldEnumerateGroups at h
  simp only [Bool.and_eq_true, List.isEmpty_iff] at h
  exact h.1.1.1

theorem settledGid_of_firstNumeric {g : UInt32} (h : firstNumeric u₀.groupTokens = some g) :
    settledGid db u₀ = g := by
  have hno : shouldEnumerateGroups u₀ = false := by
    cases henum : shouldEnumerateGroups u₀ with
    | false => rfl
    | true =>
      rw [groupTokens_of_enum henum] at h
      cases h
  unfold settledGid tokensGid
  simp [hno, h]

/-- `resolve_groups` by enumeration. -/
theorem resolveGroupsEnum_cache (hfresh : Fresh u₀) (h : Cache db u₀ u)
    (hp : u.groupParsed = false) (henum : shouldEnumerateGroups u₀ = true) :
    Cache db u₀ (resolveGroupsEnum db u) ∧ (resolveGroupsEnum db u).groupParsed = true := by
  obtain ⟨htok, hgroups, -⟩ := h.group.unparsed hp
  obtain ⟨hcache, hholds⟩ := resolvePasswd_cache hfresh h
  have hsame := resolvePasswd_sameGroups db u
  have hnil : (resolvePasswd db u).groupTokens = [] :=
    hsame.groupTokens.trans (htok.trans (groupTokens_of_enum henum))
  have hgid : settledGid db u₀ = (resolvePasswd db u).passwdGid := by
    unfold settledGid
    rw [if_pos henum, hholds.gid]
  have hname : (resolvePasswd db u).name.getD [] = u₀.name.getD [] := by
    have hgiven : u₀.nameGiven = true := by
      simp only [shouldEnumerateGroups, Bool.and_eq_true] at henum
      exact henum.1.2
    obtain ⟨n, hn⟩ := Option.isSome_iff_exists.mp (hfresh.byName hgiven).2
    rw [hholds.name, userAccount_of_name hgiven hn, hn]
  have hpost (ts : List GroupToken) (hts : ts = settledTokens db u₀) :
      Cache db u₀ ((resolvePasswd db u).withGroups ts (resolvePasswd db u).passwdGid true
        (resolvePasswd db u).groups true) := by
    refine ⟨hcache.passwd.withGroups .., ?_⟩
    constructor
    · intro hfalse
      cases hfalse
    · exact fun _ => ⟨hts, fun hfalse => by cases hfalse⟩
    · exact fun _ => hgid.symm
    · intro gs hgs
      have hnone : (resolvePasswd db u).groups = none := hsame.groups.trans hgroups
      have : (resolvePasswd db u).groups = some gs := hgs
      rw [hnone] at this
      cases this
  unfold resolveGroupsEnum
  dsimp only
  rw [show openDb db.group (resolvePasswd db u).rootfs etcGroup =
    openDb db.group u₀.rootfs etcGroup by rw [hcache.passwd.rootfs]]
  cases hopen : openDb db.group u₀.rootfs etcGroup with
  | none =>
    refine ⟨hpost (resolvePasswd db u).groupTokens ?_, rfl⟩
    unfold settledTokens
    rw [hopen, hnil, groupTokens_of_enum henum]
  | some gf =>
    dsimp only
    rw [foldl_appendGroupToken, hname, hnil]
    refine ⟨hpost _ ?_, rfl⟩
    unfold settledTokens
    rw [hopen]
    simp [henum]

/-- `resolve_groups` by the tokens. -/
theorem resolveGroupsByTokens_cache (h : Cache db u₀ u) (hp : u.groupParsed = false)
    (henum : shouldEnumerateGroups u₀ = false) :
    Cache db u₀ (resolveGroupsByTokens db u) ∧
      (resolveGroupsByTokens db u).groupParsed = true := by
  obtain ⟨htok, hgroups, -⟩ := h.group.unparsed hp
  have hnone (gs : List UInt32) (filled : Bool) (hgs : u.groups = some gs) :
      gs = settledGroups db u₀ ∧ filled = true := by
    rw [hgroups] at hgs
    cases hgs
  have hfile : openDb db.group u₀.rootfs etcGroup = openDb db.group u.rootfs etcGroup := by
    rw [h.passwd.rootfs]
  unfold resolveGroupsByTokens
  cases hopen : openDb db.group u.rootfs etcGroup with
  | none =>
    have hsettled : settledTokens db u₀ = u₀.groupTokens := by
      unfold settledTokens
      rw [hfile, hopen]
    have hgid : tokensGid db u₀ = firstNumeric u₀.groupTokens := by
      unfold tokensGid
      rw [hfile, hopen]
      cases firstNumeric u₀.groupTokens <;> rfl
    refine ⟨⟨h.passwd.withGroups u.groupTokens u.gid u.gidFilled u.groups true, ?_⟩, rfl⟩
    refine ⟨fun hfalse => ?_, fun _ => ⟨htok.trans hsettled.symm, fun _ => ?_⟩, h.group.gid,
      fun gs => hnone gs _⟩
    · cases hfalse
    · exact ⟨henum, hgid, congrArg firstNumeric hsettled⟩
  | some gf =>
    have hsettled : settledTokens db u₀ = resolveNamedInGroup gf u.groupTokens := by
      unfold settledTokens
      rw [hfile, hopen, htok]
      simp [henum]
    have hgid : tokensGid db u₀ = (settledGids (resolveNamedInGroup gf u.groupTokens)).head? := by
      rw [tokensGid_of_file (hfile.trans hopen), htok]
    have hfind := find_settled (resolveNamedInGroup gf u.groupTokens)
    dsimp only
    cases hs : (resolveNamedInGroup gf u.groupTokens).find? fun t => t.name.isNone with
    | some t =>
      rw [hs] at hfind
      have ht : settledGid db u₀ = t.gid := by
        unfold settledGid
        simp [henum, hgid, ← hfind]
      refine ⟨⟨h.passwd.withGroups _ t.gid true u.groups true, ?_⟩, rfl⟩
      refine ⟨fun hfalse => ?_, fun _ => ⟨hsettled.symm, fun hfalse => ?_⟩, fun _ => ht.symm,
        fun gs => hnone gs _⟩
      · cases hfalse
      · cases hfalse
    | none =>
      rw [hs] at hfind
      have hfirst : firstNumeric u₀.groupTokens = none := by
        cases hg : firstNumeric u₀.groupTokens with
        | none => rfl
        | some g =>
          obtain ⟨ts', hts⟩ := firstNumeric_eq_some hg
          rw [htok, hts, resolveNamedInGroup_numeric] at hfind
          cases hfind
      refine ⟨⟨h.passwd.withGroups _ u.gid u.gidFilled u.groups true, ?_⟩, rfl⟩
      refine ⟨fun hfalse => ?_, fun _ => ⟨hsettled.symm, fun _ => ⟨henum, ?_, ?_⟩⟩, h.group.gid,
        fun gs => hnone gs _⟩
      · cases hfalse
      · rw [hgid, ← hfind, hfirst]
        rfl
      · rw [hsettled, hfirst, firstNumeric_eq_none hfind.symm]

theorem resolveGroups_cache (hfresh : Fresh u₀) (h : Cache db u₀ u) :
    Cache db u₀ (resolveGroups db u) ∧ (resolveGroups db u).groupParsed = true := by
  unfold resolveGroups
  cases hp : u.groupParsed with
  | true => exact ⟨h, hp⟩
  | false =>
    obtain ⟨htok, hgroups, -⟩ := h.group.unparsed hp
    have henum := shouldEnumerateGroups_eq hfresh h hp
    cases hs : shouldEnumerateGroups u with
    | true => exact resolveGroupsEnum_cache hfresh h hp (henum.symm.trans hs)
    | false =>
      rw [hs] at henum
      cases hnamed : hasNamedTokens u.groupTokens with
      | true => exact resolveGroupsByTokens_cache h hp henum.symm
      | false =>
        rw [htok] at hnamed
        have hsettled : settledTokens db u₀ = u₀.groupTokens :=
          settledTokens_of_not_enum henum.symm hnamed
        have hcache : GroupCache db u₀ { u with groupParsed := true } := by
          refine ⟨fun hfalse => ?_, fun _ => ⟨htok.trans hsettled.symm, fun _ => ?_⟩, h.group.gid,
            h.group.groups⟩
          · cases hfalse
          · exact ⟨henum.symm, tokensGid_of_not_named hnamed, congrArg firstNumeric hsettled⟩
        exact ⟨⟨h.passwd.withGroups u.groupTokens u.gid u.gidFilled u.groups true, hcache⟩, rfl⟩

theorem getUid_cache (hfresh : Fresh u₀) (h : Cache db u₀ u) :
    (getUid db u).1 = (userAccount db u₀).uid ∧ Cache db u₀ (getUid db u).2 := by
  unfold getUid
  cases hfilled : u.uidFilled with
  | false =>
    obtain ⟨hcache, hholds⟩ := resolvePasswd_cache hfresh h
    exact ⟨hholds.uid, hcache⟩
  | true =>
    refine ⟨?_, h⟩
    cases hp : u.passwdParsed with
    | true => exact (h.passwd.parsed hp).uid
    | false =>
      have hsame := h.passwd.unparsed hp
      have hgiven : u₀.nameGiven = false := by
        cases hgiven : u₀.nameGiven with
        | false => rfl
        | true =>
          have hfalse := (hfresh.byName hgiven).1
          rw [← hsame.uidFilled, hfilled] at hfalse
          cases hfalse
      exact hsame.uid.trans (userAccount_of_uid hgiven).symm

/-- The guard of the getters around `resolve_passwd` repeats its own. -/
theorem resolvePasswd_guard (db : Db) (u : UserT) :
    (if u.passwdParsed then u else resolvePasswd db u) = resolvePasswd db u := by
  cases hp : u.passwdParsed with
  | true => exact (resolvePasswd_of_parsed db hp).symm
  | false => rfl

theorem getName_cache (hfresh : Fresh u₀) (h : Cache db u₀ u) :
    (getName db u).1 = (userAccount db u₀).name ∧ Cache db u₀ (getName db u).2 := by
  unfold getName
  rw [resolvePasswd_guard]
  cases hname : u.name with
  | none =>
    obtain ⟨hcache, hholds⟩ := resolvePasswd_cache hfresh h
    exact ⟨hholds.name, hcache⟩
  | some n =>
    refine ⟨?_, h⟩
    cases hp : u.passwdParsed with
    | true => exact hname.symm.trans (h.passwd.parsed hp).name
    | false =>
      have hn : u₀.name = some n := (h.passwd.unparsed hp).name.symm.trans hname
      have hgiven : u₀.nameGiven = true := by
        cases hgiven : u₀.nameGiven with
        | true => rfl
        | false =>
          have hnone := (hfresh.byUid hgiven).2
          rw [hn] at hnone
          cases hnone
      exact (userAccount_of_name hgiven hn).symm

theorem getHome_cache (hfresh : Fresh u₀) (h : Cache db u₀ u) :
    (getHome db u).1 = (userAccount db u₀).home.getD defaultHome ∧
      Cache db u₀ (getHome db u).2 := by
  unfold getHome
  rw [resolvePasswd_guard]
  obtain ⟨hcache, hholds⟩ := resolvePasswd_cache hfresh h
  exact ⟨congrArg (·.getD defaultHome) hholds.home, hcache⟩

theorem getShell_cache (hfresh : Fresh u₀) (h : Cache db u₀ u) :
    (getShell db u).1 = (userAccount db u₀).shell.getD defaultShell ∧
      Cache db u₀ (getShell db u).2 := by
  unfold getShell
  rw [resolvePasswd_guard]
  obtain ⟨hcache, hholds⟩ := resolvePasswd_cache hfresh h
  exact ⟨congrArg (·.getD defaultShell) hholds.shell, hcache⟩

/-- Filling the gid keeps the caches, when it is the settled one. -/
theorem Cache.fillGid (h : Cache db u₀ u) {g : UInt32} (hg : g = settledGid db u₀)
    (hfirst : u.groupParsed = false → (firstNumeric u₀.groupTokens).isSome) :
    Cache db u₀ { u with gid := g, gidFilled := true } where
  passwd := h.passwd.withGroups u.groupTokens g true u.groups u.groupParsed
  group := by
    refine ⟨fun hp => ?_, fun hp => ⟨(h.group.parsed hp).1, fun hfalse => ?_⟩, fun _ => hg,
      fun gs hgs => ⟨(h.group.groups gs hgs).1, rfl⟩⟩
    · obtain ⟨htok, hgroups, -⟩ := h.group.unparsed hp
      exact ⟨htok, hgroups, fun _ => hfirst hp⟩
    · cases hfalse

theorem getGidFromPasswd_cache (hfresh : Fresh u₀) (h : Cache db u₀ u)
    (hgid : settledGid db u₀ = (userAccount db u₀).loginGid) (hp : u.groupParsed = true) :
    (getGidFromPasswd db u).gid = settledGid db u₀ ∧ Cache db u₀ (getGidFromPasswd db u) ∧
      (getGidFromPasswd db u).gidFilled = true ∧ (getGidFromPasswd db u).groupParsed = true := by
  obtain ⟨huid, hcache⟩ := getUid_cache hfresh h
  obtain ⟨hcache', hholds⟩ := resolvePasswd_cache hfresh hcache
  have hg : (if (getUid db u).1 ≠ 0 then (resolvePasswd db (getUid db u).2).passwdGid
      else (getUid db u).1) = settledGid db u₀ := by
    rw [hgid, Account.loginGid, huid, hholds.gid]
    by_cases h0 : (userAccount db u₀).uid = 0
    · simp [h0]
    · simp [h0]
  have hparsed : (resolvePasswd db (getUid db u).2).groupParsed = true := by
    rw [(resolvePasswd_sameGroups db _).groupParsed]
    unfold getUid
    split
    · exact hp
    · exact (resolvePasswd_sameGroups db u).groupParsed.trans hp
  unfold getGidFromPasswd
  dsimp only
  rw [resolvePasswd_guard]
  refine ⟨hg, hcache'.fillGid hg fun hfalse => ?_, rfl, hparsed⟩
  rw [hparsed] at hfalse
  cases hfalse

/-- What `get_gid` leaves: the gid is filled, and parsed groups stay parsed. -/
structure GidFilled (db : Db) (u₀ u v : UserT) : Prop where
  cache : Cache db u₀ v
  filled : v.gidFilled = true
  parsed : u.groupParsed = true → v.groupParsed = true

theorem getGid_cache (hfresh : Fresh u₀) (h : Cache db u₀ u) :
    (getGid db u).1 = settledGid db u₀ ∧ GidFilled db u₀ u (getGid db u).2 := by
  unfold getGid
  cases hfilled : u.gidFilled with
  | true => exact ⟨h.group.gid hfilled, h, hfilled, id⟩
  | false =>
    cases hfirst : firstNumeric u.groupTokens with
    | some g =>
      have hg : g = settledGid db u₀ ∧ (firstNumeric u₀.groupTokens).isSome := by
        cases hp : u.groupParsed with
        | false =>
          rw [(h.group.unparsed hp).1] at hfirst
          exact ⟨(settledGid_of_firstNumeric hfirst).symm, by rw [hfirst]; rfl⟩
        | true =>
          obtain ⟨htok, hopen⟩ := h.group.parsed hp
          obtain ⟨-, -, hsame⟩ := hopen hfilled
          rw [htok, hsame] at hfirst
          exact ⟨(settledGid_of_firstNumeric hfirst).symm, by rw [hfirst]; rfl⟩
      exact ⟨hg.1, h.fillGid hg.1 fun _ => hg.2, rfl, id⟩
    | none =>
      obtain ⟨hcache, hparsed⟩ := resolveGroups_cache hfresh h
      dsimp only
      cases hfilled' : (resolveGroups db u).gidFilled with
      | true => exact ⟨hcache.group.gid hfilled', hcache, hfilled', fun _ => hparsed⟩
      | false =>
        obtain ⟨-, hopen⟩ := hcache.group.parsed hparsed
        obtain ⟨henum, hgid, hsame⟩ := hopen hfilled'
        have hnone : firstNumeric u₀.groupTokens = none := by
          cases hp : u.groupParsed with
          | false => rwa [(h.group.unparsed hp).1] at hfirst
          | true =>
            obtain ⟨htok, hopen⟩ := h.group.parsed hp
            obtain ⟨-, -, hsame'⟩ := hopen hfilled
            rwa [htok, hsame'] at hfirst
        have hlogin : settledGid db u₀ = (userAccount db u₀).loginGid := by
          unfold settledGid
          simp [henum, hgid, hnone]
        obtain ⟨hg, hcache', hfill, hparsed'⟩ :=
          getGidFromPasswd_cache hfresh hcache hlogin hparsed
        exact ⟨hg, hcache', hfill, fun _ => hparsed'⟩

theorem settledGroups_foldl (db : Db) (u₀ : UserT) :
    (settledTokens db u₀).foldl (appendRemainingGid (settledGid db u₀)) (settledGroups db u₀) =
      settledGroups db u₀ := by
  have hmem : settledGid db u₀ ∈ settledGroups db u₀ :=
    (SortedSet.mem_ofList _ _).mpr List.mem_cons_self
  obtain ⟨hinc, hsame⟩ :=
    foldl_appendRemainingGid_spec (settledTokens db u₀) hmem (SortedSet.increasing_ofList _)
  refine SortedSet.eq_ofList hinc fun g => ?_
  rw [hsame]
  unfold settledGroups
  rw [SortedSet.mem_ofList, List.mem_cons]
  tauto

/-- The end of `get_groups`, on a user whose gid and tokens are settled. -/
theorem appendRemainingGids_ensure (h : Cache db u₀ u) (hfilled : u.gidFilled = true)
    (hparsed : u.groupParsed = true) :
    appendRemainingGids (ensurePrimaryGidInGroups u) =
      { u with groups := some (settledGroups db u₀) } := by
  have hgid := h.group.gid hfilled
  have htok := (h.group.parsed hparsed).1
  unfold appendRemainingGids ensurePrimaryGidInGroups
  cases hgroups : u.groups with
  | none =>
    dsimp only
    rw [Option.map_some, groups_eq_ofList, htok, hgid]
    rfl
  | some gs =>
    have hgs := (h.group.groups gs hgroups).1
    have hin : gidAlreadyInList gs u.gid = true := by
      rw [gidAlreadyInList_iff, hgs, hgid]
      exact (SortedSet.mem_ofList _ _).mpr List.mem_cons_self
    dsimp only
    rw [if_pos hin, hgroups, Option.map_some, hgid, htok, hgs, settledGroups_foldl]

theorem getGroups_cache (hfresh : Fresh u₀) (h : Cache db u₀ u) :
    (getGroups db u).1 = settledGroups db u₀ ∧ Cache db u₀ (getGroups db u).2 := by
  obtain ⟨hcache, hparsed⟩ := resolveGroups_cache hfresh h
  obtain ⟨-, hgid⟩ := getGid_cache hfresh hcache
  have hend := appendRemainingGids_ensure hgid.cache hgid.filled (hgid.parsed hparsed)
  have hparsed' := hgid.parsed hparsed
  unfold getGroups
  dsimp only
  rw [hend]
  generalize (getGid db (resolveGroups db u)).2 = v at hgid hparsed' ⊢
  refine ⟨rfl, hgid.cache.passwd.withGroups v.groupTokens v.gid v.gidFilled
    (some (settledGroups db u₀)) v.groupParsed, ?_⟩
  refine ⟨fun hfalse => ?_, hgid.cache.group.parsed, hgid.cache.group.gid, fun gs hgs => ?_⟩
  · rw [show v.groupParsed = false from hfalse] at hparsed'
    cases hparsed'
  · cases hgs
    exact ⟨rfl, hgid.filled⟩

/-- One call from any state of the caches. -/
theorem call_cache (hfresh : Fresh u₀) (h : Cache db u₀ u) (k : Call) :
    (call db u k).1 = settledAnswer db u₀ k ∧ Cache db u₀ (call db u k).2 := by
  cases k with
  | userResolve => exact ⟨rfl, (resolvePasswd_cache hfresh h).1⟩
  | getUid =>
    obtain ⟨hid, hcache⟩ := getUid_cache hfresh h
    exact ⟨congrArg Answer.id hid, hcache⟩
  | getGid =>
    obtain ⟨hid, hfilled⟩ := getGid_cache hfresh h
    exact ⟨congrArg Answer.id hid, hfilled.cache⟩
  | getName =>
    obtain ⟨hname, hcache⟩ := getName_cache hfresh h
    exact ⟨congrArg Answer.name hname, hcache⟩
  | getHome =>
    obtain ⟨hhome, hcache⟩ := getHome_cache hfresh h
    exact ⟨congrArg Answer.path hhome, hcache⟩
  | getShell =>
    obtain ⟨hshell, hcache⟩ := getShell_cache hfresh h
    exact ⟨congrArg Answer.path hshell, hcache⟩
  | getGroups =>
    obtain ⟨hgroups, hcache⟩ := getGroups_cache hfresh h
    exact ⟨congrArg Answer.groups hgroups, hcache⟩

theorem Fresh.cache (db : Db) (hfresh : Fresh u₀) : Cache db u₀ u₀ where
  passwd := by
    refine ⟨rfl, rfl, fun _ => ⟨rfl, rfl, rfl, rfl, rfl⟩, fun hp => ?_⟩
    rw [hfresh.passwdParsed] at hp
    cases hp
  group := by
    refine ⟨fun _ => ⟨rfl, hfresh.groups, fun hf => ?_⟩, fun hp => ?_, fun hf => ?_,
      fun gs hgs => ?_⟩
    · rw [hfresh.gidFilled] at hf
      cases hf
    · rw [hfresh.groupParsed] at hp
      cases hp
    · rw [hfresh.gidFilled] at hf
      cases hf
    · rw [hfresh.groups] at hgs
      cases hgs

/-- A user answers from a table that the specification and the databases fix. -/
theorem call_refines (db : Db) (hfresh : Fresh u₀) :
    Calls.Refines (call db) Calls.table fun u t => Cache db u₀ u ∧ t = settledAnswer db u₀ where
  answer := by
    rintro u t k ⟨h, rfl⟩
    exact (call_cache hfresh h k).1
  keep := by
    rintro u t k ⟨h, rfl⟩
    exact ⟨(call_cache hfresh h k).2, rfl⟩

theorem answers_settled (db : Db) (hfresh : Fresh u₀) (ks : List Call) :
    Calls.answers (call db) u₀ ks = ks.map (settledAnswer db u₀) := by
  rw [(call_refines db hfresh).answers_eq ⟨hfresh.cache db, rfl⟩ ks, Calls.answers_table]

theorem after_cache (db : Db) (hfresh : Fresh u₀) (ks : List Call) :
    Cache db u₀ (Calls.after (call db) u₀ ks) :=
  ((call_refines db hfresh).after_rel ⟨hfresh.cache db, rfl⟩ ks).1

end Cage.User
