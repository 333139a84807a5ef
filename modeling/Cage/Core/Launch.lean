import Cage.User.ResolveCorrect

/-!
The end of a run in the child: `launch_exec`, `setup_cwd` and `do_priv_drop` of
`src/core/launch.c`, with the credentials a process has and the calls of the
kernel that change them.
-/

namespace Cage.Core

open Cage.Util Cage.Lib Cage.User

structure Creds where
  ruid : UInt32
  euid : UInt32
  suid : UInt32
  rgid : UInt32
  egid : UInt32
  sgid : UInt32
  groups : List UInt32
  deriving DecidableEq, Repr

/-- `(id_t)-1`: an argument that leaves an id as it is, and no id itself. -/
def unchanged : UInt32 := 4294967295

/-- The answers of the kernel on the way to the exec: whether a call is
accepted. A refused `chdir` is made once more after `io_mkdir`. -/
structure Kernel where
  chdir : Bool
  mkdir : Bool
  chdirAgain : Bool
  setregid : Bool
  setgroups : Bool
  setreuid : Bool
  deriving DecidableEq, Repr

/-- The ids after `setreuid` or `setregid` by a privileged process. The saved id
follows the effective one when the real id is set, or the effective one is set
to something else than the real id. -/
def setre (real eff saved r e : UInt32) : UInt32 × UInt32 × UInt32 :=
  let eff' := if e = unchanged then eff else e
  let real' := if r = unchanged then real else r
  let saved' := if r ≠ unchanged ∨ (e ≠ unchanged ∧ e ≠ real) then eff' else saved
  (real', eff', saved')

def setregid (k : Kernel) (c : Creds) (rgid egid : UInt32) : Option Creds :=
  if k.setregid then
    let (r, e, s) := setre c.rgid c.egid c.sgid rgid egid
    some { c with rgid := r, egid := e, sgid := s }
  else
    none

def setreuid (k : Kernel) (c : Creds) (ruid euid : UInt32) : Option Creds :=
  if k.setreuid then
    let (r, e, s) := setre c.ruid c.euid c.suid ruid euid
    some { c with ruid := r, euid := e, suid := s }
  else
    none

/-- `setgroups`, which the kernel refuses for a list with an id that is none. -/
def setgroups (k : Kernel) (c : Creds) (gids : List UInt32) : Option Creds :=
  if k.setgroups ∧ unchanged ∉ gids then some { c with groups := gids } else none

def setupCwd (k : Kernel) (cwd : Option CStr) : Bool :=
  match cwd with
  | none | some [] => true
  | some _ => k.chdir || (k.mkdir && k.chdirAgain)

def doPrivDrop (k : Kernel) (db : Db) (c : Creds) (u : UserT) : Option (Creds × UserT) :=
  let (gid, u) := getGid db u
  match setregid k c gid gid with
  | none => none
  | some c =>
      let (gl, u) := getGroups db u
      match setgroups k c gl with
      | none => none
      | some c =>
          let (uid, u) := getUid db u
          match setreuid k c uid uid with
          | none => none
          | some c => some (c, u)

/-- `launch_exec` up to `execvpe`: the credentials and the user at that moment,
or `none` where it returns before. -/
def launchExec (k : Kernel) (db : Db) (cwd : Option CStr) (c : Creds) (u : UserT) :
    Option (Creds × UserT) :=
  if setupCwd k cwd then doPrivDrop k db c u else none

def Creds.IsRoot (c : Creds) : Prop := c.ruid = 0 ∧ c.euid = 0 ∧ c.suid = 0

/-- The process has the ids and groups of the user, and no others. -/
structure RunsAs (db : Db) (u : UserT) (c : Creds) : Prop where
  ruid : c.ruid = (getUid db u).1
  euid : c.euid = (getUid db u).1
  suid : c.suid = (getUid db u).1
  rgid : c.rgid = (getGid db u).1
  egid : c.egid = (getGid db u).1
  sgid : c.sgid = (getGid db u).1
  groups : c.groups = (getGroups db u).1

/-- No id of the process is root's. -/
def Creds.NoRoot (c : Creds) : Prop := c.ruid ≠ 0 ∧ c.euid ≠ 0 ∧ c.suid ≠ 0

theorem setre_same (real eff saved i : UInt32) :
    setre real eff saved i i = if i = unchanged then (real, eff, saved) else (i, i, i) := by
  unfold setre
  by_cases h : i = unchanged <;> simp [h]

theorem setregid_same {k : Kernel} {c c' : Creds} {i : UInt32}
    (h : setregid k c i i = some c') (hi : i ≠ unchanged) :
    c' = { c with rgid := i, egid := i, sgid := i } := by
  unfold setregid at h
  rw [setre_same, if_neg hi] at h
  split at h
  · cases h
    rfl
  · cases h

theorem setreuid_same {k : Kernel} {c c' : Creds} {i : UInt32} (h : setreuid k c i i = some c') :
    c' = if i = unchanged then c else { c with ruid := i, euid := i, suid := i } := by
  unfold setreuid at h
  rw [setre_same] at h
  by_cases hi : i = unchanged
  · rw [if_pos hi] at h ⊢
    split at h
    · cases h
      rfl
    · cases h
  · rw [if_neg hi] at h ⊢
    split at h
    · cases h
      rfl
    · cases h

theorem setgroups_some {k : Kernel} {c c' : Creds} {gids : List UInt32}
    (h : setgroups k c gids = some c') : c' = { c with groups := gids } ∧ unchanged ∉ gids := by
  unfold setgroups at h
  split at h
  · rename_i hc
    cases h
    exact ⟨rfl, hc.2⟩
  · cases h

theorem launchExec_some {k : Kernel} {db : Db} {cwd : Option CStr} {c : Creds} {u : UserT}
    {res : Creds × UserT} (h : launchExec k db cwd c u = some res) :
    doPrivDrop k db c u = some res := by
  unfold launchExec at h
  split at h
  · exact h
  · cases h

/-- The calls of `do_priv_drop` that succeeded, one after the other. -/
theorem doPrivDrop_some {k : Kernel} {db : Db} {c c' : Creds} {u u' : UserT}
    (h : doPrivDrop k db c u = some (c', u')) :
    ∃ c₁ c₂, setregid k c (getGid db u).1 (getGid db u).1 = some c₁ ∧
      setgroups k c₁ (getGroups db (getGid db u).2).1 = some c₂ ∧
      setreuid k c₂ (getUid db (getGroups db (getGid db u).2).2).1
        (getUid db (getGroups db (getGid db u).2).2).1 = some c' ∧
      u' = (getUid db (getGroups db (getGid db u).2).2).2 := by
  unfold doPrivDrop at h
  dsimp only at h
  cases h₁ : setregid k c (getGid db u).1 (getGid db u).1 with
  | none =>
    rw [h₁] at h
    cases h
  | some c₁ =>
    rw [h₁] at h
    dsimp only at h
    cases h₂ : setgroups k c₁ (getGroups db (getGid db u).2).1 with
    | none =>
      rw [h₂] at h
      cases h
    | some c₂ =>
      rw [h₂] at h
      dsimp only at h
      cases h₃ : setreuid k c₂ (getUid db (getGroups db (getGid db u).2).2).1
          (getUid db (getGroups db (getGid db u).2).2).1 with
      | none =>
        rw [h₃] at h
        cases h
      | some c₃ =>
        rw [h₃] at h
        cases h
        exact ⟨c₁, c₂, rfl, h₂, h₃, rfl⟩

/-- The credentials at the exec in terms of what the user resolves to. -/
theorem doPrivDrop_creds {k : Kernel} {db : Db} {c c' : Creds} {u₀ u u' : UserT}
    (hfresh : Fresh u₀) (hcache : Cache db u₀ u) (h : doPrivDrop k db c u = some (c', u')) :
    Cache db u₀ u' ∧ c'.rgid = settledGid db u₀ ∧ c'.egid = settledGid db u₀ ∧
      c'.sgid = settledGid db u₀ ∧ c'.groups = settledGroups db u₀ ∧
      (c'.ruid, c'.euid, c'.suid) =
        if (userAccount db u₀).uid = unchanged then (c.ruid, c.euid, c.suid)
        else ((userAccount db u₀).uid, (userAccount db u₀).uid, (userAccount db u₀).uid) := by
  obtain ⟨c₁, c₂, h₁, h₂, h₃, rfl⟩ := doPrivDrop_some h
  obtain ⟨hgid, hfilled⟩ := getGid_cache hfresh hcache
  obtain ⟨hgroups, hcache₁⟩ := getGroups_cache hfresh hfilled.cache
  obtain ⟨huid, hcache₂⟩ := getUid_cache hfresh hcache₁
  rw [hgroups] at h₂
  obtain ⟨rfl, hno⟩ := setgroups_some h₂
  have hmem : settledGid db u₀ ∈ settledGroups db u₀ :=
    (SortedSet.mem_ofList _ _).mpr List.mem_cons_self
  have hne : settledGid db u₀ ≠ unchanged := fun heq => hno (heq ▸ hmem)
  rw [hgid] at h₁
  obtain rfl := setregid_same h₁ hne
  rw [huid] at h₃
  obtain rfl := setreuid_same h₃
  by_cases hid : (userAccount db u₀).uid = unchanged
  · simp [hid, hcache₂]
  · simp [hid, hcache₂]

/-- When the exec is reached, the program runs with the ids of the user, and
with no root id unless the user is root, exactly when the uid that the
specification and the password database give is a proper id. The calls `ks` are
those made on the user before. -/
theorem launchExec_runsAs {s g r : Option CStr} {u₀ u' : UserT} {k : Kernel} {db : Db}
    {cwd : Option CStr} {c c' : Creds} (hnew : userNew s g r = some u₀) (ks : List Call)
    (hroot : c.IsRoot)
    (h : launchExec k db cwd c (Calls.after (User.call db) u₀ ks) = some (c', u')) :
    (RunsAs db u' c' ∧ ((getUid db u').1 ≠ 0 → c'.NoRoot)) ↔
      (account ((openDb db.passwd r etcPasswd).getD []) u₀.spec.identity).uid ≠ unchanged := by
  obtain ⟨hfresh, hr⟩ := userNew_fresh hnew
  obtain ⟨hcache, hrgid, hegid, hsgid, hgroups, huids⟩ :=
    doPrivDrop_creds hfresh (after_cache db hfresh ks) (launchExec_some h)
  obtain ⟨huid, -⟩ := getUid_cache hfresh hcache
  obtain ⟨hgid, -⟩ := getGid_cache hfresh hcache
  obtain ⟨hgl, -⟩ := getGroups_cache hfresh hcache
  have hacc : account ((openDb db.passwd r etcPasswd).getD []) u₀.spec.identity =
      userAccount db u₀ := by
    rw [← hr]
    rfl
  rw [hacc]
  by_cases hid : (userAccount db u₀).uid = unchanged
  · rw [if_pos hid] at huids
    have hruid : c'.ruid = 0 := (congrArg Prod.fst huids).trans hroot.1
    refine iff_of_false (fun hruns => ?_) (fun hne => hne hid)
    have hsame := hruns.1.ruid
    rw [hruid, huid, hid] at hsame
    exact absurd hsame (by decide)
  · rw [if_neg hid] at huids
    simp only [Prod.mk.injEq] at huids
    obtain ⟨hruid, heuid, hsuid⟩ := huids
    refine iff_of_true ⟨⟨hruid.trans huid.symm, heuid.trans huid.symm, hsuid.trans huid.symm,
      hrgid.trans hgid.symm, hegid.trans hgid.symm, hsgid.trans hgid.symm,
      hgroups.trans hgl.symm⟩, fun hne => ?_⟩ hid
    rw [huid] at hne
    exact ⟨hruid ▸ hne, heuid ▸ hne, hsuid ▸ hne⟩

def rootCreds : Creds where
  ruid := 0
  euid := 0
  suid := 0
  rgid := 0
  egid := 0
  sgid := 0
  groups := []

/-- A kernel that refuses nothing. -/
def willing : Kernel where
  chdir := true
  mkdir := true
  chdirAgain := true
  setregid := true
  setgroups := true
  setreuid := true

theorem launchExec_runsAs_alice :
    ∃ c' u', launchExec willing sampleDb none rootCreds
        (Calls.after (User.call sampleDb) sampleUser [.userResolve, .getShell]) = some (c', u') ∧
      c'.euid = 1000 ∧ RunsAs sampleDb u' c' :=
  ⟨_, _, rfl, by decide, ((@launchExec_runsAs (some (lit "alice:adm:27"))
    (some users) (some (lit "/r")) sampleUser _ willing sampleDb none rootCreds _
    (by decide) [.userResolve, .getShell] ⟨rfl, rfl, rfl⟩ rfl).mpr (by decide)).1⟩

/-- `-u 4294967295 -g 1000` without databases. -/
def maxUser : UserT :=
  { UserT.zero with
    uid := 4294967295
    uidFilled := true
    groupTokens := [{ name := none, gid := 1000 }] }

def noDb : Db where
  passwd _ := none
  group _ := none

/-- The id is accepted, and the program runs as root. -/
theorem launchExec_keeps_root :
    ¬ ∀ (s g r : Option CStr) (u₀ u' : UserT) (k : Kernel) (db : Db) (c c' : Creds),
      userNew s g r = some u₀ → c.IsRoot → launchExec k db none c u₀ = some (c', u') →
        RunsAs db u' c' := by
  intro h
  have hmax := h (some (lit "4294967295"))
    (some (lit "1000")) none maxUser _ willing noDb rootCreds _ (by decide)
    ⟨rfl, rfl, rfl⟩ rfl
  exact absurd hmax.euid (by decide)

end Cage.Core
