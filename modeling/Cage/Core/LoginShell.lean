import Mathlib.Data.List.TakeWhile
import Cage.Core.Launch
import Cage.Util.EnvCorrect

/-!
`launch_cage` of `src/core/launch.c`: which program is started with which
arguments and environment, when the command line names one and when it asks for
the user's shell.
-/

namespace Cage.Core

open Cage.Util Cage.Lib Cage.User

/-- What is executed: `execvpe`'s arguments, and the process and its user when it
is reached. -/
structure Start where
  cmd : CStr
  argv : List CStr
  envp : List (Option CStr)
  reached : Option (Creds × UserT)

/-- What `launch_cage` comes to. -/
inductive Launched where
  /-- it returns before `launch_exec` -/
  | returned
  /-- the command that `launch_exec` is given has been freed -/
  | dangling
  | started (st : Start)

/-- A string that is passed on by its address; `inMap` if that is in the map. -/
structure Shared where
  text : CStr
  inMap : Bool

/-- The part of a path behind its last slash. -/
def shellBase (shell : CStr) : CStr :=
  match strrchr shell slash with
  | some rest => rest.tail
  | none => shell

def buildLoginArgv (alloc : Bool) (shell : CStr) : Option (List CStr) :=
  if alloc then some [45 :: shellBase shell] else none

section

variable (alloc : Bool) (db : Db)

def fillHomeUser (m : EnvMap) (u : UserT) : Option (EnvMap × UserT) :=
  let (home, u) := getHome db u
  (envMapEnsure alloc m (lit "HOME") (some home)).bind fun m =>
    let (name, u) := getName db u
    (envMapEnsure alloc m (lit "USER") name).map fun m => (m, u)

def fillShell (override : Bool) (m : EnvMap) (u : UserT) : Option (EnvMap × UserT) :=
  if override then
    let (shell, u) := getShell db u
    (envMapPut alloc m (lit "SHELL") shell).map fun m => (m, u)
  else
    some (m, u)

/-- `get_shell`, whose answer is the user's own string. -/
def ownShell (u : UserT) : Shared × UserT := (⟨(getShell db u).1, false⟩, (getShell db u).2)

def pickShell (u : UserT) (env : Env) : Option (Shared × UserT) :=
  (envMapGet env.map (lit "SHELL")).map fun s =>
    match s with
    | some s => (⟨s, true⟩, u)
    | none => ownShell db u

def isDash (argv : List CStr) : Bool := argv.head? = some (lit "-")

def hasCommand (argv : List CStr) : Bool := argv ≠ []

/-- `prepare_command`: the command and its arguments, which are missing where
there is no memory for them. -/
def prepareCommand (u : UserT) (env : Env) (argv : List CStr) :
    Option (Option (Shared × List CStr) × UserT) :=
  if hasCommand argv && !isDash argv then
    some (argv.head?.map fun cmd => (⟨cmd, false⟩, argv), u)
  else
    (if isDash argv then pickShell db u env else some (ownShell db u)).map fun r =>
      ((buildLoginArgv alloc r.1.text).map fun login => (r.1, login), r.2)

/-- `launch_cage`: `none` where a probe of the map does not end. -/
def launchCage (k : Kernel) (c : Creds) (u : UserT) (env : Env) (cwd : Option CStr)
    (argv : List CStr) : Option Launched :=
  (prepareCommand alloc db u env argv).bind fun r =>
    match r.1 with
    | none => some .returned
    | some (cmd, argv) =>
      (fillHomeUser alloc db env.map r.2).bind fun (m, u) =>
        (fillShell alloc db env.guestShellOverride m u).map fun (m, u) =>
          -- `env_map_put` frees the value of `SHELL` that it replaces
          if cmd.inMap && env.guestShellOverride then .dangling
          else .started
            { cmd := cmd.text, argv, envp := envMapBuild m, reached := launchExec k db cwd c u }

end

/-- A command line that asks for the user's shell: `--` with nothing behind it, or
`-`. -/
def AsksShell (argv : List CStr) : Prop := argv = [] ∨ argv.head? = some (lit "-")

/-- The documented choice: the last `-e SHELL` unless it is empty, then the shell
of the user, `/bin/sh` when there is no entry. -/
def loginShell (given : Option CStr) (guest : CStr) : CStr :=
  match given with
  | some (c :: s) => c :: s
  | some [] | none => guest

/-- Every command line that asks for a shell starts `shell` as a login shell, under
its name in the environment. -/
def StartsShell (db : Db) (u : UserT) (env : Env) (shell : CStr) : Prop :=
  ∀ (k : Kernel) (c : Creds) (cwd : Option CStr) (argv : List CStr), AsksShell argv →
    ∃ st, launchCage true db k c u env cwd argv = some (.started st) ∧
      st.cmd = shell ∧ st.argv = [45 :: shellBase shell] ∧
      ∀ v, some (lit "SHELL" ++ equals :: v) ∈ st.envp ↔ v = shell

/-- No name has a `=` in it. -/
def PlainNames (f : CStr → Option CStr) : Prop := ∀ k v, f k = some v → equals ∉ k

theorem refEnsure_of_ne {f : CStr → Option CStr} {k k' : CStr} (v : Option CStr) (h : k' ≠ k) :
    refEnsure f k v k' = f k' := by
  unfold refEnsure refCall
  split <;> first | rfl | contradiction | skip
  rename_i heq
  cases heq
  dsimp only
  split
  · rfl
  · exact Function.update_of_ne h _ f

theorem PlainNames.ensure {f : CStr → Option CStr} (hf : PlainNames f) {k : CStr} (hk : equals ∉ k)
    (v : Option CStr) : PlainNames (refEnsure f k v) := by
  intro k' v' h
  by_cases heq : k' = k
  · exact heq ▸ hk
  · rw [refEnsure_of_ne v heq] at h
    exact hf k' v' h

theorem PlainNames.update {f : CStr → Option CStr} (hf : PlainNames f) {k : CStr} (hk : equals ∉ k)
    (v : Option CStr) : PlainNames (Function.update f k v) := by
  intro k' v' h
  by_cases heq : k' = k
  · exact heq ▸ hk
  · rw [Function.update_of_ne heq] at h
    exact hf k' v' h

theorem plainNames_args (host : Host) (envs : List CStr) :
    PlainNames fun k => (lastValue envs k).or (defaultValue host k) := by
  intro k v h
  rcases Option.or_eq_some_iff.mp h with hlast | ⟨-, hdefault⟩
  · obtain ⟨e, hfind, -⟩ := Option.map_eq_some_iff.mp hlast
    have hname : argName e = k := by simpa using List.find?_some hfind
    rw [← hname]
    intro hmem
    simpa using List.mem_takeWhile_imp hmem
  · unfold defaultValue at hdefault
    split at hdefault
    · rename_i hk
      rw [hk]
      decide
    · split at hdefault
      · rename_i hk
        rw [hk]
        decide
      · split at hdefault
        · rename_i hk
          rw [hk]
          decide
        · cases hdefault

/-- The array that is built has an entry of a name exactly for its value. -/
theorem mem_envMapBuild {m : EnvMap} {f : CStr → Option CStr} (h : m.Holds f) (hf : PlainNames f)
    {k : CStr} (hk : equals ∉ k) (v : CStr) :
    some (k ++ equals :: v) ∈ envMapBuild m ↔ f k = some v := by
  have hb := h.builds
  rw [hb.array, List.mem_append, or_iff_left (by simp), List.mem_map]
  constructor
  · rintro ⟨⟨k', v'⟩, hmem, heq⟩
    have hget := (hb.mem k' v').mp hmem
    have hsame : k' ++ equals :: v' = k ++ equals :: v := Option.some.inj heq
    have hname := congrArg argName hsame
    have hvalue := congrArg argValue hsame
    rw [argName_append (hf k' v' hget), argName_append hk] at hname
    rw [argValue_append (hf k' v' hget), argValue_append hk] at hvalue
    rw [← hname, ← hvalue]
    exact hget
  · intro hget
    exact ⟨(k, v), (hb.mem k v).mpr hget, rfl⟩

section

variable {db : Db} {u₀ u : UserT} {m : EnvMap} {f : CStr → Option CStr}

/-- The shell of the user. -/
def guestShell (db : Db) (u₀ : UserT) : CStr := (userAccount db u₀).shell.getD defaultShell

theorem fillHomeUser_holds (hfresh : Fresh u₀) (hu : Cache db u₀ u) (hm : m.Holds f)
    (hf : PlainNames f) :
    ∃ m' u' f', fillHomeUser true db m u = some (m', u') ∧ Cache db u₀ u' ∧ m'.Holds f' ∧
      PlainNames f' ∧ f' (lit "SHELL") = f (lit "SHELL") := by
  obtain ⟨-, hu₁⟩ := getHome_cache hfresh hu
  obtain ⟨m₁, hensure₁, hm₁⟩ := envMapEnsure_holds hm (lit "HOME") (some (getHome db u).1)
  obtain ⟨-, hu₂⟩ := getName_cache hfresh hu₁
  obtain ⟨m₂, hensure₂, hm₂⟩ :=
    envMapEnsure_holds hm₁ (lit "USER") (getName db (getHome db u).2).1
  refine ⟨m₂, _, _, ?_, hu₂, hm₂, (hf.ensure (by decide) _).ensure (by decide) _, ?_⟩
  · unfold fillHomeUser
    dsimp only
    rw [hensure₁, Option.bind_some, hensure₂]
    rfl
  · rw [refEnsure_of_ne _ (by decide), refEnsure_of_ne _ (by decide)]

theorem fillShell_holds (hfresh : Fresh u₀) (hu : Cache db u₀ u) (hm : m.Holds f)
    (hf : PlainNames f) (override : Bool) :
    ∃ m' u' f', fillShell true db override m u = some (m', u') ∧ Cache db u₀ u' ∧ m'.Holds f' ∧
      PlainNames f' ∧
      f' (lit "SHELL") = if override then some (guestShell db u₀) else f (lit "SHELL") := by
  cases override with
  | false => exact ⟨m, u, f, rfl, hu, hm, hf, rfl⟩
  | true =>
    obtain ⟨hshell, hu₁⟩ := getShell_cache hfresh hu
    obtain ⟨m₁, hput, hm₁⟩ := envMapPut_holds hm (lit "SHELL") (getShell db u).1
    refine ⟨m₁, _, _, ?_, hu₁, hm₁, hf.update (by decide) _, ?_⟩
    · unfold fillShell
      dsimp only
      rw [if_pos rfl, hput]
      rfl
    · rw [Function.update_self, if_pos rfl, hshell]
      rfl

/-- The shell that is started: `-` looks into the map first, `--` does not. -/
def pickedShell (argv : List CStr) (given : Option CStr) (guest : CStr) : Shared :=
  if isDash argv then ⟨given.getD guest, given.isSome⟩ else ⟨guest, false⟩

theorem prepareCommand_shell (hfresh : Fresh u₀) (hu : Cache db u₀ u) {env : Env}
    (hm : env.map.Holds f) {argv : List CStr} (hasks : AsksShell argv) :
    ∃ u', Cache db u₀ u' ∧ prepareCommand true db u env argv =
      some (some (pickedShell argv (f (lit "SHELL")) (guestShell db u₀),
        [45 :: shellBase (pickedShell argv (f (lit "SHELL")) (guestShell db u₀)).text]), u') := by
  obtain ⟨hshell, hu'⟩ := getShell_cache hfresh hu
  have hguest : (getShell db u).1 = guestShell db u₀ := hshell
  unfold prepareCommand pickedShell
  rcases hasks with rfl | hdash
  · refine ⟨_, hu', ?_⟩
    rw [if_neg (by decide), if_neg (by decide), if_neg (by decide), ← hguest]
    rfl
  · have his : isDash argv = true := decide_eq_true hdash
    unfold pickShell
    rw [if_neg (by simp [his]), if_pos his, if_pos his, envMapGet_holds hm]
    cases hget : f (lit "SHELL") with
    | some v => exact ⟨u, hu, rfl⟩
    | none =>
      refine ⟨_, hu', ?_⟩
      rw [Option.getD_none, ← hguest]
      rfl

/-- What `launch_cage` comes to when the command line asks for a shell. -/
theorem launchCage_shell (hfresh : Fresh u₀) (hu : Cache db u₀ u) {env : Env}
    (hm : env.map.Holds f) (hf : PlainNames f) (k : Kernel) (c : Creds) (cwd : Option CStr)
    {argv : List CStr} (hasks : AsksShell argv) :
    ∃ st, launchCage true db k c u env cwd argv = some
        (if (pickedShell argv (f (lit "SHELL")) (guestShell db u₀)).inMap &&
          env.guestShellOverride then .dangling else .started st) ∧
      st.cmd = (pickedShell argv (f (lit "SHELL")) (guestShell db u₀)).text ∧
      st.argv = [45 :: shellBase st.cmd] ∧
      ∀ v, some (lit "SHELL" ++ equals :: v) ∈ st.envp ↔
        (if env.guestShellOverride then some (guestShell db u₀) else f (lit "SHELL")) = some v := by
  obtain ⟨u₁, hu₁, hprepare⟩ := prepareCommand_shell hfresh hu hm hasks
  obtain ⟨m₂, u₂, f₂, hhome, hu₂, hm₂, hf₂, hkeep⟩ := fillHomeUser_holds hfresh hu₁ hm hf
  obtain ⟨m₃, u₃, f₃, hfill, -, hm₃, hf₃, hset⟩ :=
    fillShell_holds hfresh hu₂ hm₂ hf₂ env.guestShellOverride
  let shell := (pickedShell argv (f (lit "SHELL")) (guestShell db u₀)).text
  refine ⟨{ cmd := shell, argv := [45 :: shellBase shell], envp := envMapBuild m₃,
            reached := launchExec k db cwd c u₃ }, ?_, rfl, rfl, fun v => ?_⟩
  · unfold launchCage
    rw [hprepare, Option.bind_some]
    dsimp only
    rw [hhome, Option.bind_some]
    dsimp only
    rw [hfill]
    rfl
  · rw [mem_envMapBuild hm₃ hf₃ (by decide), hset, hkeep]

/-- An empty `SHELL` that is given is not used: it has been freed. -/
def Freed (argv : List CStr) (given : Option CStr) : Prop := isDash argv = true ∧ given = some []

instance (argv : List CStr) (given : Option CStr) : Decidable (Freed argv given) :=
  inferInstanceAs (Decidable (_ ∧ _))

theorem pickedShell_inMap (argv : List CStr) (given : Option CStr) (guest : CStr) :
    (pickedShell argv given guest).inMap = (isDash argv && given.isSome) := by
  unfold pickedShell
  cases isDash argv <;> rfl

theorem launchCage_parsed (hfresh : Fresh u₀) (hu : Cache db u₀ u) {host : Host}
    {envs : List CStr} {env : Env} (hargs : parseEnvs true host envs = some (some env))
    (k : Kernel) (c : Creds) (cwd : Option CStr) {argv : List CStr} (hasks : AsksShell argv) :
    ∃ st, launchCage true db k c u env cwd argv = some
        (if Freed argv (lastValue envs (lit "SHELL")) then .dangling else .started st) ∧
      st.cmd = (pickedShell argv (lastValue envs (lit "SHELL")) (guestShell db u₀)).text ∧
      st.argv = [45 :: shellBase st.cmd] ∧
      ∀ v, some (lit "SHELL" ++ equals :: v) ∈ st.envp ↔
        v = if (lastValue envs (lit "SHELL")).getD [] = [] then guestShell db u₀
            else (lastValue envs (lit "SHELL")).getD [] := by
  obtain ⟨hall, hflag⟩ := parseEnvs_shell hargs
  obtain ⟨env', hrun, hholds⟩ := parseEnvs_holds host hall
  rw [hargs] at hrun
  obtain rfl := Option.some.inj (Option.some.inj hrun)
  have hdefault : defaultValue host (lit "SHELL") = none := by
    unfold defaultValue
    rw [if_neg (by decide), if_neg (by decide), if_neg (by decide)]
  have hget : (lastValue envs (lit "SHELL")).or (defaultValue host (lit "SHELL")) =
      lastValue envs (lit "SHELL") := by
    rw [hdefault, Option.or_none]
  obtain ⟨st, hst, hcmd, hargv, henv⟩ :=
    launchCage_shell hfresh hu hholds (plainNames_args host envs) k c cwd hasks
  rw [hget] at hst hcmd henv
  refine ⟨st, ?_, hcmd, hargv, fun v => (henv v).trans ?_⟩
  · rw [hst]
    refine congrArg some (if_congr ?_ rfl rfl)
    rw [pickedShell_inMap, Bool.and_eq_true, Bool.and_eq_true, hflag, and_assoc]
    refine and_congr_right fun _ => ?_
    cases lastValue envs (lit "SHELL") with
    | none => simp
    | some v => simp
  generalize lastValue envs (lit "SHELL") = given at *
  by_cases hempty : given.getD [] = []
  · rw [if_pos (hflag.mpr hempty), if_pos hempty, Option.some.injEq, eq_comm]
  · have hsome : given = some (given.getD []) := by
      cases given with
      | none => exact absurd rfl hempty
      | some v => rfl
    rw [if_neg (fun h => hempty (hflag.mp h)), if_neg hempty, hsome, Option.some.injEq, eq_comm]
    rfl

/-- What is started is what was picked, and nothing that was picked has been freed. -/
theorem launchCage_started (hfresh : Fresh u₀) (hu : Cache db u₀ u) {host : Host}
    {envs : List CStr} {env : Env} (hargs : parseEnvs true host envs = some (some env))
    (k : Kernel) (c : Creds) (cwd : Option CStr) {argv : List CStr} (hasks : AsksShell argv)
    {st : Start} (hst : launchCage true db k c u env cwd argv = some (.started st)) :
    ¬ Freed argv (lastValue envs (lit "SHELL")) ∧
      st.cmd = (pickedShell argv (lastValue envs (lit "SHELL")) (guestShell db u₀)).text := by
  obtain ⟨st', hst', hcmd, -⟩ := launchCage_parsed hfresh hu hargs k c cwd hasks
  rw [hst] at hst'
  by_cases hfreed : Freed argv (lastValue envs (lit "SHELL"))
  · rw [if_pos hfreed] at hst'
    cases hst'
  · rw [if_neg hfreed] at hst'
    cases hst'
    exact ⟨hfreed, hcmd⟩

end

/-- Both forms of asking for a shell start the documented one, exactly if no argument
gives a shell, or the last that does gives the one the user has anyway and it is not
empty. The calls `ks` are those made on the user before. -/
theorem startsShell_iff {s g r : Option CStr} {u₀ : UserT} {host : Host} {envs : List CStr}
    {env : Env} (db : Db) (hnew : userNew s g r = some u₀) (ks : List Call)
    (hargs : parseEnvs true host envs = some (some env)) :
    StartsShell db (Calls.after (User.call db) u₀ ks) env
        (loginShell (lastValue envs (lit "SHELL")) (guestShell db u₀)) ↔
      lastValue envs (lit "SHELL") = none ∨
        lastValue envs (lit "SHELL") = some (guestShell db u₀) ∧ guestShell db u₀ ≠ [] := by
  obtain ⟨hfresh, -⟩ := userNew_fresh hnew
  have hu := after_cache db hfresh ks
  constructor
  · intro h
    have hcmd : ∀ argv, AsksShell argv → ¬ Freed argv (lastValue envs (lit "SHELL")) ∧
        (pickedShell argv (lastValue envs (lit "SHELL")) (guestShell db u₀)).text =
          loginShell (lastValue envs (lit "SHELL")) (guestShell db u₀) := by
      intro argv hasks
      obtain ⟨st, hst, hcmd, -⟩ := h willing rootCreds none argv hasks
      obtain ⟨hfreed, hpicked⟩ :=
        launchCage_started hfresh hu hargs willing rootCreds none hasks hst
      exact ⟨hfreed, hpicked.symm.trans hcmd⟩
    have hbare := (hcmd [] (.inl rfl)).2
    obtain ⟨hfreed, hdash⟩ := hcmd [lit "-"] (.inr rfl)
    rw [← hbare] at hdash
    cases hgiven : lastValue envs (lit "SHELL") with
    | none => exact .inl rfl
    | some v =>
      rw [hgiven] at hdash hfreed
      have hsame : v = guestShell db u₀ := hdash
      refine .inr ⟨congrArg some hsame, fun hempty => hfreed ⟨rfl, ?_⟩⟩
      rw [hsame, hempty]
  · intro h k c cwd argv hasks
    obtain ⟨st, hst, hcmd, hargv, henv⟩ := launchCage_parsed hfresh hu hargs k c cwd hasks
    generalize lastValue envs (lit "SHELL") = given at *
    have hpicked : (pickedShell argv given (guestShell db u₀)).text = guestShell db u₀ := by
      rcases h with rfl | ⟨rfl, -⟩ <;> unfold pickedShell <;> split <;> rfl
    have hlogin : loginShell given (guestShell db u₀) = guestShell db u₀ := by
      rcases h with rfl | ⟨rfl, -⟩
      · rfl
      · cases guestShell db u₀ <;> rfl
    have hkept : ¬ Freed argv given := by
      rintro ⟨-, hfreed⟩
      rcases h with rfl | ⟨rfl, hne⟩
      · cases hfreed
      · exact hne (Option.some.inj hfreed)
    rw [if_neg hkept] at hst
    rw [hpicked] at hcmd
    rw [hlogin]
    refine ⟨st, hst, hcmd, hcmd ▸ hargv, fun v => (henv v).trans ?_⟩
    rcases h with rfl | ⟨rfl, -⟩ <;> simp

/-- With `-e SHELL=/bin/sh`, the shell that the account has, both forms agree. -/
theorem startsShell_same :
    ∃ env, parseEnvs true { term := none, lang := none } [lit "SHELL=/bin/sh"] = some (some env) ∧
      StartsShell sampleDb sampleUser env (lit "/bin/sh") := by
  obtain ⟨env, hargs, -⟩ := parseEnvs_holds { term := none, lang := none }
    (show ∀ e ∈ [lit "SHELL=/bin/sh"], equals ∈ e by decide)
  refine ⟨env, hargs, ?_⟩
  exact (startsShell_iff (s := some (lit "alice:adm:27")) (g := some users) (r := some (lit "/r"))
    sampleDb (by decide) [] hargs).mpr (.inr (by decide))

/-- With `-e SHELL=/bin/zsh`, `--` still starts the shell of the account; with `-e SHELL=`,
`-` hands on a string that has been freed. -/
theorem bare_ignores_shell :
    (∃ env st, parseEnvs true { term := none, lang := none } [lit "SHELL=/bin/zsh"] =
        some (some env) ∧
      launchCage true sampleDb willing rootCreds sampleUser env none [] = some (.started st) ∧
      st.cmd = lit "/bin/sh") ∧
    (∃ env, parseEnvs true { term := none, lang := none } [lit "SHELL="] = some (some env) ∧
      launchCage true sampleDb willing rootCreds sampleUser env none [lit "-"] =
        some .dangling) ∧
    ¬ ∀ (s g r : Option CStr) (u₀ : UserT) (host : Host) (envs : List CStr) (env : Env) (db : Db),
      userNew s g r = some u₀ → parseEnvs true host envs = some (some env) →
        StartsShell db u₀ env
          (loginShell (lastValue envs (lit "SHELL")) (guestShell db u₀)) := by
  have hnew : userNew (some (lit "alice:adm:27")) (some users) (some (lit "/r")) =
      some sampleUser := by decide
  obtain ⟨env, hargs, -⟩ := parseEnvs_holds { term := none, lang := none }
    (show ∀ e ∈ [lit "SHELL=/bin/zsh"], equals ∈ e by decide)
  obtain ⟨env', hargs', -⟩ := parseEnvs_holds { term := none, lang := none }
    (show ∀ e ∈ [lit "SHELL="], equals ∈ e by decide)
  have hfresh := (userNew_fresh hnew).1
  obtain ⟨st, hst, hcmd, -⟩ := launchCage_parsed hfresh (hfresh.cache sampleDb) hargs willing
    rootCreds none (.inl rfl)
  have hdash : AsksShell [lit "-"] := .inr rfl
  obtain ⟨_, hfreed, -⟩ := launchCage_parsed hfresh (hfresh.cache sampleDb) hargs' willing
    rootCreds none hdash
  rw [if_neg (by decide)] at hst
  rw [if_pos (by decide)] at hfreed
  have hsh : st.cmd = lit "/bin/sh" := hcmd.trans (by decide)
  refine ⟨⟨env, st, hargs, hst, hsh⟩, ⟨env', hargs', hfreed⟩, fun h => ?_⟩
  obtain ⟨st', hst', hcmd', -⟩ := h _ _ _ _ _ _ _ sampleDb hnew hargs willing rootCreds none []
    (.inl rfl)
  rw [hst] at hst'
  cases hst'
  rw [hsh] at hcmd'
  exact absurd hcmd' (by decide)

end Cage.Core
