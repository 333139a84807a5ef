import Mathlib.Data.List.Induction
import Cage.Util.EnvMapCorrect
import Cage.Util.Env

/-!
The map that `parse_envs` leaves: for each name the value of its last argument,
or else the default.
-/

namespace Cage.Util

open Cage.Lib Cage.Lib.LinearProbe

/-- The name and the value of an argument: what stands before and after its
first `=`. -/
def argName (e : CStr) : CStr := e.takeWhile (· ≠ equals)

def argValue (e : CStr) : CStr := (e.dropWhile (· ≠ equals)).tail

/-- The value of the last argument of a name. -/
def lastValue (envs : List CStr) (k : CStr) : Option CStr :=
  (envs.reverse.find? fun e => argName e = k).map argValue

def defaultValue (host : Host) (k : CStr) : Option CStr :=
  if k = lit "PATH" then some defPathValue
  else if k = lit "TERM" then some (host.term.getD (lit "linux"))
  else if k = lit "LANG" then some (host.lang.getD (lit "C"))
  else none

theorem beforeRest_append (a rest : CStr) : beforeRest (a ++ rest) rest = a := by
  unfold beforeRest
  rw [List.length_append, Nat.add_sub_cancel, List.take_left]

theorem argName_append {a v : CStr} (ha : equals ∉ a) : argName (a ++ equals :: v) = a := by
  unfold argName
  rw [List.takeWhile_append_of_pos fun c hc => by simpa using ne_of_mem_of_not_mem hc ha]
  simp

theorem argValue_append {a v : CStr} (ha : equals ∉ a) : argValue (a ++ equals :: v) = v := by
  unfold argValue
  rw [List.dropWhile_append_of_pos fun c hc => by simpa using ne_of_mem_of_not_mem hc ha]
  simp

theorem syncField_holds {m : EnvMap} {f : CStr → Option CStr} (h : m.Holds f) {k v : CStr}
    (hk : equals ∉ k) (hlen : k.length < keyMax) :
    ∃ m', syncField true m (some (k ++ equals :: v)) = some m' ∧
      m'.Holds (Function.update f k (some v)) := by
  unfold syncField
  dsimp only
  rw [strchr_append hk]
  dsimp only
  rw [List.length_append, Nat.add_sub_cancel, if_neg (by omega), beforeRest_append]
  exact envMapPut_holds h k v

theorem tryAny_map (e : CStr) (env : Env) : (tryAny e env).map = env.map := by
  unfold tryAny
  repeat' split
  all_goals rfl

/-- One argument puts its value under its name, or is refused. -/
theorem parseOneEnv_holds {env : Env} {f : CStr → Option CStr} (h : env.map.Holds f) {e : CStr}
    (he : equals ∈ e) :
    ∃ env', parseOneEnv true e env = some (some env') ∧
      env'.map.Holds (Function.update f (argName e) (some (argValue e))) := by
  obtain ⟨a, v, rfl, ha⟩ := List.eq_append_cons_of_mem he
  obtain ⟨m, hput, hm⟩ := envMapPut_holds h a v
  unfold parseOneEnv
  rw [strchr_append ha, argName_append ha, argValue_append ha]
  dsimp only
  rw [tryAny_map, beforeRest_append, List.tail_cons, hput]
  exact ⟨_, rfl, hm⟩

theorem parseOneEnv_refused {e : CStr} (env : Env) (he : equals ∉ e) :
    parseOneEnv true e env = some none := by
  unfold parseOneEnv
  rw [strchr_none he]

/-- The finite map after the arguments. -/
def putArgs (f : CStr → Option CStr) (envs : List CStr) : CStr → Option CStr :=
  envs.foldl (fun f e => Function.update f (argName e) (some (argValue e))) f

theorem parseEach_holds {env : Env} {f : CStr → Option CStr} (h : env.map.Holds f)
    {envs : List CStr} (hall : ∀ e ∈ envs, equals ∈ e) :
    ∃ env', parseEach true env envs = some (some env') ∧ env'.map.Holds (putArgs f envs) := by
  induction envs generalizing env f with
  | nil => exact ⟨env, rfl, h⟩
  | cons e envs ih =>
    obtain ⟨env₁, hparse, h₁⟩ := parseOneEnv_holds h (hall e List.mem_cons_self)
    obtain ⟨env₂, hrest, h₂⟩ := ih h₁ fun e' he' => hall e' (List.mem_cons_of_mem e he')
    refine ⟨env₂, ?_, h₂⟩
    unfold parseEach
    rw [hparse]
    exact hrest

theorem parseEach_refused {env : Env} {f : CStr → Option CStr} (h : env.map.Holds f)
    {envs : List CStr} (hbad : ∃ e ∈ envs, equals ∉ e) : parseEach true env envs = some none := by
  induction envs generalizing env f with
  | nil =>
    obtain ⟨e, he, -⟩ := hbad
    exact absurd he List.not_mem_nil
  | cons e envs ih =>
    unfold parseEach
    by_cases he : equals ∈ e
    · obtain ⟨env₁, hparse, h₁⟩ := parseOneEnv_holds h he
      obtain ⟨e', he', hbad'⟩ := hbad
      rcases List.mem_cons.mp he' with rfl | hmem
      · exact absurd he hbad'
      · rw [hparse]
        exact ih h₁ ⟨e', hmem, hbad'⟩
    · rw [parseOneEnv_refused env he]

theorem putArgs_eq (f : CStr → Option CStr) (envs : List CStr) (k : CStr) :
    putArgs f envs k = (lastValue envs k).or (f k) := by
  induction envs using List.reverseRecOn with
  | nil => rfl
  | append_singleton envs e ih =>
    unfold putArgs lastValue at *
    rw [List.foldl_append, List.foldl_cons, List.foldl_nil, List.reverse_append,
      List.reverse_singleton, List.singleton_append]
    by_cases hk : argName e = k
    · subst hk
      rw [Function.update_self, List.find?_cons_of_pos (by simp)]
      rfl
    · rw [Function.update_of_ne (Ne.symm hk), List.find?_cons_of_neg (by simpa using hk), ih]

/-- The three defaults, in the order they are put. -/
theorem defaults_eq (host : Host) :
    Function.update (Function.update (Function.update (fun _ => none) (lit "PATH")
      (some defPathValue)) (lit "TERM") (some (host.term.getD (lit "linux")))) (lit "LANG")
      (some (host.lang.getD (lit "C"))) = defaultValue host := by
  have hpt : lit "PATH" ≠ lit "TERM" := by decide
  have hpl : lit "PATH" ≠ lit "LANG" := by decide
  have htl : lit "TERM" ≠ lit "LANG" := by decide
  funext k
  unfold defaultValue
  by_cases hp : k = lit "PATH"
  · rw [if_pos hp, hp, Function.update_of_ne hpl, Function.update_of_ne hpt, Function.update_self]
  · by_cases ht : k = lit "TERM"
    · rw [if_neg hp, if_pos ht, ht, Function.update_of_ne htl, Function.update_self]
    · by_cases hl : k = lit "LANG"
      · rw [if_neg hp, if_neg ht, if_pos hl, hl, Function.update_self]
      · rw [if_neg hp, if_neg ht, if_neg hl, Function.update_of_ne hl, Function.update_of_ne ht,
          Function.update_of_ne hp]

theorem setDefaultEnv_map (host : Host) (m : EnvMap) : (setDefaultEnv host m).map = m := rfl

theorem setDefaultEnv_path (host : Host) (m : EnvMap) :
    (setDefaultEnv host m).path = some (lit "PATH" ++ equals :: defPathValue) := rfl

theorem setDefaultEnv_term (host : Host) (m : EnvMap) :
    (setDefaultEnv host m).term =
      some (lit "TERM" ++ equals :: host.term.getD (lit "linux")) := by
  unfold setDefaultEnv
  cases host.term <;> rfl

theorem setDefaultEnv_lang (host : Host) (m : EnvMap) :
    (setDefaultEnv host m).lang = some (lit "LANG" ++ equals :: host.lang.getD (lit "C")) := by
  unfold setDefaultEnv
  cases host.lang <;> rfl

/-- The defaults are in the map before the first argument. -/
theorem parseEnvs_eq (host : Host) (envs : List CStr) :
    ∃ env, env.shell = none ∧ env.map.Holds (defaultValue host) ∧
      parseEnvs true host envs = (parseEach true env envs).map fun r =>
        r.map fun env => { env with guestShellOverride := shellNotGiven env } := by
  obtain ⟨m₀, hinit, h₀⟩ := envMapInit_holds
  obtain ⟨m₁, hpath, h₁⟩ := syncField_holds (k := lit "PATH") (v := defPathValue) h₀
    (by decide) (by decide)
  obtain ⟨m₂, hterm, h₂⟩ := syncField_holds (k := lit "TERM") (v := host.term.getD (lit "linux"))
    h₁ (by decide) (by decide)
  obtain ⟨m₃, hlang, h₃⟩ := syncField_holds (k := lit "LANG") (v := host.lang.getD (lit "C"))
    h₂ (by decide) (by decide)
  rw [defaults_eq] at h₃
  refine ⟨{ setDefaultEnv host m₀ with map := m₃ }, rfl, h₃, ?_⟩
  unfold parseEnvs
  rw [hinit, Option.bind_some]
  dsimp only
  rw [setDefaultEnv_path, setDefaultEnv_term, setDefaultEnv_lang, setDefaultEnv_map, hpath,
    Option.bind_some, hterm, Option.bind_some, hlang, Option.bind_some]

theorem parseEnvs_holds (host : Host) {envs : List CStr} (hall : ∀ e ∈ envs, equals ∈ e) :
    ∃ env, parseEnvs true host envs = some (some env) ∧
      env.map.Holds fun k => (lastValue envs k).or (defaultValue host k) := by
  obtain ⟨env, -, hdefaults, hrun⟩ := parseEnvs_eq host envs
  obtain ⟨env', heach, hholds⟩ := parseEach_holds hdefaults hall
  rw [funext (putArgs_eq (defaultValue host) envs)] at hholds
  rw [hrun, heach]
  exact ⟨_, rfl, hholds⟩

theorem parseEnvs_refused (host : Host) {envs : List CStr} (hbad : ∃ e ∈ envs, equals ∉ e) :
    parseEnvs true host envs = some none := by
  obtain ⟨env, -, hdefaults, hrun⟩ := parseEnvs_eq host envs
  rw [hrun, parseEach_refused hdefaults hbad]
  rfl

theorem isField_iff {key e : CStr} (hkey : equals ∉ key) (he : equals ∈ e) :
    isField key e = true ↔ argName e = key := by
  unfold isField
  rw [Bool.and_eq_true, beq_iff_eq, beq_iff_eq]
  constructor
  · rintro ⟨htake, hget⟩
    obtain ⟨hlt, hat⟩ := List.getElem?_eq_some_iff.mp hget
    have hsplit : e = key ++ equals :: e.drop (key.length + 1) := by
      conv_lhs => rw [← List.take_append_drop key.length e, htake, List.drop_eq_getElem_cons hlt, hat]
    rw [hsplit, argName_append hkey]
  · intro hname
    obtain ⟨a, v, rfl, ha⟩ := List.eq_append_cons_of_mem he
    rw [argName_append ha] at hname
    subst hname
    exact ⟨List.take_left, by simp⟩

theorem tryAny_shell {e : CStr} (env : Env) (he : equals ∈ e) :
    (tryAny e env).shell = if argName e = lit "SHELL" then some e else env.shell := by
  unfold tryAny
  simp only [isField_iff (show equals ∉ lit "PATH" by decide) he,
    isField_iff (show equals ∉ lit "TERM" by decide) he,
    isField_iff (show equals ∉ lit "LANG" by decide) he,
    isField_iff (show equals ∉ lit "HOME" by decide) he,
    isField_iff (show equals ∉ lit "SHELL" by decide) he,
    isField_iff (show equals ∉ lit "USER" by decide) he]
  split
  · rename_i h
    rw [h, if_neg (by decide)]
  · split
    · rename_i h
      rw [h, if_neg (by decide)]
    · split
      · rename_i h
        rw [h, if_neg (by decide)]
      · split
        · rename_i h
          rw [h, if_neg (by decide)]
        · split
          · rfl
          · split <;> rfl

theorem parseOneEnv_shell {e : CStr} {env env' : Env} (h : parseOneEnv true e env = some (some env')) :
    equals ∈ e ∧ env'.shell = if argName e = lit "SHELL" then some e else env.shell := by
  by_cases he : equals ∈ e
  · refine ⟨he, ?_⟩
    obtain ⟨a, v, rfl, ha⟩ := List.eq_append_cons_of_mem he
    unfold parseOneEnv at h
    rw [strchr_append ha] at h
    dsimp only at h
    rw [Option.map_eq_some_iff] at h
    obtain ⟨m, -, hm⟩ := h
    obtain rfl := Option.some.inj hm
    exact tryAny_shell env he
  · rw [parseOneEnv_refused env he] at h
    cases h

/-- The argument that `env->shell` points to is the last one of that name. -/
theorem parseEach_shell {envs : List CStr} {env env' : Env}
    (h : parseEach true env envs = some (some env')) :
    env'.shell = (envs.reverse.find? fun e => argName e = lit "SHELL").or env.shell := by
  induction envs generalizing env with
  | nil =>
    cases h
    rfl
  | cons e envs ih =>
    unfold parseEach at h
    cases hone : parseOneEnv true e env with
    | none =>
      rw [hone] at h
      cases h
    | some r =>
      cases r with
      | none =>
        rw [hone] at h
        cases h
      | some env₁ =>
        rw [hone] at h
        rw [ih h, (parseOneEnv_shell hone).2, List.reverse_cons, List.find?_append, Option.or_assoc]
        by_cases hname : argName e = lit "SHELL" <;> simp [hname]

/-- The flag of `parse_envs` says that no argument gives a shell, or that the last
one that does gives the empty one. -/
theorem shellNotGiven_iff {env : Env} {envs : List CStr} (hall : ∀ e ∈ envs, equals ∈ e)
    (h : env.shell = envs.reverse.find? fun e => argName e = lit "SHELL") :
    shellNotGiven env = true ↔ (lastValue envs (lit "SHELL")).getD [] = [] := by
  unfold shellNotGiven lastValue
  rw [h]
  cases hfind : envs.reverse.find? fun e => argName e = lit "SHELL" with
  | none => simp
  | some e =>
    have hname : argName e = lit "SHELL" := by simpa using List.find?_some hfind
    have hmem : e ∈ envs := List.mem_reverse.mp (List.mem_of_find?_eq_some hfind)
    obtain ⟨a, v, rfl, ha⟩ := List.eq_append_cons_of_mem (hall e hmem)
    rw [argName_append ha] at hname
    subst hname
    show ((lit "SHELL" ++ equals :: v)[(lit "SHELL=").length]? == none) = true ↔
      argValue (lit "SHELL" ++ equals :: v) = []
    rw [argValue_append ha]
    cases v <;> simp [lit]

theorem parseEnvs_shell {host : Host} {envs : List CStr} {env : Env}
    (h : parseEnvs true host envs = some (some env)) :
    (∀ e ∈ envs, equals ∈ e) ∧
      (env.guestShellOverride = true ↔ (lastValue envs (lit "SHELL")).getD [] = []) := by
  have hall : ∀ e ∈ envs, equals ∈ e := by
    intro e he
    by_contra hbad
    rw [parseEnvs_refused host ⟨e, he, hbad⟩] at h
    cases h
  obtain ⟨env₀, hshell, -, hrun⟩ := parseEnvs_eq host envs
  rw [hrun, Option.map_eq_some_iff] at h
  obtain ⟨r, hr, hmap⟩ := h
  obtain ⟨env₁, rfl, rfl⟩ := Option.map_eq_some_iff.mp hmap
  have heach := parseEach_shell hr
  rw [hshell, Option.or_none] at heach
  exact ⟨hall, shellNotGiven_iff hall heach⟩

/-- The environment map is a finite map, and `parse_envs` fills it with the
defaults and the last argument of each name. -/
theorem envMap_refines (ks : List MapCall) (host : Host) (envs : List CStr) :
    (∃ m, Calls.after (mapCall true) (envMapInit true) ks = some m ∧
      (∃ i < m.cap, entryAt m.slots i = none) ∧
      Calls.answers (mapCall true) (envMapInit true) ks = Calls.answers refCall (fun _ => none) ks ∧
      (∀ k, envMapGet m k = some (Calls.after refCall (fun _ => none) ks k)) ∧
      ∃ kvs, Builds m (Calls.after refCall (fun _ => none) ks) kvs) ∧
    (parseEnvs true host envs = some none ↔ ∃ e ∈ envs, equals ∉ e) ∧
    ((∀ e ∈ envs, equals ∈ e) → ∃ env, parseEnvs true host envs = some (some env) ∧
      ∀ k, envMapGet env.map k = some ((lastValue envs k).or (defaultValue host k))) := by
  refine ⟨?_, ⟨fun hfail => ?_, parseEnvs_refused host⟩, fun hall => ?_⟩
  · obtain ⟨m, hafter, hholds⟩ := mapCall_refines.after_rel envMapInit_holds ks
    have hroom : (entries m.slots).length < m.slots.length := by
      rw [← hholds.wf.counted]
      exact hholds.free
    exact ⟨m, hafter, exists_free hroom, mapCall_refines.answers_eq envMapInit_holds ks,
      envMapGet_holds hholds, _, hholds.builds⟩
  · by_contra hnone
    have hall : ∀ e ∈ envs, equals ∈ e := fun e he => by
      by_contra hbad
      exact hnone ⟨e, he, hbad⟩
    obtain ⟨env, hrun, -⟩ := parseEnvs_holds host hall
    rw [hrun] at hfail
    cases hfail
  · obtain ⟨env, hrun, hholds⟩ := parseEnvs_holds host hall
    exact ⟨env, hrun, envMapGet_holds hholds⟩

end Cage.Util
