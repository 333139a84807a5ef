import Mathlib.Data.List.TakeWhile
import Cage.Core.ChildPrecedence

/-!
`find_envvar` of `src/core/prep.c` beside the map of `parse_envs`: the one takes
the first `-e` argument of a key, the other keeps the last.
-/

namespace Cage.Core

open Lib Lib.LinearProbe Util

/-- The arguments whose name is the key. -/
def argsFor (key : CStr) (envs : List CStr) : List CStr := envs.filter fun e => argName e = key

/-- The two readers give the same answer, with an empty value for none. -/
def ReadersAgree (env : Env) (envs : List CStr) (key : CStr) : Prop :=
  (∀ v, findEnvvar envs key = some v ↔ envMapGet env.map key = some (some v) ∧ v ≠ []) ∧
    (findEnvvar envs key = none ↔
      envMapGet env.map key = some none ∨ envMapGet env.map key = some (some []))

/-- The first and the last argument of the key have one value. For a key that no
argument can name, since it holds an `=`: the first argument that begins with the
key and `=` goes no further. -/
def EndsAgree (envs : List CStr) (key : CStr) : Prop :=
  if equals ∈ key then ∀ e, envs.find? (isField key) = some e → e = key ++ [equals]
  else (argsFor key envs).head?.map argValue = (argsFor key envs).getLast?.map argValue

/-- An empty value counts as none. -/
def nonEmpty (v : Option CStr) : Option CStr := v.filter fun v => v ≠ []

theorem isField_split {key e : CStr} (h : isField key e = true) :
    ∃ v, e = key ++ equals :: v := by
  unfold isField at h
  simp only [Bool.and_eq_true, beq_iff_eq] at h
  obtain ⟨htake, hval⟩ := h
  obtain ⟨hlt, hval⟩ := List.getElem?_eq_some_iff.mp hval
  refine ⟨e.drop (key.length + 1), ?_⟩
  calc e = e.take key.length ++ e.drop key.length := (List.take_append_drop _ e).symm
    _ = key ++ equals :: e.drop (key.length + 1) := by
      rw [htake, List.drop_eq_getElem_cons hlt, hval]

theorem isField_append (key v : CStr) : isField key (key ++ equals :: v) = true := by
  simp [isField]

theorem drop_field (key v : CStr) : (key ++ equals :: v).drop (key.length + 1) = v := by
  rw [← List.drop_drop, List.drop_left]
  rfl

/-- `find_envvar` reads the first argument that begins with the key and `=`. -/
theorem findEnvvar_eq (envs : List CStr) (key : CStr) : findEnvvar envs key =
    nonEmpty ((envs.find? (isField key)).map fun e => e.drop (key.length + 1)) := by
  induction envs with
  | nil => rfl
  | cons e envs ih =>
    unfold findEnvvar
    cases hfield : isField key e with
    | false =>
      rw [List.find?_cons_of_neg (by simp [hfield]), if_neg Bool.false_ne_true]
      exact ih
    | true =>
      rw [List.find?_cons_of_pos hfield, if_pos rfl, Option.map_some, nonEmpty, Option.filter_some]
      split
      · rename_i hnil
        simp [hnil]
      · rename_i hne
        simp [hne]

/-- With a key that an argument can name, that is the first argument of the key. -/
theorem find_field {key : CStr} (hkey : equals ∉ key) {envs : List CStr}
    (hall : ∀ e ∈ envs, equals ∈ e) :
    (envs.find? (isField key)).map (fun e => e.drop (key.length + 1)) =
      (argsFor key envs).head?.map argValue := by
  induction envs with
  | nil => rfl
  | cons e envs ih =>
    have hrest := ih fun e' he' => hall e' (List.mem_cons_of_mem e he')
    obtain ⟨a, v, hsplit, ha⟩ := List.eq_append_cons_of_mem (hall e List.mem_cons_self)
    by_cases hname : argName e = key
    · have hak : a = key := by
        rw [← hname, hsplit, argName_append ha]
      subst hak
      have hfield : isField a e = true := by
        rw [hsplit]
        exact isField_append a v
      rw [List.find?_cons_of_pos hfield, argsFor, List.filter_cons_of_pos (by simpa using hname),
        List.head?_cons, Option.map_some, Option.map_some, hsplit, drop_field, argValue_append ha]
    · have hfield : ¬isField key e = true := fun h => hname (argName_of_isField hkey h)
      rw [List.find?_cons_of_neg hfield, hrest, argsFor, argsFor,
        List.filter_cons_of_neg (by simpa using hname)]

theorem lastValue_eq (envs : List CStr) (key : CStr) :
    lastValue envs key = (argsFor key envs).getLast?.map argValue := by
  unfold lastValue argsFor
  rw [← List.head?_reverse, ← List.filter_reverse, List.head?_filter]

theorem lastValue_none {key : CStr} (hkey : equals ∈ key) (envs : List CStr) :
    lastValue envs key = none := by
  rw [lastValue, Option.map_eq_none_iff, List.find?_eq_none]
  intro e _ hname
  have hmem : equals ∈ argName e := by
    rw [of_decide_eq_true hname]
    exact hkey
  have hne := List.mem_takeWhile_imp hmem
  simp at hne

theorem nonEmpty_eq_none {v : Option CStr} : nonEmpty v = none ↔ v = none ∨ v = some [] := by
  cases v with
  | none => simp [nonEmpty]
  | some v => simp [nonEmpty, Option.filter_some]

theorem nonEmpty_eq_some {v : Option CStr} {x : CStr} :
    nonEmpty v = some x ↔ v = some x ∧ x ≠ [] := by
  unfold nonEmpty
  rw [Option.filter_eq_some_iff, decide_eq_true_eq]

/-- The readers agree when what the one finds is what the other holds, with the
empty value for none. -/
theorem readersAgree_iff {env : Env} {envs : List CStr} {key : CStr} {m : Option CStr}
    (hmap : envMapGet env.map key = some m) :
    ReadersAgree env envs key ↔ findEnvvar envs key = nonEmpty m := by
  unfold ReadersAgree
  simp only [hmap, Option.some.injEq, ← nonEmpty_eq_some, ← nonEmpty_eq_none]
  constructor
  · rintro ⟨hsome, -⟩
    exact Option.ext hsome
  · intro h
    rw [h]
    exact ⟨fun _ => Iff.rfl, Iff.rfl⟩

/-- An accepted list, and what the map holds for a key without a default. -/
theorem parseEnvs_get {host : Host} {envs : List CStr} {env : Env} {key : CStr}
    (hparse : parseEnvs true host envs = some (some env)) (hkey : defaultValue host key = none) :
    (∀ e ∈ envs, equals ∈ e) ∧ envMapGet env.map key = some (lastValue envs key) := by
  have hall : ∀ e ∈ envs, equals ∈ e := by
    intro e he
    by_contra hbad
    rw [parseEnvs_refused host ⟨e, he, hbad⟩] at hparse
    cases hparse
  obtain ⟨env', hparse', hholds⟩ := parseEnvs_holds host hall
  rw [hparse] at hparse'
  cases hparse'
  have hget := envMapGet_holds hholds key
  rw [hkey, Option.or_none] at hget
  exact ⟨hall, hget⟩

/-- The first value and the last one, with the empty value for none. -/
theorem nonEmpty_ends {A : Type} (l : List A) (f : A → CStr) :
    nonEmpty (l.head?.map f) = nonEmpty (l.getLast?.map f) ↔
      l.head?.map f = l.getLast?.map f := by
  refine ⟨fun h => ?_, congrArg nonEmpty⟩
  rcases l.eq_nil_or_concat with rfl | hcons
  · rfl
  · have hne : l ≠ [] := by
      obtain ⟨l', a, rfl⟩ := hcons
      simp
    have hhead : l.head? = some (l.head hne) := List.head?_eq_some_head hne
    have hlast : l.getLast? = some (l.getLast hne) := List.getLast?_eq_some_getLast hne
    rw [hhead, hlast, Option.map_some, Option.map_some] at h ⊢
    cases hx : f (l.head hne) with
    | cons x xs =>
      rw [hx] at h
      have hfirst : nonEmpty (some (x :: xs)) = some (x :: xs) :=
        nonEmpty_eq_some.mpr ⟨rfl, List.cons_ne_nil x xs⟩
      exact (nonEmpty_eq_some.mp (h.symm.trans hfirst)).1.symm
    | nil =>
      rw [hx] at h
      rcases nonEmpty_eq_none.mp (h.symm.trans (nonEmpty_eq_none.mpr (Or.inr rfl))) with he | he
      · cases he
      · exact he.symm

/-- For a key without a default, the two readers agree on it just when its first
and its last argument do. -/
theorem findEnvvar_agrees_iff {host : Host} {envs : List CStr} {env : Env} {key : CStr}
    (hparse : parseEnvs true host envs = some (some env)) (hkey : defaultValue host key = none) :
    ReadersAgree env envs key ↔ EndsAgree envs key := by
  obtain ⟨hall, hget⟩ := parseEnvs_get hparse hkey
  rw [readersAgree_iff hget, findEnvvar_eq]
  unfold EndsAgree
  by_cases heq : equals ∈ key
  · rw [if_pos heq, lastValue_none heq, show nonEmpty none = none from rfl, nonEmpty_eq_none]
    constructor
    · intro h e he
      obtain ⟨v, rfl⟩ := isField_split (List.find?_some he)
      rw [he, Option.map_some, drop_field] at h
      rcases h with h | h
      · cases h
      · rw [Option.some.inj h]
    · intro h
      cases hfind : envs.find? (isField key) with
      | none => exact Or.inl rfl
      | some e =>
        have hend : e = key ++ equals :: [] := h e hfind
        rw [Option.map_some, hend, drop_field]
        exact Or.inr rfl
  · rw [if_neg heq, find_field heq hall, lastValue_eq]
    exact nonEmpty_ends _ _

/-- One argument, and a key that it gives. -/
theorem findEnvvar_agrees_display :
    ∃ env, ReadersAgree env [lit "DISPLAY=:0"] (lit "DISPLAY") := by
  have hall : ∀ e ∈ [lit "DISPLAY=:0"], equals ∈ e := by decide
  obtain ⟨env, hparse, -⟩ := parseEnvs_holds { term := none, lang := none } hall
  have hends : EndsAgree [lit "DISPLAY=:0"] (lit "DISPLAY") := by
    rw [EndsAgree, if_neg (by decide)]
    decide
  exact ⟨env, (findEnvvar_agrees_iff hparse (by decide)).mpr hends⟩

/-- `-e DISPLAY=:0 -e DISPLAY=:1`: the mounts are made for `:0`, the guest gets
`:1`. -/
theorem findEnvvar_differs :
    ¬ ∀ (host : Host) (envs : List CStr) (env : Env) (key : CStr),
      parseEnvs true host envs = some (some env) → defaultValue host key = none →
        ReadersAgree env envs key := by
  intro h
  have hall : ∀ e ∈ [lit "DISPLAY=:0", lit "DISPLAY=:1"], equals ∈ e := by decide
  obtain ⟨env, hparse, -⟩ := parseEnvs_holds { term := none, lang := none } hall
  have hkey : defaultValue { term := none, lang := none } (lit "DISPLAY") = none := by decide
  have hread := h _ _ env _ hparse hkey
  rw [readersAgree_iff (parseEnvs_get hparse hkey).2] at hread
  revert hread
  decide

end Cage.Core
