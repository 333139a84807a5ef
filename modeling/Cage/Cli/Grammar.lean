import Mathlib.Algebra.GroupWithZero.Nat
import Mathlib.Data.List.TakeWhile
import Mathlib.Logic.Basic
import Cage.Cli.Getopt

/-!
The command lines that `getopt_long` takes as a whole: groups of letters, long options and
what is behind the options, each written in one of the ways that there are.
-/

namespace Cage.Cli

open Util

/-- An option with its argument. -/
abbrev Given := UInt8 × Option CStr

/-- Options as they may be written. -/
inductive Item (o : Options) where
  /-- `-xyz` -/
  | flags (cs : CStr) (hne : cs ≠ []) (hcs : ∀ c ∈ cs, o.short c = some false)
  /-- `-xyzarg` -/
  | attached (cs : CStr) (c : UInt8) (arg : CStr) (hcs : ∀ c ∈ cs, o.short c = some false)
      (hc : o.short c = some true) (harg : arg ≠ [])
  /-- `-xyz arg` -/
  | separate (cs : CStr) (c : UInt8) (arg : CStr) (hcs : ∀ c ∈ cs, o.short c = some false)
      (hc : o.short c = some true)
  /-- `--word` -/
  | word (w : CStr) (l : LongOpt) (hw : equals ∉ w) (hl : o.long w = some l) (harg : l.hasArg = false)
  /-- `--word=arg` -/
  | wordEquals (w arg : CStr) (l : LongOpt) (hw : equals ∉ w) (hl : o.long w = some l)
      (harg : l.hasArg = true)
  /-- `--word arg` -/
  | wordSeparate (w arg : CStr) (l : LongOpt) (hw : equals ∉ w) (hl : o.long w = some l)
      (harg : l.hasArg = true)

namespace Item

variable {o : Options}

def render : Item o → List CStr
  | flags cs _ _ => [dash :: cs]
  | attached cs c arg _ _ _ => [dash :: (cs ++ c :: arg)]
  | separate cs c arg _ _ => [dash :: (cs ++ [c]), arg]
  | word w _ _ _ _ => [dash :: dash :: w]
  | wordEquals w arg _ _ _ _ => [dash :: dash :: (w ++ equals :: arg)]
  | wordSeparate w arg _ _ _ _ => [dash :: dash :: w, arg]

def given : Item o → List Given
  | flags cs _ _ => cs.map fun c => (c, none)
  | attached cs c arg _ _ _ => (cs.map fun c => (c, none)) ++ [(c, some arg)]
  | separate cs c arg _ _ => (cs.map fun c => (c, none)) ++ [(c, some arg)]
  | word _ l _ _ _ => [(l.val, none)]
  | wordEquals _ arg l _ _ _ => [(l.val, some arg)]
  | wordSeparate _ arg l _ _ _ => [(l.val, some arg)]

end Item

/-- The argument ends the options: it does not begin with a dash, or it is one. -/
def Ends (arg : CStr) : Prop := arg = [dash] ∨ arg.head? ≠ some dash

/-- What is behind the options. -/
inductive Tail where
  /-- `--`, and whatever comes then -/
  | dashes (cmd : List CStr)
  | plain (cmd : List CStr) (h : ∀ arg ∈ cmd.head?, Ends arg)

namespace Tail

def render : Tail → List CStr
  | dashes cmd => [dash, dash] :: cmd
  | plain cmd _ => cmd

def command : Tail → List CStr
  | dashes cmd => cmd
  | plain cmd _ => cmd

def dashed : Tail → Bool
  | dashes _ => true
  | plain .. => false

end Tail

/-- A command line, read. -/
structure Reading (o : Options) where
  items : List (Item o)
  tail : Tail

namespace Reading

variable {o : Options}

def render (r : Reading o) : List CStr := r.items.flatMap Item.render ++ r.tail.render

def given (r : Reading o) : List Given := r.items.flatMap Item.given

end Reading

/-- A dash is no option, and no part of a name is no name. -/
structure Options.Sane (o : Options) : Prop where
  dash : o.short dash = none
  empty : o.long [] = none

/-- All calls: the options, and where they end and what is behind them begins, if none is wrong. -/
def getoptAll (o : Options) (argv : List CStr) : Nat → Getopt → Option (List Given × Option (Nat × Nat))
  | 0, _ => none
  | rounds + 1, g =>
      match getoptLong o argv g with
      | (.done, g') => some ([], some (g.optind, g'.optind))
      | (.opt c optarg, g') => (getoptAll o argv rounds g').map fun r => ((c, optarg) :: r.1, r.2)
      | (.missing, _) => some ([], none)
      | (.unknown, _) => some ([], none)

/-- Where the options end that begin at `i`, and where the command begins. -/
structure Reading.Ends {o : Options} (r : Reading o) (i : Nat) (e : Nat × Nat) : Prop where
  first : e.1 = i + (r.items.flatMap Item.render).length
  second : e.2 = e.1 + if r.tail.dashed then 1 else 0

section Steps

variable {o : Options} {argv : List CStr} {i : Nat}

theorem all_opt {rounds : Nat} {g g' : Getopt} {c : UInt8} {optarg : Option CStr}
    (h : getoptLong o argv g = (.opt c optarg, g')) :
    getoptAll o argv (rounds + 1) g =
      (getoptAll o argv rounds g').map fun r => ((c, optarg) :: r.1, r.2) := by
  rw [getoptAll, h]

theorem getoptLong_group (c : UInt8) (group : CStr) :
    getoptLong o argv ⟨i, c :: group⟩ = getoptShort o argv i c group := rfl

/-- A letter that begins a group. -/
theorem getoptLong_letter {c : UInt8} {group : CStr} {rest : List CStr}
    (hargv : argv.drop i = (dash :: c :: group) :: rest) (hc : c ≠ dash) :
    getoptLong o argv ⟨i, []⟩ = getoptShort o argv i c group := by
  unfold getoptLong
  dsimp only
  rw [hargv]
  dsimp only
  rw [if_neg (not_not_intro rfl), if_pos hc]

theorem getoptLong_word {word : CStr} {rest : List CStr}
    (hargv : argv.drop i = (dash :: dash :: word) :: rest) (hword : word ≠ []) :
    getoptLong o argv ⟨i, []⟩ = getoptWord o argv i word := by
  unfold getoptLong
  dsimp only
  rw [hargv]
  dsimp only
  rw [if_neg (not_not_intro rfl), if_neg (not_not_intro rfl), if_neg hword]

theorem drop_next {arg : CStr} {rest : List CStr} (hargv : argv.drop i = arg :: rest) :
    argv.drop (i + 1) = rest := by
  rw [← List.drop_drop, hargv]
  rfl

end Steps

/-- A call that finds a short option, and what it leaves. -/
theorem getoptShort_opt {o : Options} {argv : List CStr} {i : Nat} {c d : UInt8} {group : CStr}
    {optarg : Option CStr} {g : Getopt} (h : getoptShort o argv i c group = (.opt d optarg, g)) :
    d = c ∧
      (o.short c = some false ∧ optarg = none ∧ (group = [] ∧ g = ⟨i + 1, []⟩ ∨ group ≠ [] ∧ g = ⟨i, group⟩) ∨
        o.short c = some true ∧ group ≠ [] ∧ optarg = some group ∧ g = ⟨i + 1, []⟩ ∨
        o.short c = some true ∧ group = [] ∧
          ∃ arg rest, argv.drop (i + 1) = arg :: rest ∧ optarg = some arg ∧ g = ⟨i + 2, []⟩) := by
  unfold getoptShort at h
  cases hshort : o.short c with
  | none =>
    rw [hshort] at h
    cases h
  | some takes =>
    rw [hshort] at h
    cases takes with
    | false =>
      cases h
      refine ⟨rfl, .inl ⟨rfl, rfl, ?_⟩⟩
      by_cases hgroup : group = []
      · exact .inl ⟨hgroup, if_pos hgroup⟩
      · exact .inr ⟨hgroup, if_neg hgroup⟩
    | true =>
      dsimp only at h
      split at h
      · rename_i hgroup
        cases h
        exact ⟨rfl, .inr (.inl ⟨rfl, hgroup, rfl, rfl⟩)⟩
      · rename_i hgroup
        cases hrest : argv.drop (i + 1) with
        | nil =>
          rw [hrest] at h
          cases h
        | cons arg rest =>
          rw [hrest] at h
          cases h
          exact ⟨rfl, .inr (.inr ⟨rfl, not_not.mp hgroup, arg, rest, rfl, rfl, rfl⟩)⟩

theorem getoptShort_not_done {o : Options} {argv : List CStr} {i : Nat} {c : UInt8} {group : CStr}
    {g : Getopt} : getoptShort o argv i c group ≠ (.done, g) := by
  intro h
  unfold getoptShort at h
  cases hshort : o.short c with
  | none =>
    rw [hshort] at h
    cases h
  | some takes =>
    rw [hshort] at h
    cases takes with
    | false => cases h
    | true =>
      dsimp only at h
      split at h
      · cases h
      · cases hrest : argv.drop (i + 1) <;> (rw [hrest] at h; cases h)

theorem all_cases {o : Options} {argv : List CStr} {rounds : Nat} {g : Getopt} {given : List Given}
    {e : Nat × Nat} (h : getoptAll o argv rounds g = some (given, some e)) :
    ∃ rounds', rounds = rounds' + 1 ∧
      ((∃ g', getoptLong o argv g = (.done, g') ∧ given = [] ∧ e = (g.optind, g'.optind)) ∨
        ∃ c optarg g' given', getoptLong o argv g = (.opt c optarg, g') ∧ given = (c, optarg) :: given' ∧
          getoptAll o argv rounds' g' = some (given', some e)) := by
  cases rounds with
  | zero => cases h
  | succ rounds =>
    refine ⟨rounds, rfl, ?_⟩
    rw [getoptAll] at h
    cases hfound : getoptLong o argv g with
    | mk found g' =>
      rw [hfound] at h
      cases found with
      | done =>
        cases h
        exact .inl ⟨g', rfl, rfl, rfl⟩
      | opt c optarg =>
        obtain ⟨⟨given', e'⟩, hrest, heq⟩ := Option.map_eq_some_iff.mp h
        cases heq
        exact .inr ⟨c, optarg, g', given', rfl, rfl, hrest⟩
      | missing => cases h
      | unknown => cases h

section Words

variable {o : Options} {argv : List CStr} {i : Nat} {w : CStr}

theorem takeWhile_word (hw : equals ∉ w) : w.takeWhile (· ≠ equals) = w := by
  exact List.takeWhile_eq_self_iff.mpr fun c hc => decide_eq_true fun heq => hw (heq ▸ hc)

theorem takeWhile_equals (hw : equals ∉ w) (arg : CStr) :
    (w ++ equals :: arg).takeWhile (· ≠ equals) = w := by
  have hall : ∀ c ∈ w, decide (c ≠ equals) = true :=
    fun c hc => decide_eq_true fun heq => hw (heq ▸ hc)
  rw [List.takeWhile_append_of_pos hall]
  exact List.append_nil w

/-- A long option that is found is one item. -/
theorem word_sound {text : CStr} {d : UInt8} {optarg : Option CStr} {g : Getopt}
    (h : getoptWord o argv i text = (.opt d optarg, g)) :
    ∃ (item : Item o) (args : List CStr), item.render = (dash :: dash :: text) :: args ∧
      argv.drop (i + 1) = args ++ argv.drop (i + item.render.length) ∧ item.given = [(d, optarg)] ∧
      g = ⟨i + item.render.length, []⟩ := by
  by_cases hmem : equals ∈ text
  · obtain ⟨w, arg, rfl, hw⟩ := List.eq_append_cons_of_mem hmem
    unfold getoptWord at h
    rw [takeWhile_equals hw, strchr_append hw] at h
    cases hl : o.long w with
    | none =>
      rw [hl] at h
      cases h
    | some l =>
      rw [hl] at h
      dsimp only at h
      split at h
      · rename_i harg
        cases h
        exact ⟨.wordEquals w arg l hw hl harg, [], rfl, rfl, rfl, rfl⟩
      · cases h
  · unfold getoptWord at h
    rw [takeWhile_word hmem, strchr_none hmem] at h
    cases hl : o.long text with
    | none =>
      rw [hl] at h
      cases h
    | some l =>
      rw [hl] at h
      dsimp only at h
      split at h
      · rename_i harg
        cases hrest : argv.drop (i + 1) with
        | nil =>
          rw [hrest] at h
          cases h
        | cons arg rest =>
          rw [hrest] at h
          cases h
          exact ⟨.wordSeparate text arg l hmem hl harg, [arg], rfl,
            congrArg _ (drop_next hrest).symm, rfl, rfl⟩
      · rename_i harg
        cases h
        exact ⟨.word text l hmem hl (Bool.not_eq_true _ ▸ harg), [], rfl, rfl, rfl, rfl⟩

theorem getoptWord_not_done {text : CStr} {g : Getopt} : getoptWord o argv i text ≠ (.done, g) := by
  intro h
  unfold getoptWord at h
  cases hl : o.long (text.takeWhile (· ≠ equals)) with
  | none =>
    rw [hl] at h
    cases h
  | some l =>
    rw [hl] at h
    dsimp only at h
    cases hvalue : strchr text equals with
    | none =>
      rw [hvalue] at h
      dsimp only at h
      split at h
      · cases hrest : argv.drop (i + 1) <;> (rw [hrest] at h; cases h)
      · cases h
    | some value =>
      rw [hvalue] at h
      dsimp only at h
      split at h <;> cases h

end Words

section Sound

variable {o : Options} {argv : List CStr} {e : Nat × Nat}

/-- What is left of a group at its place, if no letter from there on is wrong: with whatever letters
came before, it is one item, and the calls go on behind it. -/
theorem group_sound (group : CStr) (hne : group ≠ []) : ∀ (i rounds : Nat) (given : List Given)
    (before : CStr), (∀ c ∈ before, o.short c = some false) →
      getoptAll o argv rounds ⟨i, group⟩ = some (given, some e) →
        ∃ (item : Item o) (given' : List Given) (rounds' : Nat) (args : List CStr), rounds' < rounds ∧
          item.render = (dash :: (before ++ group)) :: args ∧
          argv.drop (i + 1) = args ++ argv.drop (i + item.render.length) ∧
          (before.map fun c => (c, none)) ++ given = item.given ++ given' ∧
          getoptAll o argv rounds' ⟨i + item.render.length, []⟩ = some (given', some e) := by
  induction group with
  | nil => exact absurd rfl hne
  | cons c group ih =>
    intro i rounds given before hbefore hall
    have hflags : ∀ d, o.short d = some false → ∀ x ∈ before ++ [d], o.short x = some false := by
      intro d hd x hx
      rcases List.mem_append.mp hx with hx | hx
      · exact hbefore x hx
      · exact List.mem_singleton.mp hx ▸ hd
    obtain ⟨rounds, rfl, ⟨g', hdone, -⟩ | ⟨d, optarg, g', given', hopt, rfl, hrest⟩⟩ := all_cases hall
    · exact absurd hdone getoptShort_not_done
    · rw [getoptLong_group] at hopt
      obtain ⟨rfl, ⟨hflag, rfl, ⟨rfl, rfl⟩ | ⟨hgroup, rfl⟩⟩ | ⟨harg, hgroup, rfl, rfl⟩ |
        ⟨harg, rfl, arg, rest, hargv, rfl, rfl⟩⟩ := getoptShort_opt hopt
      · exact ⟨.flags (before ++ [d]) (by simp) (hflags d hflag), given', rounds, [], Nat.lt_succ_self rounds,
          rfl, rfl, by simp [Item.given], hrest⟩
      · obtain ⟨item, given'', rounds', args, hlt, hrender, hdrop, hgiven, hall'⟩ :=
          ih hgroup i rounds given' (before ++ [d]) (hflags d hflag) hrest
        refine ⟨item, given'', rounds', args, by omega, ?_, hdrop, ?_, hall'⟩
        · simpa using hrender
        · simpa using hgiven
      · exact ⟨.attached before d group hbefore harg hgroup, given', rounds, [], Nat.lt_succ_self rounds, rfl, rfl,
          by simp [Item.given], hrest⟩
      · refine ⟨.separate before d arg hbefore harg, given', rounds, [arg], Nat.lt_succ_self rounds, rfl, ?_,
          by simp [Item.given], hrest⟩
        rw [hargv]
        exact congrArg _ (drop_next hargv).symm

/-- The first argument decides what a call does. -/
theorem getoptLong_cases (o : Options) (argv : List CStr) (i : Nat) :
    (∃ tail : Tail, argv.drop i = tail.render ∧
      getoptLong o argv ⟨i, []⟩ = (.done, ⟨i + if tail.dashed then 1 else 0, []⟩)) ∨
    (∃ c group rest, argv.drop i = (dash :: c :: group) :: rest ∧ c ≠ dash ∧
      getoptLong o argv ⟨i, []⟩ = getoptShort o argv i c group) ∨
    (∃ word rest, argv.drop i = (dash :: dash :: word) :: rest ∧ word ≠ [] ∧
      getoptLong o argv ⟨i, []⟩ = getoptWord o argv i word) := by
  cases hargv : argv.drop i with
  | nil =>
    refine .inl ⟨.plain [] (fun _ h => nomatch h), rfl, ?_⟩
    unfold getoptLong
    dsimp only
    rw [hargv]
    rfl
  | cons arg rest =>
    cases arg with
    | nil =>
      refine .inl ⟨.plain ([] :: rest) fun x hx => Option.some.inj hx ▸ .inr (nofun : none ≠ some dash), rfl, ?_⟩
      unfold getoptLong
      dsimp only
      rw [hargv]
      rfl
    | cons first text =>
      by_cases hfirst : first = dash
      · subst hfirst
        cases text with
        | nil =>
          refine .inl ⟨.plain ([dash] :: rest) fun x hx => Option.some.inj hx ▸ .inl rfl, rfl, ?_⟩
          unfold getoptLong
          dsimp only
          rw [hargv]
          rfl
        | cons c word =>
          by_cases hc : c = dash
          · subst hc
            by_cases hword : word = []
            · subst hword
              refine .inl ⟨.dashes rest, rfl, ?_⟩
              unfold getoptLong
              dsimp only
              rw [hargv]
              rfl
            · exact .inr (.inr ⟨word, rest, rfl, hword, getoptLong_word hargv hword⟩)
          · exact .inr (.inl ⟨c, word, rest, rfl, hc, getoptLong_letter hargv hc⟩)
      · have hends : Ends (first :: text) := .inr fun heq => hfirst (Option.some.inj heq)
        refine .inl ⟨.plain ((first :: text) :: rest) fun x hx => Option.some.inj hx ▸ hends, rfl, ?_⟩
        unfold getoptLong
        dsimp only
        rw [hargv]
        dsimp only
        rw [if_pos hfirst]
        rfl

theorem item_at {i : Nat} {item : Item o} {first : CStr} {args rest : List CStr}
    (hdrop : argv.drop i = first :: rest) (hrender : item.render = first :: args)
    (hargs : argv.drop (i + 1) = args ++ argv.drop (i + item.render.length)) :
    argv.drop i = item.render ++ argv.drop (i + item.render.length) := by
  generalize argv.drop (i + item.render.length) = behind at *
  rw [hdrop, hrender, List.cons_append, ← hargs, drop_next hdrop]

theorem Tail.behind {i : Nat} (tail : Tail) (h : argv.drop i = tail.render) :
    argv.drop (i + if tail.dashed then 1 else 0) = tail.command := by
  cases tail with
  | dashes cmd => exact drop_next h
  | plain cmd hcmd => exact h

theorem Reading.Ends.behind {r : Reading o} {i : Nat} (h : r.Ends i e) (hdrop : argv.drop i = r.render) :
    argv.drop e.1 = r.tail.render := by
  rw [h.first, ← List.drop_drop, hdrop]
  exact List.drop_left

theorem Reading.Ends.command {r : Reading o} {i : Nat} (h : r.Ends i e) (hdrop : argv.drop i = r.render) :
    argv.drop e.2 = r.tail.command := by
  rw [h.second]
  exact r.tail.behind (h.behind hdrop)

/-- The calls from two places are the same if the first is. -/
theorem all_congr {rounds : Nat} {g h : Getopt} (hind : g.optind = h.optind)
    (hcall : getoptLong o argv g = getoptLong o argv h) : getoptAll o argv rounds g = getoptAll o argv rounds h := by
  cases rounds with
  | zero => rfl
  | succ rounds => rw [getoptAll, getoptAll, hcall, hind]

theorem all_sound : ∀ (rounds i : Nat) (given : List Given),
    getoptAll o argv rounds ⟨i, []⟩ = some (given, some e) →
      ∃ r : Reading o, argv.drop i = r.render ∧ r.given = given ∧ r.Ends i e := by
  intro rounds
  induction rounds using Nat.strongRecOn with
  | ind rounds ih =>
    intro i given hall
    -- what is behind an item is read from there on
    have hbehind : ∀ (item : Item o) (given' : List Given) (rounds' : Nat), rounds' < rounds →
        argv.drop i = item.render ++ argv.drop (i + item.render.length) → given = item.given ++ given' →
        getoptAll o argv rounds' ⟨i + item.render.length, []⟩ = some (given', some e) →
          ∃ r : Reading o, argv.drop i = r.render ∧ r.given = given ∧ r.Ends i e := by
      intro item given' rounds' hlt hdrop hgiven hall'
      obtain ⟨r, hrender, hr, hends⟩ := ih rounds' hlt _ given' hall'
      refine ⟨⟨item :: r.items, r.tail⟩, ?_, ?_, ?_, hends.second⟩
      · rw [hdrop, hrender]
        simp only [Reading.render, List.flatMap_cons, List.append_assoc]
      · rw [hgiven, ← hr]
        rfl
      · rw [hends.first, List.flatMap_cons, List.length_append, Nat.add_assoc]
    rcases getoptLong_cases o argv i with ⟨tail, hdrop, hcall⟩ |
      ⟨c, group, rest, hdrop, hc, hcall⟩ | ⟨word, rest, hdrop, hword, hcall⟩
    · obtain ⟨rounds, rfl, ⟨g', hdone, rfl, rfl⟩ | ⟨d, optarg, g', given', hopt, -⟩⟩ := all_cases hall
      · cases hdone.symm.trans hcall
        exact ⟨⟨[], tail⟩, hdrop, rfl, rfl, rfl⟩
      · rw [hcall] at hopt
        cases hopt
    · have hsame : getoptAll o argv rounds ⟨i, []⟩ = getoptAll o argv rounds ⟨i, c :: group⟩ :=
        all_congr rfl hcall
      rw [hsame] at hall
      obtain ⟨item, given', rounds', args, hlt, hrender, hargs, hgiven, hall'⟩ :=
        group_sound (c :: group) (List.cons_ne_nil c group) i rounds given [] (List.forall_mem_nil _) hall
      exact hbehind item given' rounds' hlt (item_at hdrop hrender hargs) hgiven hall'
    · obtain ⟨rounds, rfl, ⟨g', hdone, -, -⟩ | ⟨d, optarg, g', given', hopt, rfl, hrest⟩⟩ := all_cases hall
      · rw [hcall] at hdone
        exact absurd hdone getoptWord_not_done
      · rw [hcall] at hopt
        obtain ⟨item, args, hrender, hargs, hgiven, rfl⟩ := word_sound hopt
        exact hbehind item given' rounds (Nat.lt_succ_self rounds) (item_at hdrop hrender hargs)
          (by rw [hgiven]; rfl) hrest

end Sound

section Complete

variable {o : Options} {argv : List CStr} {i : Nat}

theorem all_more {rounds : Nat} {g : Getopt} {res : List Given × Option (Nat × Nat)} (k : Nat)
    (h : getoptAll o argv rounds g = some res) : getoptAll o argv (rounds + k) g = some res := by
  induction rounds generalizing g res with
  | zero => cases h
  | succ rounds ih =>
    rw [Nat.add_right_comm, getoptAll]
    rw [getoptAll] at h
    cases hfound : getoptLong o argv g with
    | mk found g' =>
      rw [hfound] at h
      cases found with
      | done => exact h
      | missing => exact h
      | unknown => exact h
      | opt c optarg =>
        obtain ⟨res', hrest, rfl⟩ := Option.map_eq_some_iff.mp h
        dsimp only
        rw [ih hrest]
        rfl

/-- Letters without arguments, with more behind them. -/
theorem flags_run {cs more : CStr} (hmore : more ≠ []) (hcs : ∀ c ∈ cs, o.short c = some false)
    {rounds : Nat} {res : List Given × Option (Nat × Nat)}
    (h : getoptAll o argv rounds ⟨i, more⟩ = some res) :
    getoptAll o argv (rounds + cs.length) ⟨i, cs ++ more⟩ =
      some ((cs.map fun c => (c, none)) ++ res.1, res.2) := by
  induction cs with
  | nil => exact h
  | cons c cs ih =>
    have hcall : getoptLong o argv ⟨i, (c :: cs) ++ more⟩ = (.opt c none, ⟨i, cs ++ more⟩) := by
      show getoptShort o argv i c (cs ++ more) = _
      unfold getoptShort
      rw [hcs c List.mem_cons_self]
      dsimp only
      rw [if_neg fun hnil => hmore (List.append_eq_nil_iff.mp hnil).2]
    rw [List.length_cons, ← Nat.add_assoc, all_opt hcall, ih fun d hd => hcs d (List.mem_cons_of_mem c hd)]
    rfl

/-- A group is read from its beginning. -/
theorem group_begins (hsane : o.Sane) {rounds : Nat} {group : CStr} {rest : List CStr}
    (hhead : ∀ c ∈ group.head?, o.short c ≠ none) (hne : group ≠ [])
    (hdrop : argv.drop i = (dash :: group) :: rest) :
    getoptAll o argv rounds ⟨i, []⟩ = getoptAll o argv rounds ⟨i, group⟩ := by
  cases group with
  | nil => exact absurd rfl hne
  | cons c group =>
    have hc : c ≠ dash := fun heq => hhead c rfl (heq ▸ hsane.dash)
    exact all_congr rfl (getoptLong_letter hdrop hc)

theorem flags_head {cs more : CStr} (hcs : ∀ c ∈ cs, o.short c = some false)
    (hmore : ∀ c ∈ more.head?, o.short c ≠ none) : ∀ c ∈ (cs ++ more).head?, o.short c ≠ none := by
  cases cs with
  | nil => exact hmore
  | cons d cs =>
    intro c hc
    cases hc
    rw [hcs d List.mem_cons_self]
    exact Option.some_ne_none false

/-- A group of letters, of which the last one may have an argument. -/
theorem letters_run (hsane : o.Sane) {cs more : CStr} {rest : List CStr} {c : UInt8} {optarg : Option CStr}
    {g : Getopt} (hcs : ∀ c ∈ cs, o.short c = some false) (hhead : ∀ d ∈ more.head?, o.short d ≠ none)
    (hmore : more ≠ []) (hdrop : argv.drop i = (dash :: (cs ++ more)) :: rest)
    (hcall : getoptLong o argv ⟨i, more⟩ = (.opt c optarg, g)) {rounds : Nat}
    {res : List Given × Option (Nat × Nat)} (h : getoptAll o argv rounds g = some res) :
    ∃ rounds', getoptAll o argv rounds' ⟨i, []⟩ =
      some ((cs.map fun c => (c, none)) ++ (c, optarg) :: res.1, res.2) := by
  have hlast : getoptAll o argv (rounds + 1) ⟨i, more⟩ = some ((c, optarg) :: res.1, res.2) := by
    rw [all_opt hcall, h]
    rfl
  refine ⟨rounds + 1 + cs.length, ?_⟩
  rw [group_begins hsane (flags_head hcs hhead) (fun hnil => hmore (List.append_eq_nil_iff.mp hnil).2) hdrop]
  exact flags_run hmore hcs hlast

theorem head_short {c : UInt8} {more : CStr} {takes : Bool} (hc : o.short c = some takes) :
    ∀ d ∈ (c :: more).head?, o.short d ≠ none := by
  intro d hd
  cases hd
  rw [hc]
  exact Option.some_ne_none takes

theorem word_run (hsane : o.Sane) {text : CStr} {rest : List CStr} {l : LongOpt} (hl : o.long
    (text.takeWhile (· ≠ equals)) = some l) (hdrop : argv.drop i = (dash :: dash :: text) :: rest)
    {optarg : Option CStr} {g : Getopt} (hcall : getoptWord o argv i text = (.opt l.val optarg, g)) {rounds : Nat}
    {res : List Given × Option (Nat × Nat)} (h : getoptAll o argv rounds g = some res) :
    ∃ rounds', getoptAll o argv rounds' ⟨i, []⟩ = some ((l.val, optarg) :: res.1, res.2) := by
  have hne : text ≠ [] := by
    rintro rfl
    cases hsane.empty.symm.trans hl
  refine ⟨rounds + 1, ?_⟩
  rw [all_opt ((getoptLong_word hdrop hne).trans hcall), h]
  rfl

/-- The calls over one item. -/
theorem item_run (hsane : o.Sane) (item : Item o) {rest : List CStr}
    (hdrop : argv.drop i = item.render ++ rest) {rounds : Nat} {res : List Given × Option (Nat × Nat)}
    (h : getoptAll o argv rounds ⟨i + item.render.length, []⟩ = some res) :
    ∃ rounds', getoptAll o argv rounds' ⟨i, []⟩ = some (item.given ++ res.1, res.2) := by
  cases item with
  | flags cs hne hcs =>
    obtain ⟨cs, c, rfl⟩ : ∃ init last, cs = init ++ [last] :=
      ⟨cs.dropLast, cs.getLast hne, (List.dropLast_concat_getLast hne).symm⟩
    have hc := hcs c (List.mem_append_right cs (List.mem_singleton_self c))
    have hcall : getoptLong o argv ⟨i, [c]⟩ = (.opt c none, ⟨i + 1, []⟩) := by
      show getoptShort o argv i c [] = _
      unfold getoptShort
      rw [hc]
      rfl
    obtain ⟨rounds', hall⟩ := letters_run hsane (fun d hd => hcs d (List.mem_append_left [c] hd))
      (head_short hc) (List.cons_ne_nil c []) hdrop hcall h
    refine ⟨rounds', ?_⟩
    rw [hall]
    simp [Item.given]
  | attached cs c arg hcs hc harg =>
    have hcall : getoptLong o argv ⟨i, c :: arg⟩ = (.opt c (some arg), ⟨i + 1, []⟩) := by
      show getoptShort o argv i c arg = _
      unfold getoptShort
      rw [hc]
      dsimp only
      rw [if_pos harg]
    obtain ⟨rounds', hall⟩ := letters_run hsane hcs (head_short hc) (List.cons_ne_nil c arg) hdrop hcall h
    refine ⟨rounds', ?_⟩
    rw [hall]
    simp [Item.given]
  | separate cs c arg hcs hc =>
    have hcall : getoptLong o argv ⟨i, [c]⟩ = (.opt c (some arg), ⟨i + 2, []⟩) := by
      show getoptShort o argv i c [] = _
      unfold getoptShort
      rw [hc]
      dsimp only
      rw [if_neg (not_not_intro rfl), show argv.drop (i + 1) = arg :: rest from drop_next hdrop]
    obtain ⟨rounds', hall⟩ := letters_run hsane hcs (head_short hc) (List.cons_ne_nil c []) hdrop hcall h
    refine ⟨rounds', ?_⟩
    rw [hall]
    simp [Item.given]
  | word w l hw hl harg =>
    have hlong : o.long (w.takeWhile (· ≠ equals)) = some l := by rw [takeWhile_word hw, hl]
    refine word_run hsane hlong hdrop ?_ h
    unfold getoptWord
    rw [hlong, strchr_none hw]
    dsimp only
    rw [if_neg (by rw [harg]; decide)]
    rfl
  | wordEquals w arg l hw hl harg =>
    have hlong : o.long ((w ++ equals :: arg).takeWhile (· ≠ equals)) = some l := by
      rw [takeWhile_equals hw, hl]
    refine word_run hsane hlong hdrop ?_ h
    unfold getoptWord
    rw [hlong, strchr_append hw]
    dsimp only
    rw [if_pos harg]
    rfl
  | wordSeparate w arg l hw hl harg =>
    have hlong : o.long (w.takeWhile (· ≠ equals)) = some l := by rw [takeWhile_word hw, hl]
    refine word_run hsane hlong hdrop ?_ h
    unfold getoptWord
    rw [hlong, strchr_none hw]
    dsimp only
    rw [if_pos harg, show argv.drop (i + 1) = arg :: rest from drop_next hdrop]
    rfl

/-- What ends the options is none. -/
theorem Tail.not_option (tail : Tail) {c : UInt8} {text : CStr} {rest : List CStr}
    (h : tail.render = (dash :: c :: text) :: rest) : c = dash ∧ text = [] := by
  cases tail with
  | dashes cmd =>
    cases h
    exact ⟨rfl, rfl⟩
  | plain cmd hcmd =>
    have hrender : cmd = (dash :: c :: text) :: rest := h
    subst hrender
    rcases hcmd _ rfl with hone | hhead
    · cases hone
    · exact absurd rfl hhead

/-- How it ends them can be seen. -/
theorem Tail.unique {t u : Tail} (h : t.render = u.render) : t = u := by
  have hdashes : ∀ (cmd cmd' : List CStr) (hcmd : ∀ arg ∈ cmd.head?, Ends arg),
      cmd ≠ [dash, dash] :: cmd' := by
    rintro cmd cmd' hcmd rfl
    rcases hcmd _ rfl with hone | hhead
    · cases hone
    · exact hhead rfl
  cases t with
  | dashes cmd =>
    cases u with
    | dashes cmd' => exact congrArg _ (List.cons.inj h).2
    | plain cmd' hcmd => exact absurd h.symm (hdashes cmd' cmd hcmd)
  | plain cmd hcmd =>
    cases u with
    | dashes cmd' => exact absurd h (hdashes cmd cmd' hcmd)
    | plain cmd' hcmd' =>
      cases (h : cmd = cmd')
      rfl

theorem all_complete (hsane : o.Sane) (r : Reading o) (hdrop : argv.drop i = r.render) :
    ∃ rounds e, getoptAll o argv rounds ⟨i, []⟩ = some (r.given, some e) ∧ r.Ends i e := by
  obtain ⟨items, tail⟩ := r
  induction items generalizing i with
  | nil =>
    have hdrop : argv.drop i = tail.render := hdrop
    rcases getoptLong_cases o argv i with ⟨tail', htail, hcall⟩ |
      ⟨c, group, rest, hletter, hc, -⟩ | ⟨word, rest, hword, hne, -⟩
    · cases Tail.unique (hdrop.symm.trans htail)
      refine ⟨1, (i, i + if tail.dashed then 1 else 0), ?_, rfl, rfl⟩
      rw [getoptAll, hcall]
      rfl
    · exact absurd (tail.not_option (hdrop.symm.trans hletter)).1 hc
    · exact absurd (tail.not_option (hdrop.symm.trans hword)).2 hne
  | cons item items ih =>
    have hdrop' : argv.drop i = item.render ++ (items.flatMap Item.render ++ tail.render) := by
      rw [hdrop]
      simp only [Reading.render, List.flatMap_cons, List.append_assoc]
    have hbehind : argv.drop (i + item.render.length) = items.flatMap Item.render ++ tail.render := by
      rw [← List.drop_drop, hdrop', List.drop_left]
    obtain ⟨rounds, e, hall, hends⟩ := ih hbehind
    obtain ⟨rounds', hall'⟩ := item_run hsane item hdrop' hall
    refine ⟨rounds', e, hall', ?_, hends.second⟩
    rw [hends.first, List.flatMap_cons, List.length_append, Nat.add_assoc]

end Complete

section Total

variable {o : Options} {argv : List CStr}

/-- The characters with their ends. -/
def size (args : List CStr) : Nat := (args.map fun arg => arg.length + 1).sum

theorem size_cons (arg : CStr) (args : List CStr) : size (arg :: args) = arg.length + 1 + size args := by
  simp only [size, List.map_cons, List.sum_cons]

/-- The characters that are still to be read. -/
def unread (argv : List CStr) (g : Getopt) : Nat :=
  if g.group = [] then size (argv.drop g.optind) else g.group.length + size (argv.drop (g.optind + 1))

theorem size_drop (i : Nat) : size (argv.drop (i + 1)) ≤ size (argv.drop i) := by
  rw [← List.drop_drop]
  cases argv.drop i with
  | nil => exact Nat.le_refl _
  | cons arg args =>
    rw [size_cons]
    exact Nat.le_add_left _ _

theorem size_next {i : Nat} {arg : CStr} {rest : List CStr} (h : argv.drop i = arg :: rest) :
    size (argv.drop i) = arg.length + 1 + size (argv.drop (i + 1)) := by
  rw [drop_next h, h, size_cons]

theorem short_unread {i : Nat} {c d : UInt8} {group : CStr} {optarg : Option CStr} {g : Getopt}
    (h : getoptShort o argv i c group = (.opt d optarg, g)) :
    unread argv g ≤ group.length + size (argv.drop (i + 1)) := by
  obtain ⟨-, ⟨-, -, ⟨rfl, rfl⟩ | ⟨hgroup, rfl⟩⟩ | ⟨-, -, -, rfl⟩ | ⟨-, -, arg, rest, -, -, rfl⟩⟩ := getoptShort_opt h
  · exact Nat.le_add_left _ _
  · exact Nat.le_of_eq (if_neg hgroup)
  · exact Nat.le_add_left _ _
  · exact Nat.le_add_left_of_le (size_drop (i + 1))

/-- A call that finds an option takes something off. -/
theorem opt_unread {g g' : Getopt} {c : UInt8} {optarg : Option CStr}
    (h : getoptLong o argv g = (.opt c optarg, g')) : unread argv g' < unread argv g := by
  obtain ⟨i, group⟩ := g
  cases group with
  | cons d group =>
    have hle : unread argv g' ≤ group.length + size (argv.drop (i + 1)) := short_unread h
    have hunread : unread argv ⟨i, d :: group⟩ = (d :: group).length + size (argv.drop (i + 1)) := rfl
    rw [hunread, List.length_cons]
    omega
  | nil =>
    show _ < size (argv.drop i)
    rcases getoptLong_cases o argv i with ⟨tail, -, hcall⟩ | ⟨d, group, rest, hdrop, -, hcall⟩ |
      ⟨word, rest, hdrop, -, hcall⟩
    · cases h.symm.trans hcall
    · have hle := short_unread (hcall.symm.trans h)
      rw [size_next hdrop, List.length_cons, List.length_cons]
      omega
    · obtain ⟨item, args, hrender, hargs, -, rfl⟩ := word_sound (hcall.symm.trans h)
      have hsize : size (argv.drop (i + 1)) = size args + size (argv.drop (i + item.render.length)) := by
        rw [hargs]
        simp only [size, List.map_append, List.sum_append]
      show size (argv.drop (i + item.render.length)) < _
      rw [size_next hdrop]
      omega

theorem all_total (rounds : Nat) (g : Getopt) (h : unread argv g < rounds) :
    ∃ res, getoptAll o argv rounds g = some res := by
  induction rounds generalizing g with
  | zero => exact absurd h (Nat.not_lt_zero _)
  | succ rounds ih =>
    rw [getoptAll]
    cases hfound : getoptLong o argv g with
    | mk found g' =>
      cases found with
      | done => exact ⟨_, rfl⟩
      | missing => exact ⟨_, rfl⟩
      | unknown => exact ⟨_, rfl⟩
      | opt c optarg =>
        have hless := opt_unread hfound
        obtain ⟨res, hres⟩ := ih g' (by omega)
        dsimp only
        rw [hres]
        exact ⟨_, rfl⟩

end Total

/-- The calls take exactly the command lines that can be read, and find what is in them. -/
theorem all_exact {o : Options} (hsane : o.Sane) {argv : List CStr} {i rounds : Nat} (hrounds : size (argv.drop i) < rounds) :
    (∃ res, getoptAll o argv rounds ⟨i, []⟩ = some res) ∧
      (∀ given e, getoptAll o argv rounds ⟨i, []⟩ = some (given, some e) →
        ∃ r : Reading o, argv.drop i = r.render ∧ r.given = given ∧ r.Ends i e) ∧
      ∀ r : Reading o, argv.drop i = r.render →
        ∃ e, getoptAll o argv rounds ⟨i, []⟩ = some (r.given, some e) ∧ r.Ends i e := by
  have htotal : ∃ res, getoptAll o argv rounds ⟨i, []⟩ = some res := all_total rounds ⟨i, []⟩ hrounds
  refine ⟨htotal, fun given e h => all_sound rounds i given h, fun r hdrop => ?_⟩
  obtain ⟨rounds', e, hall, hends⟩ := all_complete hsane r hdrop
  obtain ⟨res, hres⟩ := htotal
  have hmore := all_more rounds hall
  rw [Nat.add_comm, all_more rounds' hres] at hmore
  exact ⟨e, hres.trans hmore, hends⟩

end Cage.Cli
