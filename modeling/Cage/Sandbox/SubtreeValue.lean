import Cage.Core.Spawn
import Cage.Sandbox.Overlay

/-!
`build_subtree_value` of `src/sandbox/cgroup.c`, which puts a plus before each
controller name, on the memory of its caller.
-/

namespace Cage.Sandbox

open Lib.Checked Util

def space : UInt8 := 32

def plus : UInt8 := 43

/-- What `in` and `len` stand for: an object in memory, in which at least the NUL
follows the `len` bytes. -/
structure SizedText where
  mem : List UInt8
  len : Nat
  within : len < mem.length
  object : mem.length < 2 ^ 63

def SizedText.text (input : SizedText) : CStr := input.mem.take input.len

/-- One round of the loop, which writes from `w` on. -/
def expandByte (mem : List UInt8) (i w : Nat) : Exec (List UInt8) Nat := do
  let c ← load mem i
  if c = space then do
    let w ← putByte space w
    putByte plus w
  else putByte c w

/-- `build_subtree_value`, with the length that it reports. The state is the
memory behind `out`. -/
def buildSubtreeValue (mem : List UInt8) (len cap : Nat) : Exec (List UInt8) (Option Nat) := do
  if len = 0 ∨ (2 * len + 2) % 2 ^ 64 > cap then pure none
  else do
    set (← store (← get) 0 plus)
    let w ← loopUp (expandByte mem) len 0 1
    set (← store (← get) w 0)
    pure (some w)

/-- What stands for a byte in the value. -/
def expansion (c : UInt8) : CStr := if c = space then [space, plus] else [c]

def subtreeText (s : CStr) : CStr := plus :: s.flatMap expansion

theorem length_expansion_le (c : UInt8) : (expansion c).length ≤ 2 := by
  unfold expansion
  split
  · exact Nat.le_refl 2
  · exact Nat.le_succ 1

theorem length_subtreeText_le (s : CStr) : (subtreeText s).length ≤ 2 * s.length + 1 := by
  have hrest : (s.flatMap expansion).length ≤ 2 * s.length := by
    induction s with
    | nil => exact Nat.le_refl 0
    | cons c s ih =>
      have hc := length_expansion_le c
      rw [List.flatMap_cons, List.length_append, List.length_cons]
      omega
  exact Nat.succ_le_succ hrest

theorem subtreeText_snoc (s : CStr) (c : UInt8) :
    subtreeText (s ++ [c]) = subtreeText s ++ expansion c := by
  unfold subtreeText
  rw [List.flatMap_append, List.flatMap_singleton, List.cons_append]

/-- The round writes what stands for its byte. -/
theorem expandByte_ends {mem : List UInt8} {i : Nat} {c : UInt8} (hc : mem[i]? = some c)
    (w r : List UInt8) (h : (expansion c).length ≤ r.length) :
    Ends (expandByte mem i w.length) (w ++ r) fun p out =>
      p = (w ++ expansion c).length ∧ out = w ++ expansion c ++ r.drop (expansion c).length := by
  have hput : Ends (putPfx (expansion c) w.length) (w ++ r) fun p out =>
      p = (w ++ expansion c).length ∧ out = w ++ expansion c ++ r.drop (expansion c).length :=
    putPfx_ends (expansion c) w r h
  unfold expandByte
  refine Ends.load_bind hc ?_
  unfold expansion at hput ⊢
  by_cases hspace : c = space
  · rw [if_pos hspace] at hput
    simp only [if_pos hspace, putPfx, bind_pure] at hput ⊢
    exact hput
  · rw [if_neg hspace] at hput
    simp only [if_neg hspace, putPfx, bind_pure] at hput ⊢
    exact hput

/-- The loop writes the value as far as it has read. -/
theorem expandLoop_ends {mem : List UInt8} {len : Nat} (hlen : len ≤ mem.length)
    (r : List UInt8) (h : 2 * len ≤ r.length) :
    Ends (loopUp (expandByte mem) len 0 1) (plus :: r) fun w out =>
      w = (subtreeText (mem.take len)).length ∧
        out = subtreeText (mem.take len) ++ (plus :: r).drop w := by
  refine (Ends.loopUp (fun i w out => w = (subtreeText (mem.take i)).length ∧
    out = subtreeText (mem.take i) ++ (plus :: r).drop w) ?_ ⟨rfl, rfl⟩).mono ?_
  · rintro i w out - hi ⟨rfl, rfl⟩
    rw [Nat.zero_add] at hi
    have hlt : i < mem.length := Nat.lt_of_lt_of_le hi hlen
    have htext : subtreeText (mem.take (i + 1)) = subtreeText (mem.take i) ++ expansion mem[i] := by
      rw [← List.take_append_getElem hlt, subtreeText_snoc]
    have hroom : (expansion mem[i]).length ≤
        ((plus :: r).drop (subtreeText (mem.take i)).length).length := by
      have hdone := length_subtreeText_le (mem.take i)
      have hnext := length_expansion_le mem[i]
      rw [List.length_take_of_le hlt.le] at hdone
      rw [List.length_drop, List.length_cons]
      omega
    refine (expandByte_ends (List.getElem?_eq_getElem hlt) _ _ hroom).mono ?_
    rintro w out ⟨rfl, rfl⟩
    rw [htext]
    refine ⟨rfl, ?_⟩
    rw [List.drop_drop, List.length_append]
  · intro w out hdone
    rwa [Nat.zero_add] at hdone

theorem subtreeText_free {s : CStr} (h : space ∉ s) : subtreeText s = plus :: s := by
  have hsame : s.flatMap expansion = s := by
    induction s with
    | nil => rfl
    | cons c s ih =>
      have hc : expansion c = [c] := if_neg (List.ne_of_not_mem_cons h).symm
      rw [List.flatMap_cons, hc, ih (List.not_mem_of_not_mem_cons h), List.singleton_append]
  rw [subtreeText, hsame]

/-- Each name of the list gets its plus. -/
theorem subtreeText_names {names : List CStr} (hnames : names ≠ [])
    (hfree : ∀ name ∈ names, space ∉ name) :
    subtreeText ([space].intercalate names) = [space].intercalate (names.map (plus :: ·)) := by
  induction names with
  | nil => exact absurd rfl hnames
  | cons name names ih =>
    have hname := subtreeText_free (hfree name List.mem_cons_self)
    cases names with
    | nil =>
      rw [List.intercalate_singleton, hname]
      exact List.intercalate_singleton.symm
    | cons next names =>
      have hrest := ih (List.cons_ne_nil next names) fun n hn =>
        hfree n (List.mem_cons_of_mem name hn)
      rw [List.map_cons] at hrest
      rw [List.map_cons, List.map_cons, List.intercalate_cons_cons, List.intercalate_cons_cons,
        ← hrest, ← hname, subtreeText, List.flatMap_append, List.flatMap_append]
      simp [subtreeText, expansion]

/-- The list that the value was made of comes back. -/
theorem subtreeText_splitOn {names : List CStr} (hnames : names ≠ [])
    (hfree : ∀ name ∈ names, space ∉ name) :
    (subtreeText ([space].intercalate names)).splitOn space = names.map (plus :: ·) := by
  rw [subtreeText_names hnames hfree]
  refine List.splitOn_intercalate space ?_ (by simpa using hnames)
  intro piece hpiece
  obtain ⟨name, hname, rfl⟩ := List.mem_map.mp hpiece
  exact List.not_mem_cons_of_ne_of_not_mem (by decide) (hfree name hname)

variable {input : SizedText}

/-- The test of the source does not wrap around. -/
theorem SizedText.no_wrap (input : SizedText) :
    (2 * input.len + 2) % 2 ^ 64 = 2 * input.len + 2 := by
  have hwithin := input.within
  have hobject := input.object
  exact Nat.mod_eq_of_lt (by omega)

theorem SizedText.length_text (input : SizedText) : input.text.length = input.len :=
  List.length_take_of_le input.within.le

/-- The memory behind `out` holds the value and its NUL, or is not written. -/
theorem buildSubtreeValue_runs (input : SizedText) (out : List UInt8) :
    Ends (buildSubtreeValue input.mem input.len out.length) out fun r out' =>
      if input.len = 0 ∨ 2 * input.len + 2 > out.length then r = none ∧ out' = out
      else r = some (subtreeText input.text).length ∧
        out' = subtreeText input.text ++ 0 :: out.drop ((subtreeText input.text).length + 1) := by
  unfold buildSubtreeValue
  simp only [input.no_wrap]
  by_cases hrefused : input.len = 0 ∨ 2 * input.len + 2 > out.length
  · simp only [if_pos hrefused]
    exact Ends.pure ⟨rfl, rfl⟩
  · simp only [if_neg hrefused]
    rw [not_or, Nat.not_lt] at hrefused
    obtain ⟨-, hcap⟩ := hrefused
    obtain ⟨x, r, rfl⟩ := List.exists_cons_of_length_pos (show 0 < out.length by omega)
    rw [List.length_cons] at hcap
    have hlen := length_subtreeText_le input.text
    rw [input.length_text] at hlen
    refine Ends.get_bind (Ends.store_bind (by simp) (Ends.set_bind ?_))
    refine Ends.bind (expandLoop_ends input.within.le r (by omega)) ?_
    rintro w out ⟨hw, rfl⟩
    change w = (subtreeText input.text).length at hw
    change Ends _ (subtreeText input.text ++ (plus :: r).drop w) _
    subst hw
    obtain ⟨y, rest, hrest⟩ := List.exists_cons_of_length_pos
      (show 0 < ((plus :: r).drop (subtreeText input.text).length).length by
        rw [List.length_drop, List.length_cons]
        omega)
    have htail : (x :: r).drop ((subtreeText input.text).length + 1) = rest := by
      have hdrop := congrArg (List.drop 1) hrest
      rw [List.drop_drop] at hdrop
      exact hdrop
    rw [hrest, htail]
    refine Ends.get_bind (Ends.store_bind (by simp) (Ends.set_bind (Ends.pure ⟨rfl, ?_⟩)))
    rw [List.set_append_right _ _ (Nat.le_refl _), Nat.sub_self, List.set_cons_zero]

/-- What the loop leaves behind is the value that the set-up of the child's control group
goes on with. -/
theorem buildSubtreeValue_spawn (input : SizedText) (out : List UInt8) :
    Ends (buildSubtreeValue input.mem input.len out.length) out fun r out' =>
      r.map out'.take = Core.Spawn.buildSubtreeValue input.text out.length := by
  refine (buildSubtreeValue_runs input out).mono ?_
  intro r out' hruns
  unfold Core.Spawn.buildSubtreeValue
  rw [input.length_text]
  split at hruns
  · rename_i hrefused
    rw [if_pos hrefused, hruns.1, Option.map_none]
  · rename_i htaken
    rw [if_neg htaken, hruns.1, hruns.2, Option.map_some, List.take_left]
    rfl

/-- What is left behind: nothing, or below the capacity a text with its NUL, which
for a list of names is the list with a plus before each. -/
structure Expanded (text : CStr) (out : List UInt8) (n : Nat) (out' : List UInt8) : Prop where
  below : n < out.length
  length : out'.length = out.length
  ends : out'[n]? = some 0
  value : out'.take n = subtreeText text
  behind : out'.drop (n + 1) = out.drop (n + 1)
  names : ∀ names : List CStr, (∀ name ∈ names, name ≠ [] ∧ space ∉ name) →
    text = [space].intercalate names →
      out'.take n = [space].intercalate (names.map (plus :: ·)) ∧
        (out'.take n).splitOn space = names.map (plus :: ·) ∧
        [space].intercalate (((out'.take n).splitOn space).map List.tail) = text

/-- Whatever the bytes and the capacity, no write is at the capacity or behind, and it is
only an empty text or too small a capacity that is refused. -/
theorem buildSubtreeValue_ends (input : SizedText) (out : List UInt8) :
    Ends (buildSubtreeValue input.mem input.len out.length) out fun r out' =>
      match r with
      | none => (input.len = 0 ∨ 2 * input.len + 2 > out.length) ∧ out' = out
      | some n => (input.len ≠ 0 ∧ 2 * input.len + 2 ≤ out.length) ∧ Expanded input.text out n out' := by
  refine (buildSubtreeValue_runs input out).mono ?_
  intro r out' hruns
  split at hruns
  · rename_i hrefused
    rw [hruns.1]
    exact ⟨hrefused, hruns.2⟩
  · rename_i htaken
    obtain ⟨rfl, rfl⟩ := hruns
    rw [not_or, Nat.not_lt] at htaken
    refine ⟨htaken, ?_⟩
    have hlen := length_subtreeText_le input.text
    rw [input.length_text] at hlen
    have hbelow : (subtreeText input.text).length < out.length := by omega
    refine ⟨hbelow, ?_, ?_, List.take_left, ?_, ?_⟩
    · rw [List.length_append, List.length_cons, List.length_drop]
      omega
    · rw [List.getElem?_append_right (Nat.le_refl _), Nat.sub_self]
      rfl
    · rw [← List.drop_drop, List.drop_left]
      rfl
    · intro names hnames htext
      have hne : names ≠ [] := by
        rintro rfl
        have hempty := input.length_text
        rw [htext] at hempty
        exact htaken.1 hempty.symm
      have hfree : ∀ name ∈ names, space ∉ name := fun name hname => (hnames name hname).2
      have hsplit := subtreeText_splitOn hne hfree
      rw [List.take_left, htext, hsplit]
      refine ⟨subtreeText_names hne hfree, rfl, ?_⟩
      rw [List.map_map]
      exact congrArg _ (List.map_id names)

end Cage.Sandbox
