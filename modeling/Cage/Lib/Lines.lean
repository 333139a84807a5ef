import Mathlib.Data.List.TakeWhile
import Mathlib.Tactic.Common

/-!
Texts line by line. `nl` ends a line; behind the last `nl` there is no further
line unless there is text. A scanner that goes from one line to the next stands
at each line start in turn, and sees all the text from there on.
-/

namespace Cage.Lib.Lines

variable {α : Type} [DecidableEq α] (nl : α)

/-- The line at the front of a text. -/
def lineOf (p : List α) : List α := p.takeWhile (· ≠ nl)

/-- The text behind the first line and its end. -/
def behind (p : List α) : List α := (p.dropWhile (· ≠ nl)).drop 1

def lines : List α → List (List α)
  | [] => []
  | c :: s =>
      if c = nl then [] :: lines s
      else
        match lines s with
        | [] => [[c]]
        | l :: ls => (c :: l) :: ls

/-- What a scanner sees at the line starts of a text. -/
def lineStarts : Nat → List α → List (List α)
  | 0, _ => []
  | _, [] => []
  | n + 1, p => p :: lineStarts n (behind nl p)

/-- The line starts of a text; there are no more of them than entries. -/
def starts (p : List α) : List (List α) := lineStarts nl p.length p

variable {nl} {p : List α}

theorem lineOf_append_line {l : List α} (h : nl ∉ l) (s : List α) :
    lineOf nl (l ++ nl :: s) = l := by
  unfold lineOf
  rw [List.takeWhile_append_of_pos, List.takeWhile_cons_of_neg (by simp), List.append_nil]
  intro c hc
  exact decide_eq_true fun heq => h (heq ▸ hc)

theorem behind_append_line {l : List α} (h : nl ∉ l) (s : List α) :
    behind nl (l ++ nl :: s) = s := by
  unfold behind
  rw [List.dropWhile_append_of_pos, List.dropWhile_cons_of_neg (by simp), List.drop_one,
    List.tail_cons]
  intro c hc
  exact decide_eq_true fun heq => h (heq ▸ hc)

theorem lineOf_last (h : nl ∉ p) : lineOf nl p = p := by
  unfold lineOf
  rw [List.takeWhile_eq_self_iff]
  exact fun c hc => decide_eq_true fun heq => h (heq ▸ hc)

theorem behind_last (h : nl ∉ p) : behind nl p = [] := by
  have hall : p.dropWhile (· ≠ nl) = [] :=
    List.dropWhile_eq_nil_iff.mpr fun c hc => decide_eq_true fun heq => h (heq ▸ hc)
  unfold behind
  rw [hall]
  rfl

theorem nl_notMem_lineOf (nl : α) (p : List α) : nl ∉ lineOf nl p := by
  intro hmem
  simpa using List.mem_takeWhile_imp hmem

/-- A text is its first line, or its first line with its end and what follows. -/
theorem eq_line (nl : α) (p : List α) : p = lineOf nl p ∧ nl ∉ p ∨
    p = lineOf nl p ++ nl :: behind nl p := by
  by_cases h : nl ∈ p
  · refine Or.inr ?_
    obtain ⟨l, s, rfl, hl⟩ := List.eq_append_cons_of_mem h
    rw [lineOf_append_line hl, behind_append_line hl]
  · exact Or.inl ⟨(lineOf_last h).symm, h⟩

theorem length_behind_lt (nl : α) (h : p ≠ []) : (behind nl p).length < p.length := by
  rcases eq_line nl p with ⟨-, hno⟩ | hline
  · rw [behind_last hno]
    exact List.length_pos_iff.mpr h
  · have hlen := congrArg List.length hline
    rw [List.length_append, List.length_cons] at hlen
    omega

theorem lineStarts_enough (n : Nat) (h : p.length ≤ n) : lineStarts nl n p = starts nl p := by
  induction n using Nat.strongRecOn generalizing p with
  | _ n ih =>
    unfold starts
    cases p with
    | nil => cases n <;> rfl
    | cons c s =>
      cases n with
      | zero => cases h
      | succ n =>
        have hlt := length_behind_lt nl (List.cons_ne_nil c s)
        rw [List.length_cons] at h hlt ⊢
        unfold lineStarts
        rw [ih n (Nat.lt_succ_self n) (by omega)]
        congr 1
        by_cases heq : s.length = n
        · rw [heq, ih n (Nat.lt_succ_self n) (by omega)]
        · exact (ih s.length (by omega) (by omega)).symm

theorem starts_of_ne_nil (h : p ≠ []) : starts nl p = p :: starts nl (behind nl p) := by
  cases p with
  | nil => exact absurd rfl h
  | cons c s =>
    have hlt := length_behind_lt nl h
    rw [List.length_cons] at hlt
    show (c :: s) :: lineStarts nl s.length _ = _
    rw [lineStarts_enough _ (by omega)]

/-- Line by line through a text. -/
theorem line_induction (nl : α) {motive : List α → Prop} (nil : motive [])
    (line : ∀ p, p ≠ [] → motive (behind nl p) → motive p) (p : List α) : motive p := by
  induction hn : p.length using Nat.strongRecOn generalizing p with
  | _ n ih =>
    by_cases hp : p = []
    · exact hp ▸ nil
    · exact line p hp (ih _ (hn ▸ length_behind_lt nl hp) _ rfl)

theorem lines_last {l : List α} (hne : l ≠ []) (h : nl ∉ l) : lines nl l = [l] := by
  induction l with
  | nil => exact absurd rfl hne
  | cons c s ih =>
    rw [List.mem_cons, not_or] at h
    rw [lines, if_neg (Ne.symm h.1)]
    by_cases hs : s = []
    · subst hs
      rfl
    · rw [ih hs h.2]

theorem lines_append_line {l : List α} (h : nl ∉ l) (s : List α) :
    lines nl (l ++ nl :: s) = l :: lines nl s := by
  induction l with
  | nil => rw [List.nil_append, lines, if_pos rfl]
  | cons c l ih =>
    rw [List.mem_cons, not_or] at h
    rw [List.cons_append, lines, if_neg (Ne.symm h.1), ih h.2]

theorem lines_flatMap {ls : List (List α)} (h : ∀ l ∈ ls, nl ∉ l) :
    lines nl (ls.flatMap fun l => l ++ [nl]) = ls := by
  induction ls with
  | nil => rfl
  | cons l ls ih =>
    rw [List.flatMap_cons, List.append_assoc, List.singleton_append,
      lines_append_line (h l List.mem_cons_self), ih fun k hk => h k (List.mem_cons_of_mem l hk)]

theorem lines_of_ne_nil (h : p ≠ []) : lines nl p = lineOf nl p :: lines nl (behind nl p) := by
  rcases eq_line nl p with ⟨hline, hno⟩ | hline
  · rw [lines_last h hno, behind_last hno, ← hline]
    rfl
  · have hstep := lines_append_line (nl_notMem_lineOf nl p) (behind nl p)
    rwa [← hline] at hstep

/-- The lines of a text are those at its line starts. -/
theorem lines_eq (p : List α) : lines nl p = (starts nl p).map (lineOf nl) := by
  induction p using line_induction nl with
  | nil => rfl
  | line p hp ih => rw [lines_of_ne_nil hp, starts_of_ne_nil hp, ih, List.map_cons]

end Cage.Lib.Lines
