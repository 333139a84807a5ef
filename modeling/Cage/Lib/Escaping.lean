import Mathlib.Data.List.Basic

/-!
Strings over any alphabet in which an escape character takes the meaning off the
character behind it: how a string is escaped, how it is read back, and how a
text is split at the separators that are not escaped.
-/

namespace Cage.Lib.Escaping

variable {α : Type}

/-- `s` with the escape character `e` before every special one. -/
def escape (e : α) (special : α → Bool) : List α → List α
  | [] => []
  | c :: s => if special c then e :: c :: escape e special s else c :: escape e special s

section

variable {e : α} {special : α → Bool}

@[simp] theorem length_escape (s : List α) :
    (escape e special s).length = s.length + s.countP special := by
  induction s with
  | nil => rfl
  | cons c s ih =>
    cases h : special c <;> simp [escape, h, ih] <;> omega

theorem escape_append (s t : List α) :
    escape e special (s ++ t) = escape e special s ++ escape e special t := by
  induction s with
  | nil => rfl
  | cons c s ih =>
    cases h : special c <;> simp [escape, h, ih]

theorem escape_of_plain {s : List α} (h : ∀ c ∈ s, special c = false) :
    escape e special s = s := by
  induction s with
  | nil => rfl
  | cons c s ih =>
    rw [escape, if_neg (by simp [h c (List.mem_cons_self ..)]),
      ih fun d hd => h d (List.mem_cons_of_mem c hd)]

theorem mem_escape {c : α} {s : List α} (h : c ∈ escape e special s) : c = e ∨ c ∈ s := by
  induction s with
  | nil => exact .inr h
  | cons d s ih =>
    rw [escape] at h
    split at h
    · rcases List.mem_cons.mp h with h | h
      · exact .inl h
      · rcases List.mem_cons.mp h with h | h
        · exact .inr (h ▸ List.mem_cons_self ..)
        · exact (ih h).imp id (List.mem_cons_of_mem d)
    · rcases List.mem_cons.mp h with h | h
      · exact .inr (h ▸ List.mem_cons_self ..)
      · exact (ih h).imp id (List.mem_cons_of_mem d)

theorem ne_of_plain (he : special e = true) {c : α} (h : special c = false) : c ≠ e := by
  rintro rfl
  rw [he] at h
  exact absurd h (by decide)

end

variable [DecidableEq α]

/-- The string without its escape characters; one at the very end stands for nothing. -/
def unescape (e : α) : List α → List α
  | [] => []
  | [c] => if c = e then [] else [c]
  | c :: d :: s => if c = e then d :: unescape e s else c :: unescape e (d :: s)

/-- The fields between the unescaped separators, with their escapes. -/
def fields (e sep : α) : List α → List (List α)
  | [] => [[]]
  | [c] => if c = sep ∧ c ≠ e then [[], []] else [[c]]
  | c :: d :: s =>
    if c = e then (fields e sep s).modifyHead fun f => c :: d :: f
    else if c = sep then [] :: fields e sep (d :: s)
    else (fields e sep (d :: s)).modifyHead (c :: ·)

/-- The fields between the unescaped separators, read back. -/
def items (e sep : α) : List α → List (List α)
  | [] => [[]]
  | [c] => if c = e then [[]] else if c = sep then [[], []] else [[c]]
  | c :: d :: s =>
    if c = e then (items e sep s).modifyHead (d :: ·)
    else if c = sep then [] :: items e sep (d :: s)
    else (items e sep (d :: s)).modifyHead (c :: ·)

variable {e sep : α} {special : α → Bool}

theorem unescape_cons_of_ne {c : α} (h : c ≠ e) (s : List α) :
    unescape e (c :: s) = c :: unescape e s := by
  cases s <;> simp [unescape, h]

theorem unescape_escaped (c : α) (s : List α) : unescape e (e :: c :: s) = c :: unescape e s := by
  simp [unescape]

theorem fields_cons_of_ne {c : α} (he : c ≠ e) (hsep : c ≠ sep) (s : List α) :
    fields e sep (c :: s) = (fields e sep s).modifyHead (c :: ·) := by
  cases s <;> simp [fields, he, hsep]

theorem fields_escaped (c : α) (s : List α) :
    fields e sep (e :: c :: s) = (fields e sep s).modifyHead fun f => e :: c :: f := by
  simp [fields]

theorem fields_sep (h : sep ≠ e) (s : List α) :
    fields e sep (sep :: s) = [] :: fields e sep s := by
  cases s <;> simp [fields, h]

theorem items_cons_of_ne {c : α} (he : c ≠ e) (hsep : c ≠ sep) (s : List α) :
    items e sep (c :: s) = (items e sep s).modifyHead (c :: ·) := by
  cases s <;> simp [items, he, hsep]

theorem items_escaped (c : α) (s : List α) :
    items e sep (e :: c :: s) = (items e sep s).modifyHead (c :: ·) := by
  simp [items]

theorem items_sep (h : sep ≠ e) (s : List α) : items e sep (sep :: s) = [] :: items e sep s := by
  cases s <;> simp [items, h]

section

variable (he : special e = true)
include he

/-- Reading back undoes the escaping, if the escape character is special. -/
theorem unescape_escape (s : List α) : unescape e (escape e special s) = s := by
  induction s with
  | nil => rfl
  | cons c s ih =>
    cases hc : special c with
    | true => rw [escape, if_pos hc, unescape_escaped, ih]
    | false =>
      rw [escape, if_neg (by simp [hc]), unescape_cons_of_ne (ne_of_plain he hc), ih]

/-- An escaped string has no separator of a special kind, so it stays in one field. -/
theorem fields_escape_append (hsep : special sep = true) (s t : List α) :
    fields e sep (escape e special s ++ t) =
      (fields e sep t).modifyHead (escape e special s ++ ·) := by
  induction s with
  | nil =>
    show fields e sep t = (fields e sep t).modifyHead ([] ++ ·)
    cases fields e sep t <;> rfl
  | cons c s ih =>
    cases hc : special c with
    | true =>
      rw [escape, if_pos hc, List.cons_append, List.cons_append, fields_escaped, ih,
        List.modifyHead_modifyHead]
      rfl
    | false =>
      have hne : c ≠ sep := by
        rintro rfl
        rw [hsep] at hc
        exact absurd hc (by decide)
      rw [escape, if_neg (by simp [hc]), List.cons_append,
        fields_cons_of_ne (ne_of_plain he hc) hne, ih, List.modifyHead_modifyHead]
      rfl

theorem fields_escape (hsep : special sep = true) (s : List α) :
    fields e sep (escape e special s) = [escape e special s] := by
  have happend := fields_escape_append he hsep s []
  rw [List.append_nil] at happend
  rw [happend]
  simp [fields]

theorem fields_escape_sep (hsep : special sep = true) (hne : sep ≠ e) (s t : List α) :
    fields e sep (escape e special s ++ sep :: t) = escape e special s :: fields e sep t := by
  rw [fields_escape_append he hsep, fields_sep hne]
  simp

/-- A separator that the escaping leaves alone separates as if nothing were escaped. -/
theorem items_escape (hsep : special sep = false) (s : List α) :
    items e sep (escape e special s) = s.splitOn sep := by
  have hne := ne_of_plain he hsep
  induction s with
  | nil => rfl
  | cons c s ih =>
    rw [List.splitOn_cons_eq_if_modifyHead, ← ih]
    cases hc : special c with
    | true =>
      have hcs : c ≠ sep := by
        rintro rfl
        rw [hsep] at hc
        exact absurd hc (by decide)
      rw [escape, if_pos hc, items_escaped, if_neg (by simpa using hcs)]
    | false =>
      rw [escape, if_neg (by simp [hc])]
      by_cases hcs : c = sep
      · rw [hcs, items_sep hne, if_pos (by simp)]
      · rw [items_cons_of_ne (ne_of_plain he hc) hcs, if_neg (by simpa using hcs)]

end

theorem splitOn_eq_singleton_iff {s : List α} : s.splitOn sep = [s] ↔ sep ∉ s := by
  constructor
  · intro h hmem
    obtain ⟨xs, ys, rfl⟩ := List.append_of_mem hmem
    rw [List.splitOn_append_cons_self] at h
    have hlen := congrArg List.length h
    have hx := List.length_pos_of_ne_nil (List.splitOn_ne_nil sep xs)
    have hy := List.length_pos_of_ne_nil (List.splitOn_ne_nil sep ys)
    rw [List.length_append, List.length_singleton] at hlen
    omega
  · exact List.splitOn_eq_singleton

end Cage.Lib.Escaping
