import Cage.Lib.Bits
import Mathlib.Data.List.Count
import Mathlib.Data.List.Induction
import Mathlib.Tactic.Linarith

/-!
Canonical prefix codes. A vector of code lengths fixes the code: the words of
one length are consecutive numbers in symbol order, and the first word of a
length follows the last word of the length before, shifted by one bit. The
facts here need no assumption that the lengths fit a complete code.
-/

namespace Cage.Lib.Canonical

open Lib.Bits

/-- The first codeword of length `l`. -/
def firstCode (lens : List Nat) : Nat → Nat
  | 0 => 0
  | 1 => 0
  | l + 2 => 2 * (firstCode lens (l + 1) + lens.count (l + 1))

/-- The number of symbols with a shorter codeword: where the symbols of
length `l` start in canonical order. -/
def firstIndex (lens : List Nat) : Nat → Nat
  | 0 => 0
  | 1 => 0
  | l + 2 => firstIndex lens (l + 1) + lens.count (l + 1)

/-- The number of earlier symbols with the length of symbol `s`. -/
def rank (lens : List Nat) (s : Nat) : Nat := (lens.take s).count (lens.getD s 0)

/-- `w` is the codeword of symbol `s`; no word is longer than `limit`. -/
structure Codeword (limit : Nat) (lens : List Nat) (s : Nat) (w : List Bool) : Prop where
  lt : s < lens.length
  pos : 0 < w.length
  le : w.length ≤ limit
  len : lens.getD s 0 = w.length
  code : msb w = firstCode lens w.length + rank lens s

instance (limit : Nat) (lens : List Nat) (s : Nat) (w : List Bool) :
    Decidable (Codeword limit lens s w) :=
  decidable_of_iff (s < lens.length ∧ 0 < w.length ∧ w.length ≤ limit ∧
      lens.getD s 0 = w.length ∧ msb w = firstCode lens w.length + rank lens s)
    ⟨fun ⟨lt, pos, le, len, code⟩ => ⟨lt, pos, le, len, code⟩,
      fun h => ⟨h.lt, h.pos, h.le, h.len, h.code⟩⟩

/-- The Kraft inequality: the words of these lengths fit a prefix code. -/
def Kraft (limit : Nat) (lens : List Nat) : Prop :=
  (∀ l ∈ lens, l ≤ limit) ∧
    ((lens.filter (0 < ·)).map fun l => 2 ^ (limit - l)).sum ≤ 2 ^ limit

instance (limit : Nat) (lens : List Nat) : Decidable (Kraft limit lens) :=
  inferInstanceAs (Decidable (_ ∧ _))

theorem firstCode_succ (lens : List Nat) (l : Nat) (hl : 0 < l) :
    firstCode lens (l + 1) = 2 * (firstCode lens l + lens.count l) := by
  obtain ⟨k, rfl⟩ : ∃ k, l = k + 1 := ⟨l - 1, by omega⟩
  rfl

/-- Every word of length `b + d` lies above the shifted words of length `b`. -/
theorem firstCode_add (lens : List Nat) (b d : Nat) (hb : 0 < b) :
    (firstCode lens b + lens.count b) * 2 ^ (d + 1) ≤ firstCode lens (b + d + 1) := by
  induction d with
  | zero =>
    rw [Nat.add_zero, firstCode_succ lens b hb]
    omega
  | succ d ih =>
    rw [show b + (d + 1) + 1 = (b + d + 1) + 1 by omega, firstCode_succ lens _ (by omega)]
    calc (firstCode lens b + lens.count b) * 2 ^ (d + 1 + 1)
        = 2 * ((firstCode lens b + lens.count b) * 2 ^ (d + 1)) := by ring
      _ ≤ 2 * firstCode lens (b + d + 1) := Nat.mul_le_mul_left 2 ih
      _ ≤ 2 * (firstCode lens (b + d + 1) + lens.count (b + d + 1)) := by omega

theorem firstIndex_succ (lens : List Nat) (l : Nat) (hl : 0 < l) :
    firstIndex lens (l + 1) = firstIndex lens l + lens.count l := by
  obtain ⟨k, rfl⟩ : ∃ k, l = k + 1 := ⟨l - 1, by omega⟩
  rfl

theorem firstIndex_le_of_lt (lens : List Nat) (l m : Nat) (hl : 0 < l) (hlm : l < m) :
    firstIndex lens l + lens.count l ≤ firstIndex lens m := by
  induction m with
  | zero => omega
  | succ m ih =>
    rw [firstIndex_succ lens m (by omega)]
    by_cases h : l = m
    · rw [h]
    · have := ih (by omega)
      omega

private theorem firstIndex_cons (x : Nat) (xs : List Nat) (l : Nat) :
    firstIndex (x :: xs) (l + 1) =
      firstIndex xs (l + 1) + if 0 < x ∧ x ≤ l then 1 else 0 := by
  induction l with
  | zero =>
    simp only [firstIndex]
    rw [if_neg (by omega)]
  | succ l ih =>
    rw [firstIndex_succ _ (l + 1) (by omega), firstIndex_succ _ (l + 1) (by omega), ih,
      List.count_cons]
    by_cases hx : x = l + 1
    · subst hx
      simp
      omega
    · have hcase : (0 < x ∧ x ≤ l + 1) ↔ (0 < x ∧ x ≤ l) := by omega
      simp only [hcase, beq_iff_eq, hx, if_false]
      omega

/-- The canonical order has no more places than there are symbols. -/
theorem firstIndex_le_length (lens : List Nat) (l : Nat) :
    firstIndex lens (l + 1) ≤ lens.length := by
  induction lens with
  | nil => induction l with
    | zero => simp [firstIndex]
    | succ l ih =>
      rw [firstIndex_succ _ _ (by omega)]
      simpa using ih
  | cons x xs ih =>
    rw [firstIndex_cons, List.length_cons]
    split <;> omega

/-- Symbols of different lengths or ranks have different places. -/
theorem place_inj (lens : List Nat) (l m i j : Nat) (hl : 0 < l) (hm : 0 < m)
    (hi : i < lens.count l) (hj : j < lens.count m)
    (h : firstIndex lens l + i = firstIndex lens m + j) : l = m ∧ i = j := by
  rcases Nat.lt_trichotomy l m with hlt | rfl | hlt
  · have := firstIndex_le_of_lt lens l m hl hlt
    omega
  · exact ⟨rfl, by omega⟩
  · have := firstIndex_le_of_lt lens m l hm hlt
    omega

theorem rank_lt (lens : List Nat) (s : Nat) (hs : s < lens.length) :
    rank lens s < lens.count (lens.getD s 0) := by
  have hsplit : lens = lens.take s ++ lens[s] :: lens.drop (s + 1) := by
    rw [← List.drop_eq_getElem_cons hs, List.take_append_drop]
  have hget : lens.getD s 0 = lens[s] := by simp [List.getD_eq_getElem?_getD, hs]
  have hcount := congrArg (List.count lens[s]) hsplit
  rw [List.count_append, List.count_cons_self] at hcount
  rw [rank, hget]
  omega

/-- Every rank below the number of symbols of a length is taken. -/
theorem exists_rank (lens : List Nat) (l k : Nat) (hk : k < lens.count l) :
    ∃ s, s < lens.length ∧ lens.getD s 0 = l ∧ rank lens s = k := by
  induction lens using List.reverseRecOn with
  | nil => simp at hk
  | append_singleton xs x ih =>
    have hold : ∀ s, s < xs.length → (xs ++ [x]).getD s 0 = xs.getD s 0 ∧
        rank (xs ++ [x]) s = rank xs s := by
      intro s hs
      have hget : (xs ++ [x]).getD s 0 = xs.getD s 0 := by
        simp [List.getD_eq_getElem?_getD, List.getElem?_append_left hs]
      refine ⟨hget, ?_⟩
      rw [rank, rank, hget, List.take_append_of_le_length (Nat.le_of_lt hs)]
    by_cases hlt : k < xs.count l
    · obtain ⟨s, hs, hlen, hrank⟩ := ih hlt
      obtain ⟨hget, hrank'⟩ := hold s hs
      exact ⟨s, by simp; omega, hget.trans hlen, hrank'.trans hrank⟩
    · rw [List.count_append] at hk
      have hx : x = l := by
        by_contra hne
        rw [List.count_singleton, if_neg (by simpa using hne)] at hk
        omega
      have hget : (xs ++ [x]).getD xs.length 0 = x := by
        simp [List.getD_eq_getElem?_getD]
      refine ⟨xs.length, by simp, hget.trans hx, ?_⟩
      rw [rank, hget, List.take_left, hx]
      rw [hx, List.count_singleton_self] at hk
      omega

theorem rank_lt_of_lt (lens : List Nat) (s t : Nat) (hst : s < t) (ht : t < lens.length)
    (hlen : lens.getD s 0 = lens.getD t 0) : rank lens s < rank lens t := by
  have hs : s < (lens.take t).length := by simp; omega
  have hget : (lens.take t).getD s 0 = lens.getD s 0 := by
    simp [List.getD_eq_getElem?_getD, hst]
  have h := rank_lt (lens.take t) s hs
  rw [hget] at h
  have hrank : rank (lens.take t) s = rank lens s := by
    rw [rank, rank, hget, List.take_take, Nat.min_eq_left (Nat.le_of_lt hst)]
  rw [hrank, hlen] at h
  exact h

/-- Two symbols of one length and one rank are the same. -/
theorem rank_inj (lens : List Nat) (s t : Nat) (hs : s < lens.length) (ht : t < lens.length)
    (hlen : lens.getD s 0 = lens.getD t 0) (hrank : rank lens s = rank lens t) : s = t := by
  rcases Nat.lt_trichotomy s t with h | h | h
  · exact absurd hrank (Nat.ne_of_lt (rank_lt_of_lt lens s t h ht hlen))
  · exact h
  · exact absurd hrank.symm (Nat.ne_of_lt (rank_lt_of_lt lens t s h hs hlen.symm))

/-- A proper prefix of a codeword lies above all words of its own length, so
no decoder stops early. -/
theorem Codeword.prefix_above {limit : Nat} {lens : List Nat} {s : Nat} {w : List Bool}
    (h : Codeword limit lens s w) (b : Nat) (hb : 0 < b) (hlt : b < w.length) :
    firstCode lens b + lens.count b ≤ msb (w.take b) := by
  obtain ⟨d, hd⟩ : ∃ d, w.length = b + d + 1 := ⟨w.length - b - 1, by omega⟩
  have hfirst := firstCode_add lens b d hb
  have hcode := h.code
  have hsplit : msb w = msb (w.take b) * 2 ^ (d + 1) + msb (w.drop b) := by
    have hdrop : (w.drop b).length = d + 1 := by simp; omega
    rw [← hdrop, ← msbFrom_eq, msb, msb, ← msbFrom_append, List.take_append_drop]
  have hlow : msb (w.drop b) < 2 ^ (d + 1) := by
    have := msb_lt (w.drop b)
    rwa [show (w.drop b).length = d + 1 by simp; omega] at this
  rw [hd] at hcode
  by_contra hneg
  have hle : msb (w.take b) + 1 ≤ firstCode lens b + lens.count b := by omega
  have hmul := Nat.mul_le_mul_right (2 ^ (d + 1)) hle
  rw [Nat.add_mul, Nat.one_mul] at hmul
  omega

/-- A word of the code of length `b` decodes to the symbol of its rank. -/
theorem Codeword.of_code {limit : Nat} {lens : List Nat} {w : List Bool} {s : Nat}
    (hs : s < lens.length) (hpos : 0 < w.length) (hle : w.length ≤ limit)
    (hlen : lens.getD s 0 = w.length) (hlow : firstCode lens w.length ≤ msb w)
    (hrank : rank lens s = msb w - firstCode lens w.length) :
    Codeword limit lens s w :=
  ⟨hs, hpos, hle, hlen, by omega⟩

/-- The share of the code space that the words shorter than `l` take. -/
def spent (limit : Nat) (lens : List Nat) (l : Nat) : Nat :=
  (lens.map fun m => if 0 < m ∧ m < l then 2 ^ (limit - m) else 0).sum

theorem spent_cons (limit m : Nat) (lens : List Nat) (l : Nat) :
    spent limit (m :: lens) l =
      (if 0 < m ∧ m < l then 2 ^ (limit - m) else 0) + spent limit lens l := by
  rw [spent, List.map_cons, List.sum_cons]
  rfl

theorem spent_one (limit : Nat) (lens : List Nat) : spent limit lens 1 = 0 := by
  induction lens with
  | nil => rfl
  | cons m lens ih => rw [spent_cons, ih, if_neg (by omega)]

theorem spent_succ (limit : Nat) (lens : List Nat) (l : Nat) (hl : 0 < l) :
    spent limit lens (l + 1) = spent limit lens l + lens.count l * 2 ^ (limit - l) := by
  induction lens with
  | nil => simp [spent]
  | cons m lens ih =>
    rw [spent_cons, spent_cons, ih, List.count_cons]
    by_cases hm : m = l
    · subst hm
      rw [if_pos ⟨hl, Nat.lt_succ_self m⟩, if_neg (by omega)]
      simp only [beq_self_eq_true, if_true]
      ring
    · have hsame : (0 < m ∧ m < l + 1) ↔ (0 < m ∧ m < l) := by omega
      simp only [hsame, beq_iff_eq, hm, if_false, Nat.add_zero, Nat.add_assoc]

/-- All the words together take no more than there is. -/
theorem spent_le (limit : Nat) (lens : List Nat) (l : Nat) :
    spent limit lens l ≤ ((lens.filter (0 < ·)).map fun l => 2 ^ (limit - l)).sum := by
  induction lens with
  | nil => simp [spent]
  | cons m lens ih =>
    rw [spent_cons]
    by_cases hm : 0 < m
    · rw [List.filter_cons_of_pos (by simpa using hm), List.map_cons, List.sum_cons]
      refine Nat.add_le_add ?_ ih
      split
      · exact Nat.le_refl _
      · exact Nat.zero_le _
    · rw [List.filter_cons_of_neg (by simpa using hm), if_neg (fun h => hm h.1)]
      omega

/-- The first word of a length begins where the shorter ones end. -/
theorem firstCode_spent (limit : Nat) (lens : List Nat) (l : Nat) (hl : 0 < l) (hle : l ≤ limit) :
    firstCode lens l * 2 ^ (limit - l) = spent limit lens l := by
  induction l with
  | zero => omega
  | succ l ih =>
    by_cases hzero : l = 0
    · subst hzero
      rw [spent_one]
      exact Nat.zero_mul _
    · have hpow : 2 ^ (limit - l) = 2 * 2 ^ (limit - (l + 1)) := by
        rw [← Nat.pow_succ']
        congr 1
        omega
      rw [firstCode_succ lens l (by omega), spent_succ limit lens l (by omega),
        ← ih (by omega) (by omega), hpow]
      ring

/-- With the Kraft inequality the words of a length are numbers of that length. -/
theorem Kraft.fits {limit : Nat} {lens : List Nat} (h : Kraft limit lens) {l : Nat} (hl : 0 < l)
    (hle : l ≤ limit) : firstCode lens l + lens.count l ≤ 2 ^ l := by
  have hspent := spent_succ limit lens l hl
  rw [← firstCode_spent limit lens l hl hle, ← Nat.add_mul] at hspent
  have htotal : (firstCode lens l + lens.count l) * 2 ^ (limit - l) ≤ 2 ^ l * 2 ^ (limit - l) := by
    rw [← hspent, ← Nat.pow_add, Nat.add_sub_cancel' hle]
    exact (spent_le limit lens (l + 1)).trans h.2
  exact Nat.le_of_mul_le_mul_right htotal (Nat.two_pow_pos _)

/-- The codeword of symbol `s`, most significant bit first. -/
def codeword (lens : List Nat) (s : Nat) : List Bool :=
  (field (lens.getD s 0) (firstCode lens (lens.getD s 0) + rank lens s)).reverse

theorem Kraft.codeword {limit : Nat} {lens : List Nat} (h : Kraft limit lens) {s : Nat}
    (hs : s < lens.length) (hpos : 0 < lens.getD s 0) :
    Codeword limit lens s (codeword lens s) := by
  have hmem : lens.getD s 0 ∈ lens := by
    rw [List.getD_eq_getElem?_getD, List.getElem?_eq_getElem hs]
    exact List.getElem_mem hs
  have hle := h.1 _ hmem
  have hlen : (Canonical.codeword lens s).length = lens.getD s 0 := by
    unfold Canonical.codeword
    rw [List.length_reverse, field_length]
  have hlt : firstCode lens (lens.getD s 0) + rank lens s < 2 ^ lens.getD s 0 := by
    have hfits := h.fits hpos hle
    have hrank := rank_lt lens s hs
    omega
  refine ⟨hs, by omega, by omega, hlen.symm, ?_⟩
  rw [hlen]
  unfold Canonical.codeword
  rw [msb_reverse, value_field, Nat.mod_eq_of_lt hlt]

/-- A symbol has no other codeword. -/
theorem Codeword.unique {limit : Nat} {lens : List Nat} {s : Nat} {w : List Bool}
    (h : Codeword limit lens s w) : w = codeword lens s := by
  have hvalue : value w.reverse = firstCode lens (lens.getD s 0) + rank lens s := by
    rw [← msb_reverse, List.reverse_reverse, h.code, h.len]
  unfold codeword
  rw [← hvalue, h.len, ← List.length_reverse, field_value, List.reverse_reverse]

end Cage.Lib.Canonical
