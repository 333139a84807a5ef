import Cage.Lib.Lines
import Cage.Util.CStr
import Mathlib.Data.List.DropRight
import Mathlib.Data.List.Infix

/-!
What a `resolv.conf` says about name servers: `has_real_ns_in_content` of
`src/sandbox/setup.c`, with the comparisons under it. A value is a place in the
text and a length, and every comparison is of the text from there on.
-/

namespace Cage.Sandbox

open Lib.Lines Util

def isBlank (c : UInt8) : Bool := c == 32 || c == 9

def valIsLocalIp4 (v : CStr) (n : Nat) : Bool := 4 ≤ n && strncmpEq v (lit "127.") 4

def valIsLocalIp6 (v : CStr) (n : Nat) : Bool := 3 ≤ n && strncmpEq v (lit "::1") 3

def valIsLocalhostName (v : CStr) (n : Nat) : Bool := 9 ≤ n && strncmpEq v (lit "localhost") 9

def valIsEmpty (v : CStr) (n : Nat) : Bool := (v.take n).all isBlank

def valIsLocalhost (v : CStr) (n : Nat) : Bool :=
  valIsLocalIp4 v n || valIsLocalIp6 v n || valIsLocalhostName v n || valIsEmpty v n

def lineIsLocalhostNs (p : CStr) (len : Nat) : Bool :=
  if len < 11 || !strncmpEq p (lit "nameserver ") 11 then false
  else valIsLocalhost (p.drop 11) (len - 11)

def lineHasRealNs (p : CStr) (len : Nat) : Bool :=
  11 ≤ len && strncmpEq p (lit "nameserver ") 11 && !lineIsLocalhostNs p len

/-- The loop of `has_real_ns_in_content`; `none` is a loop that outlives its bound. -/
def realNsFrom : Nat → CStr → Option Int
  | _, [] => some 0
  | 0, _ :: _ => none
  | fuel + 1, c :: s =>
      match strchr (c :: s) 10 with
      | none => some (if lineHasRealNs (c :: s) (c :: s).length then 1 else 0)
      | some nl =>
          if lineHasRealNs (c :: s) ((c :: s).length - nl.length) then some 1
          else realNsFrom fuel (nl.drop 1)

def hasRealNsInContent (content : Option CStr) : Option Int :=
  match content with
  | none => some 0
  | some p => realNsFrom (p.length + 1) p

/-- A text without the blanks around it. -/
def trim (s : CStr) : CStr := (s.dropWhile isBlank).rdropWhile isBlank

/-- The value of a `nameserver` line, with no blanks around it. -/
def nsValue (line : CStr) : Option CStr :=
  match (trim line).drop (lit "nameserver").length with
  | [] => none
  | b :: rest =>
      if (lit "nameserver").isPrefixOf (trim line) && isBlank b then some (rest.dropWhile isBlank)
      else none

/-- A resolver that an isolated network cannot reach. -/
def Loopback (v : CStr) : Prop := lit "127." <+: v ∨ v = lit "::1" ∨ v = lit "localhost"

/-- The line names a server, and none on loopback. -/
def RealNs (line : CStr) : Prop := ∃ v, nsValue line = some v ∧ v ≠ [] ∧ ¬Loopback v

def HasRealNs (text : CStr) : Prop := ∃ line ∈ lines 10 text, RealNs line

/-- A real line that the code takes for none: blanks before it, a tab behind the
word, or a value that merely begins as a loopback one. -/
def Missed (line : CStr) : Prop :=
  RealNs line ∧ (¬lit "nameserver " <+: line ∨ lit "::1" <+: line.drop 11 ∨
    lit "localhost" <+: line.drop 11)

/-- A loopback line that the code takes for a real one: more blanks before the value. -/
def Mistaken (line : CStr) : Prop :=
  lit "nameserver " <+: line ∧ (∃ b ∈ (line.drop 11).head?, isBlank b = true) ∧
    ∃ v, nsValue line = some v ∧ Loopback v

/-- The odd lines of a text change nothing: there is a plain real line beside
them, or there are none of either kind, or some of both. -/
def PlainText (text : CStr) : Prop :=
  (∃ line ∈ lines 10 text, RealNs line ∧ ¬Missed line) ∨
    ((∃ line ∈ lines 10 text, Missed line) ↔ ∃ line ∈ lines 10 text, Mistaken line)

/-- A comparison that the length of the line guards is one with the line. -/
theorem strncmpEq_iff {l p : CStr} (h : l <+: p) (t : CStr) :
    (decide (t.length ≤ l.length) && strncmpEq p t t.length) = true ↔ t <+: l := by
  rw [Bool.and_eq_true, decide_eq_true_eq, strncmpEq_length]
  constructor
  · rintro ⟨hlen, hpre⟩
    exact List.prefix_of_prefix_length_le hpre h hlen
  · intro hpre
    exact ⟨hpre.length_le, hpre.trans h⟩

/-- What the code takes for a real line, as a fact of the line. -/
def TakenForReal (line : CStr) : Prop :=
  lit "nameserver " <+: line ∧ ¬lit "127." <+: line.drop 11 ∧ ¬lit "::1" <+: line.drop 11 ∧
    ¬lit "localhost" <+: line.drop 11 ∧ ∃ c ∈ line.drop 11, isBlank c = false

theorem valIsLocalhost_iff {v p : CStr} (h : v <+: p) :
    valIsLocalhost p v.length = true ↔ lit "127." <+: v ∨ lit "::1" <+: v ∨
      lit "localhost" <+: v ∨ ∀ c ∈ v, isBlank c = true := by
  have hempty : valIsEmpty p v.length = true ↔ ∀ c ∈ v, isBlank c = true := by
    unfold valIsEmpty
    rw [← List.prefix_iff_eq_take.mp h, List.all_eq_true]
  have hip4 : valIsLocalIp4 p v.length = true ↔ lit "127." <+: v := strncmpEq_iff h (lit "127.")
  have hip6 : valIsLocalIp6 p v.length = true ↔ lit "::1" <+: v := strncmpEq_iff h (lit "::1")
  have hname : valIsLocalhostName p v.length = true ↔ lit "localhost" <+: v :=
    strncmpEq_iff h (lit "localhost")
  unfold valIsLocalhost
  rw [Bool.or_eq_true, Bool.or_eq_true, Bool.or_eq_true, hip4, hip6, hname, hempty, or_assoc,
    or_assoc]

theorem lineHasRealNs_iff {l p : CStr} (h : l <+: p) :
    lineHasRealNs p l.length = true ↔ TakenForReal l := by
  have hword : (decide (11 ≤ l.length) && strncmpEq p (lit "nameserver ") 11) = true ↔
      lit "nameserver " <+: l := strncmpEq_iff h (lit "nameserver ")
  have hvalue := valIsLocalhost_iff (h.drop 11)
  rw [List.length_drop] at hvalue
  unfold lineHasRealNs lineIsLocalhostNs TakenForReal
  rw [Bool.and_eq_true, hword]
  refine and_congr_right fun hpre => ?_
  have hlen : ¬l.length < 11 := Nat.not_lt.mpr hpre.length_le
  have hcmp := (Bool.and_eq_true_iff.mp (hword.mpr hpre)).2
  rw [if_neg (by simp [hlen, hcmp]), Bool.not_eq_true', ← Bool.not_eq_true, hvalue]
  push Not
  simp only [Bool.not_eq_true]

/-- A text that is not blank, with the blanks around it; what is left of it
starts and ends with no blank. -/
structure Trimmed (s a b : CStr) : Prop where
  eq : s = a ++ trim s ++ b
  front : ∀ c ∈ a, isBlank c = true
  back : ∀ c ∈ b, isBlank c = true
  ne : trim s ≠ []
  head : (trim s).dropWhile isBlank = trim s
  last : (trim s).rdropWhile isBlank = trim s

theorem trim_spec {s : CStr} (h : ∃ c ∈ s, isBlank c = false) : ∃ a b, Trimmed s a b := by
  have hrest : s.dropWhile isBlank ≠ [] := by
    intro hnil
    obtain ⟨c, hc, hno⟩ := h
    rw [List.dropWhile_eq_nil_iff.mp hnil c hc] at hno
    cases hno
  have hhead : isBlank ((s.dropWhile isBlank).head hrest) = false := List.head_dropWhile_not _ hrest
  have hne : trim s ≠ [] := by
    intro hnil
    have hall := List.rdropWhile_eq_nil_iff.mp hnil _ (List.head_mem hrest)
    rw [hhead] at hall
    cases hall
  refine ⟨s.takeWhile isBlank, (s.dropWhile isBlank).rtakeWhile isBlank, ?_,
    fun c hc => List.mem_takeWhile_imp hc, fun c hc => List.mem_rtakeWhile_imp hc, hne, ?_,
    List.rdropWhile_idempotent _ _⟩
  · unfold trim
    rw [List.append_assoc, List.rdropWhile_append_rtakeWhile, List.takeWhile_append_dropWhile]
  · have hpre : trim s <+: s.dropWhile isBlank := List.rdropWhile_prefix isBlank _
    have hfirst : (trim s).head hne = (s.dropWhile isBlank).head hrest := hpre.head hne
    cases ht : trim s with
    | nil => rfl
    | cons c t =>
      rw [← hfirst] at hhead
      simp only [ht, List.head_cons] at hhead
      rw [List.dropWhile_cons_of_neg (by simp [hhead])]

/-- A word without blanks starts a text exactly if it starts what is left of the
text without the blanks behind it. -/
theorem prefix_append_blanks {w v b : CStr} (hw : ∀ c ∈ w, isBlank c = false)
    (hb : ∀ c ∈ b, isBlank c = true) : w <+: v ++ b ↔ w <+: v := by
  constructor
  · intro h
    rcases List.prefix_or_prefix_of_prefix h (List.prefix_append v b) with hpre | ⟨u, rfl⟩
    · exact hpre
    · cases u with
      | nil => exact (List.append_nil v).symm ▸ List.prefix_rfl
      | cons c u =>
        have hub : c :: u <+: b := (List.prefix_append_right_inj v).mp h
        have hblank := hb c (hub.subset List.mem_cons_self)
        rw [hw c (List.mem_append_right v List.mem_cons_self)] at hblank
        cases hblank
  · exact fun h => h.trans (List.prefix_append v b)

theorem rdropWhile_append_blanks {x b : CStr} (hb : ∀ c ∈ b, isBlank c = true) :
    (x ++ b).rdropWhile isBlank = x.rdropWhile isBlank := by
  unfold List.rdropWhile
  rw [List.reverse_append, List.dropWhile_append_of_pos fun c hc => hb c (List.mem_reverse.mp hc)]

theorem rdropWhile_append_last {x t : CStr} (hne : t ≠ []) (ht : t.rdropWhile isBlank = t) :
    (x ++ t).rdropWhile isBlank = x ++ t := by
  rw [List.rdropWhile_eq_self_iff] at ht ⊢
  intro hl
  rw [List.getLast_append_of_ne_nil hl hne]
  exact ht hne

theorem trim_word {w r : CStr} (hw : w ≠ []) (hblank : ∀ c ∈ w, isBlank c = false) :
    trim (w ++ r) = (w ++ r).rdropWhile isBlank := by
  unfold trim
  cases w with
  | nil => exact absurd rfl hw
  | cons c w =>
    rw [List.cons_append, List.dropWhile_cons_of_neg (by simp [hblank c List.mem_cons_self])]

theorem nsValue_blank {r : CStr} (h : ∀ c ∈ r, isBlank c = true) :
    nsValue (lit "nameserver " ++ r) = none := by
  have htrim : trim (lit "nameserver " ++ r) = lit "nameserver" := by
    show trim (lit "nameserver" ++ (32 :: r)) = _
    rw [trim_word (by decide +kernel) (by decide +kernel), rdropWhile_append_blanks]
    · decide +kernel
    · intro c hc
      rcases List.mem_cons.mp hc with rfl | hc
      · rfl
      · exact h c hc
  unfold nsValue
  rw [htrim]
  rfl

theorem nsValue_value {r : CStr} (h : ∃ c ∈ r, isBlank c = false) :
    nsValue (lit "nameserver " ++ r) = some (trim r) := by
  obtain ⟨a, b, ht⟩ := trim_spec h
  have htrim : trim (lit "nameserver " ++ r) = lit "nameserver" ++ 32 :: (a ++ trim r) := by
    show trim (lit "nameserver" ++ (32 :: r)) = _
    rw [trim_word (by decide +kernel) (by decide +kernel)]
    conv_lhs => rw [ht.eq]
    have hassoc : lit "nameserver" ++ 32 :: (a ++ trim r ++ b) =
        (lit "nameserver" ++ 32 :: a) ++ trim r ++ b := by simp
    rw [hassoc, rdropWhile_append_blanks ht.back, rdropWhile_append_last ht.ne ht.last]
    simp
  have hfront : (lit "nameserver").isPrefixOf (lit "nameserver" ++ 32 :: (a ++ trim r)) = true :=
    List.isPrefixOf_iff_prefix.mpr (List.prefix_append _ _)
  unfold nsValue
  rw [htrim, List.drop_left]
  simp only [hfront, Bool.true_and]
  rw [if_pos (by decide), List.dropWhile_append_of_pos ht.front, ht.head]

theorem not_prefix_blank {w r : CStr} {c : UInt8} (hw : w ≠ [])
    (hno : ∀ c ∈ w, isBlank c = false) (hc : isBlank c = true) : ¬w <+: c :: r := by
  intro h
  cases w with
  | nil => exact hw rfl
  | cons x w =>
    obtain ⟨rfl, -⟩ := List.cons_prefix_cons.mp h
    rw [hno x List.mem_cons_self] at hc
    cases hc

theorem Trimmed.head_ne {s b : CStr} (h : Trimmed s [] b) : ¬∃ c ∈ s.head?, isBlank c = true := by
  rintro ⟨c, hc, hblank⟩
  have heq := h.eq
  cases ht : trim s with
  | nil => exact h.ne ht
  | cons x t =>
    have hhead := h.head
    rw [ht, List.nil_append, List.cons_append] at heq
    rw [heq] at hc
    obtain rfl : x = c := Option.some.inj hc
    rw [ht, List.dropWhile_cons_of_pos hblank] at hhead
    have hlen := congrArg List.length hhead
    have hle := (List.dropWhile_sublist isBlank (l := t)).length_le
    rw [List.length_cons] at hlen
    omega

/-- The three kinds of lines that start with the word and one blank. -/
theorem takenForReal_iff (line : CStr) :
    TakenForReal line ↔ RealNs line ∧ ¬Missed line ∨ Mistaken line := by
  by_cases hkey : lit "nameserver " <+: line
  · obtain ⟨r, rfl⟩ := hkey
    have hpre : lit "nameserver " <+: lit "nameserver " ++ r := List.prefix_append _ r
    have hdrop : (lit "nameserver " ++ r).drop 11 = r :=
      List.drop_left' (show (lit "nameserver ").length = 11 by decide +kernel)
    unfold TakenForReal Missed Mistaken
    rw [hdrop]
    by_cases hblank : ∃ c ∈ r, isBlank c = false
    · have hvalue := nsValue_value hblank
      obtain ⟨a, b, ht⟩ := trim_spec hblank
      have hreal : RealNs (lit "nameserver " ++ r) ↔ ¬Loopback (trim r) := by
        unfold RealNs
        rw [hvalue]
        exact ⟨fun ⟨v, hv, _, hno⟩ => Option.some.inj hv ▸ hno, fun hno => ⟨_, rfl, ht.ne, hno⟩⟩
      have hloop : (∃ v, nsValue (lit "nameserver " ++ r) = some v ∧ Loopback v) ↔
          Loopback (trim r) := by
        rw [hvalue]
        exact ⟨fun ⟨v, hv, hl⟩ => Option.some.inj hv ▸ hl, fun hl => ⟨_, rfl, hl⟩⟩
      rw [hreal, hloop]
      cases a with
      | nil =>
        have heq : r = trim r ++ b := ht.eq
        have hip4 : lit "127." <+: r ↔ lit "127." <+: trim r := by
          conv_lhs => rw [heq]
          exact prefix_append_blanks (by decide +kernel) ht.back
        have hstart (w : CStr) (hw : trim r = w) : w <+: r := by
          rw [heq, hw]
          exact List.prefix_append w b
        have hip6 := hstart (lit "::1")
        have hname := hstart (lit "localhost")
        constructor
        · rintro ⟨-, h4, h6, hn, -⟩
          refine Or.inl ⟨?_, ?_⟩
          · rintro (hl | hl | hl)
            · exact h4 (hip4.mpr hl)
            · exact h6 (hip6 hl)
            · exact hn (hname hl)
          · rintro ⟨-, hno | hno | hno⟩
            · exact hno hpre
            · exact h6 hno
            · exact hn hno
        · rintro (⟨hserver, hmissed⟩ | ⟨-, hhead, -⟩)
          · exact ⟨hpre, fun h => hserver (Or.inl (hip4.mp h)),
              fun h => hmissed ⟨hserver, Or.inr (Or.inl h)⟩,
              fun h => hmissed ⟨hserver, Or.inr (Or.inr h)⟩, hblank⟩
          · exact absurd hhead ht.head_ne
      | cons c a =>
        have heq : r = c :: (a ++ trim r ++ b) := ht.eq
        have hc : isBlank c = true := ht.front c List.mem_cons_self
        have hstart (w : CStr) (hw : w ≠ []) (hno : ∀ c ∈ w, isBlank c = false) : ¬w <+: r := by
          rw [heq]
          exact not_prefix_blank hw hno hc
        have hip4 := hstart (lit "127.") (by decide +kernel) (by decide +kernel)
        have hip6 := hstart (lit "::1") (by decide +kernel) (by decide +kernel)
        have hname := hstart (lit "localhost") (by decide +kernel) (by decide +kernel)
        have hhead : ∃ b ∈ r.head?, isBlank b = true := by
          rw [heq]
          exact ⟨c, rfl, hc⟩
        refine iff_of_true ⟨hpre, hip4, hip6, hname, hblank⟩ ?_
        by_cases hl : Loopback (trim r)
        · exact Or.inr ⟨hpre, hhead, hl⟩
        · refine Or.inl ⟨hl, ?_⟩
          rintro ⟨-, hno | hno | hno⟩
          · exact hno hpre
          · exact hip6 hno
          · exact hname hno
    · have hall : ∀ c ∈ r, isBlank c = true := by
        push Not at hblank
        exact fun c hc => by simpa using hblank c hc
      have hnone := nsValue_blank hall
      refine iff_of_false (fun h => hblank h.2.2.2.2) ?_
      rintro (⟨⟨v, hv, -⟩, -⟩ | ⟨-, -, v, hv, -⟩) <;>
      · rw [hnone] at hv
        cases hv
  · refine iff_of_false (fun h => hkey h.1) ?_
    rintro (⟨hreal, hmissed⟩ | hmistaken)
    · exact hmissed ⟨hreal, Or.inl hkey⟩
    · exact hkey hmistaken.1

instance (line : List UInt8) : Decidable (TakenForReal line) := by
  unfold TakenForReal
  infer_instance

theorem realNsFrom_nil (fuel : Nat) : realNsFrom fuel [] = some 0 := by cases fuel <;> rfl

/-- One round of the loop. -/
theorem realNsFrom_line {p : CStr} (hne : p ≠ []) (fuel : Nat) :
    realNsFrom (fuel + 1) p =
      if TakenForReal (lineOf 10 p) then some 1 else realNsFrom fuel (behind 10 p) := by
  have hpre : lineOf 10 p <+: p := List.takeWhile_prefix _
  have htaken := lineHasRealNs_iff hpre
  cases p with
  | nil => exact absurd rfl hne
  | cons c s =>
    rw [realNsFrom]
    rcases eq_line 10 (c :: s) with ⟨hline, hno⟩ | hline
    · rw [← hline] at htaken ⊢
      rw [strchr_none hno, behind_last hno, realNsFrom_nil]
      by_cases h : TakenForReal (c :: s)
      · rw [if_pos h]
        exact congrArg some (if_pos (htaken.mpr h))
      · rw [if_neg h]
        exact congrArg some (if_neg fun h' => h (htaken.mp h'))
    · have hfound : strchr (c :: s) 10 = some (10 :: behind 10 (c :: s)) := by
        conv_lhs => rw [hline]
        exact strchr_append (nl_notMem_lineOf 10 _)
      have hlen : (c :: s).length - (10 :: behind 10 (c :: s)).length =
          (lineOf 10 (c :: s)).length := by
        have hsum := congrArg List.length hline
        rw [List.length_append] at hsum
        omega
      rw [hfound]
      show (if lineHasRealNs (c :: s) ((c :: s).length - (10 :: behind 10 (c :: s)).length) = true
        then some 1 else realNsFrom fuel (behind 10 (c :: s))) = _
      rw [hlen]
      exact if_congr htaken rfl rfl

/-- The loop looks at each line in turn. -/
theorem realNsFrom_eq {fuel : Nat} {p : CStr} (hfuel : p.length < fuel) :
    realNsFrom fuel p = some (if ∃ line ∈ lines (10 : UInt8) p, TakenForReal line then 1 else 0) := by
  induction fuel generalizing p with
  | zero => cases hfuel
  | succ fuel ih =>
    by_cases hne : p = []
    · subst hne
      exact realNsFrom_nil _
    · have hshort := length_behind_lt 10 hne
      rw [realNsFrom_line hne, lines_of_ne_nil hne, ih (by omega)]
      by_cases h : TakenForReal (lineOf 10 p)
      · rw [if_pos h, if_pos ⟨_, List.mem_cons_self, h⟩]
      · rw [if_neg h]
        refine congrArg some (if_congr ?_ rfl rfl)
        rw [List.exists_mem_cons_iff, or_iff_right h]

theorem hasRealNsInContent_eq (text : CStr) : hasRealNsInContent (some text) =
    some (if ∃ line ∈ lines (10 : UInt8) text, TakenForReal line then 1 else 0) :=
  realNsFrom_eq (Nat.lt_succ_self _)

/-- The call answers 0 or 1, and 1 exactly if a line names a real server. -/
def Classifies (text : CStr) : Prop :=
  ∃ r, hasRealNsInContent (some text) = some r ∧ (r = 0 ∨ r = 1) ∧ (r = 1 ↔ HasRealNs text)

theorem classifies_iff (text : CStr) : Classifies text ↔ PlainText text := by
  have hcode : (∃ line ∈ lines 10 text, TakenForReal line) ↔
      (∃ line ∈ lines 10 text, RealNs line ∧ ¬Missed line) ∨
        ∃ line ∈ lines 10 text, Mistaken line := by
    simp only [takenForReal_iff, and_or_left, exists_or]
  have hspec : HasRealNs text ↔ (∃ line ∈ lines 10 text, RealNs line ∧ ¬Missed line) ∨
      ∃ line ∈ lines 10 text, Missed line := by
    unfold HasRealNs
    constructor
    · rintro ⟨line, hline, hreal⟩
      by_cases hmissed : Missed line
      · exact Or.inr ⟨line, hline, hmissed⟩
      · exact Or.inl ⟨line, hline, hreal, hmissed⟩
    · rintro (⟨line, hline, hreal, -⟩ | ⟨line, hline, hmissed⟩)
      · exact ⟨line, hline, hreal⟩
      · exact ⟨line, hline, hmissed.1⟩
  have hcall : Classifies text ↔ ((∃ line ∈ lines 10 text, TakenForReal line) ↔ HasRealNs text) := by
    unfold Classifies
    rw [hasRealNsInContent_eq]
    by_cases h : ∃ line ∈ lines 10 text, TakenForReal line
    · rw [if_pos h, iff_true_left h]
      constructor
      · rintro ⟨r, hr, -, hiff⟩
        exact hiff.mp (Option.some.inj hr).symm
      · exact fun hreal => ⟨1, rfl, Or.inr rfl, iff_of_true rfl hreal⟩
    · rw [if_neg h, iff_false_left h]
      constructor
      · rintro ⟨r, hr, -, hiff⟩ hreal
        cases (hiff.mpr hreal).symm.trans (Option.some.inj hr).symm
      · exact fun hreal => ⟨0, rfl, Or.inl rfl, iff_of_false (by decide) hreal⟩
  rw [hcall, hcode, hspec]
  unfold PlainText
  by_cases hplain : ∃ line ∈ lines 10 text, RealNs line ∧ ¬Missed line
  · exact iff_of_true (iff_of_true (Or.inl hplain) (Or.inl hplain)) (Or.inl hplain)
  · rw [or_iff_right hplain, or_iff_right hplain, or_iff_right hplain]
    exact Iff.comm

/-- Blanks around the lines and the end of the last one are no part of what a
text names. -/
theorem hasRealNs_trim {text other : CStr}
    (h : (lines 10 other).map trim = (lines 10 text).map trim) : HasRealNs other ↔ HasRealNs text := by
  have hvalue (line line' : CStr) (heq : trim line = trim line') : RealNs line → RealNs line' := by
    unfold RealNs nsValue
    rw [heq]
    exact id
  have hone (s t : CStr) (heq : (lines 10 s).map trim = (lines 10 t).map trim) :
      HasRealNs s → HasRealNs t := by
    rintro ⟨line, hline, hreal⟩
    have hmem : trim line ∈ (lines 10 t).map trim := heq ▸ List.mem_map_of_mem hline
    obtain ⟨line', hline', htrim⟩ := List.mem_map.mp hmem
    exact ⟨line', hline', hvalue line line' htrim.symm hreal⟩
  exact ⟨hone other text h, hone text other h.symm⟩

/-- `has_real_ns_in_content` tells the texts that name a real server from the
others exactly where no odd line decides. What a text names does not depend on
the blanks around its lines nor on the end of the last. -/
theorem hasRealNs_classifies (content : List UInt8) :
    (Classifies (cstring content) ↔ PlainText (cstring content)) ∧
      ∀ other, (lines 10 other).map trim = (lines 10 (cstring content)).map trim →
        (HasRealNs other ↔ HasRealNs (cstring content)) :=
  ⟨classifies_iff _, fun _ h => hasRealNs_trim h⟩

/-- An address that begins as the loopback one is missed, and a loopback address
behind two blanks is taken for a real one. -/
theorem hasRealNs_odd :
    ¬Classifies (cstring (lit "nameserver ::1234\n")) ∧
      ¬Classifies (cstring (lit "nameserver  127.0.0.1\n")) := by
  constructor
  · rintro ⟨r, hr, -, hiff⟩
    have hanswer : hasRealNsInContent (some (cstring (lit "nameserver ::1234\n"))) = some 0 := by
      decide +kernel
    rw [hanswer] at hr
    cases hr
    have hreal : HasRealNs (cstring (lit "nameserver ::1234\n")) :=
      ⟨lit "nameserver ::1234", by decide +kernel, lit "::1234", by decide +kernel,
        by decide +kernel, by unfold Loopback; decide +kernel⟩
    cases hiff.mpr hreal
  · rintro ⟨r, hr, -, hiff⟩
    have hanswer : hasRealNsInContent (some (cstring (lit "nameserver  127.0.0.1\n"))) =
        some 1 := by
      decide +kernel
    rw [hanswer] at hr
    cases hr
    obtain ⟨line, hline, v, hv, -, hno⟩ := hiff.mp rfl
    have hlines : lines 10 (cstring (lit "nameserver  127.0.0.1\n")) =
        [lit "nameserver  127.0.0.1"] := by
      decide +kernel
    rw [hlines, List.mem_singleton] at hline
    have hvalue : nsValue (lit "nameserver  127.0.0.1") = some (lit "127.0.0.1") := by
      decide +kernel
    rw [hline, hvalue] at hv
    cases hv
    exact hno (Or.inl (by decide +kernel))

end Cage.Sandbox
