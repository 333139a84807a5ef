import Cage.Net.Reader
import Mathlib.Data.List.TakeWhile

/-!
Which buffers the readers leave. A message walk stays inside when every message
that is passed over ends, rounded up, inside the buffer; a name is compared
inside when the buffer does not end before the comparison does.
-/

namespace Cage.Net

open Util

theorem rd16_of_le (data : Bytes) (i : Nat) (h : i + 2 ≤ data.length) : ∃ v, rd16 data i = .ok v := by
  have hlen : 2 ≤ (data.drop i).length := by
    rw [List.length_drop]
    omega
  unfold rd16
  match hdrop : data.drop i with
  | [] | [_] =>
    rw [hdrop] at hlen
    simp at hlen
  | a :: b :: _ => exact ⟨_, rfl⟩

theorem rd32_of_le (data : Bytes) (i : Nat) (h : i + 4 ≤ data.length) : ∃ v, rd32 data i = .ok v := by
  have hlen : 4 ≤ (data.drop i).length := by
    rw [List.length_drop]
    omega
  unfold rd32
  match hdrop : data.drop i with
  | [] | [_] | [_, _] | [_, _, _] =>
    rw [hdrop] at hlen
    simp at hlen
  | a :: b :: c :: d :: _ => exact ⟨_, rfl⟩

theorem rd32_outside {data : Bytes} {i : Nat} (h : data.length ≤ i) :
    rd32 data i = .error .outside := by
  unfold rd32
  rw [List.drop_of_length_le h]

theorem rd32_lt {data : Bytes} {i v : Nat} (h : rd32 data i = .ok v) : v < 2 ^ 32 := by
  unfold rd32 at h
  split at h
  · cases h
    rename_i a b c d _ _
    have ha := a.toNat_lt
    have hb := b.toNat_lt
    have hc := c.toNat_lt
    have hd := d.toNat_lt
    omega
  · cases h

/-- A message header at `off`, whose message ends in the buffer. -/
structure MsgAt (data : Bytes) (off len : Nat) : Prop where
  header : off + 16 ≤ data.length
  field : rd32 data off = .ok len
  lower : 16 ≤ len
  upper : off + len ≤ data.length

/-- The message is passed over without leaving the buffer. -/
def Passable (data : Bytes) (off len : Nat) : Prop :=
  len + 3 < 2 ^ 32 ∧ off + (len + 3) / 4 * 4 ≤ data.length

/-- The messages that a loop looks at, from `start` on. It leaves at those that
it `stops` at. -/
inductive Visits (data : Bytes) (stops : Nat → Nat → Prop) : Nat → Nat → Nat → Prop where
  | here (off len : Nat) (h : MsgAt data off len) : Visits data stops off off len
  | later (start first off len : Nat) (h : MsgAt data start first) (hstop : ¬ stops start first)
      (hpass : Passable data start first)
      (hrest : Visits data stops (start + (first + 3) / 4 * 4) off len) :
      Visits data stops start off len

theorem nlmsgAlign_eq {len : Nat} (h : len + 3 < 2 ^ 32) : nlmsgAlign len = (len + 3) / 4 * 4 := by
  unfold nlmsgAlign
  rw [Nat.mod_eq_of_lt h]

variable {S : Type} {data : Bytes}

/-- The loop returns, whatever its number of rounds. -/
def Returns (f : Nat → Rd S) : Prop := ∃ rounds r, f rounds = .ok r

section Messages

variable {body : Nat → Nat → S → Rd (S × Bool)} {stops good : Nat → Nat → Prop}

/-- What is asked of the body of a loop: it returns on good messages, and leaves
at those it stops at. -/
structure BodySpec (data : Bytes) (body : Nat → Nat → S → Rd (S × Bool))
    (stops good : Nat → Nat → Prop) : Prop where
  returns : ∀ off len s, MsgAt data off len → ((∃ r, body off len s = .ok r) ↔ good off len)
  leaves : ∀ off len s r, MsgAt data off len → body off len s = .ok r → (r.2 = true ↔ stops off len)

theorem eachMsg_done {off rem : Nat} (h : nlmsgOk data off rem = .ok none) (rounds : Nat) (s : S) :
    eachMsg data body (rounds + 1) off rem s = .ok s := by
  rw [eachMsg, h]
  rfl

theorem eachMsg_some {off rem len : Nat} (h : nlmsgOk data off rem = .ok (some len)) (rounds : Nat)
    (s : S) : eachMsg data body (rounds + 1) off rem s = (body off len s >>= fun r =>
      if r.2 then pure r.1
      else eachMsg data body rounds (off + nlmsgAlign len) (nlmsgNext rem len) r.1) := by
  rw [eachMsg, h]
  rfl

/-- Behind the end of the buffer, with something said to remain, the next header is
read outside. -/
theorem eachMsg_beyond {off rem : Nat} (hoff : data.length ≤ off) (hrem : 16 ≤ rem) (s : S) :
    ¬ Returns fun rounds => eachMsg data body rounds off rem s := by
  rintro ⟨rounds, r, h⟩
  cases rounds with
  | zero => cases h
  | succ rounds =>
    have hok : nlmsgOk data off rem = .error .outside := by
      unfold nlmsgOk
      rw [if_neg (by unfold nlmsgHdrLen; omega), rd32_outside hoff]
      rfl
    simp only [eachMsg, hok] at h
    cases h

/-- A message whose rounded length is 0 is met again and again. -/
theorem eachMsg_stuck (hbody : BodySpec data body stops good) {off rem len : Nat}
    (hmsg : MsgAt data off len) (hok : nlmsgOk data off rem = .ok (some len))
    (hstop : ¬ stops off len) (halign : nlmsgAlign len = 0) (hrem : rem < 2 ^ 64) (s : S) :
    ¬ Returns fun rounds => eachMsg data body rounds off rem s := by
  rintro ⟨rounds, r, h⟩
  induction rounds generalizing s with
  | zero => cases h
  | succ rounds ih =>
    dsimp only at h
    rw [eachMsg_some hok] at h
    cases hrun : body off len s with
    | error e =>
      rw [hrun] at h
      cases h
    | ok t =>
      have hgo : ¬ t.2 = true := fun ht => hstop ((hbody.leaves off len s t hmsg hrun).mp ht)
      have hnext : nlmsgNext rem len = rem := by
        unfold nlmsgNext
        rw [halign, Nat.sub_zero, Nat.add_mod_right, Nat.mod_eq_of_lt hrem]
      rw [hrun] at h
      simp only [bind, Except.bind, if_neg hgo, halign, Nat.add_zero, hnext] at h
      exact ih t.1 h

theorem nlmsgOk_inside {off rem : Nat} (h : off + rem = data.length) :
    (nlmsgOk data off rem = .ok none ∧ ∀ len, ¬ MsgAt data off len) ∨
      ∃ len, nlmsgOk data off rem = .ok (some len) ∧ MsgAt data off len := by
  unfold nlmsgOk nlmsgHdrLen
  by_cases hrem : rem < 16
  · rw [if_pos hrem]
    refine Or.inl ⟨rfl, fun len hmsg => ?_⟩
    have hheader := hmsg.header
    omega
  · obtain ⟨len, hlen⟩ := rd32_of_le data off (by omega)
    rw [if_neg hrem, hlen]
    by_cases hfit : 16 ≤ len ∧ len ≤ rem
    · refine Or.inr ⟨len, ?_, by omega, hlen, hfit.1, by omega⟩
      show Except.ok (if 16 ≤ len ∧ len ≤ rem then some len else none) = _
      rw [if_pos hfit]
    · refine Or.inl ⟨?_, ?_⟩
      · show Except.ok (if 16 ≤ len ∧ len ≤ rem then some len else none) = _
        rw [if_neg hfit]
      · intro len' hmsg
        have hfield := hmsg.field
        rw [hlen] at hfield
        cases hfield
        exact hfit ⟨hmsg.lower, by have := hmsg.upper; omega⟩

/-- What must hold of every message that the loop looks at from `off` on. -/
def Harmless (data : Bytes) (stops good : Nat → Nat → Prop) (start : Nat) : Prop :=
  ∀ off len, Visits data stops start off len →
    good off len ∧ (stops off len ∨ Passable data off len)

theorem Harmless.rest {start first : Nat} (h : Harmless data stops good start)
    (hmsg : MsgAt data start first) (hstop : ¬ stops start first)
    (hpass : Passable data start first) :
    Harmless data stops good (start + (first + 3) / 4 * 4) :=
  fun off len hvisit => h off len (.later start first off len hmsg hstop hpass hvisit)

theorem MsgAt.unique {off len len' : Nat} (h : MsgAt data off len) (h' : MsgAt data off len') :
    len = len' := by
  have heq := h.field.symm.trans h'.field
  cases heq
  rfl

theorem eachMsg_step {off rem len : Nat} (hok : nlmsgOk data off rem = .ok (some len)) (s : S) :
    (Returns fun rounds => eachMsg data body rounds off rem s) ↔
      ∃ t, body off len s = .ok t ∧ (t.2 = true ∨ Returns fun rounds =>
        eachMsg data body rounds (off + nlmsgAlign len) (nlmsgNext rem len) t.1) := by
  constructor
  · rintro ⟨rounds, r, hrun⟩
    cases rounds with
    | zero => cases hrun
    | succ rounds =>
      dsimp only at hrun
      rw [eachMsg_some hok] at hrun
      cases ht : body off len s with
      | error e =>
        rw [ht] at hrun
        cases hrun
      | ok t =>
        refine ⟨t, rfl, ?_⟩
        by_cases hleave : t.2 = true
        · exact Or.inl hleave
        · rw [ht] at hrun
          simp only [bind, Except.bind, if_neg hleave] at hrun
          exact Or.inr ⟨rounds, r, hrun⟩
  · rintro ⟨t, ht, hleave | ⟨rounds, r, hrun⟩⟩
    · refine ⟨1, t.1, ?_⟩
      dsimp only
      rw [eachMsg_some hok, ht]
      simp only [bind, Except.bind, if_pos hleave]
      rfl
    · by_cases hleave : t.2 = true
      · refine ⟨1, t.1, ?_⟩
        dsimp only
        rw [eachMsg_some hok, ht]
        simp only [bind, Except.bind, if_pos hleave]
        rfl
      · refine ⟨rounds + 1, r, ?_⟩
        dsimp only
        rw [eachMsg_some hok, ht]
        simp only [bind, Except.bind, if_neg hleave]
        exact hrun

/-- A message that cannot be passed over leads out of the buffer, or the loop
never ends. -/
theorem eachMsg_impassable (hbody : BodySpec data body stops good) (hsize : data.length < 2 ^ 64)
    {off rem len : Nat} (hoff : off + rem = data.length) (hmsg : MsgAt data off len)
    (hok : nlmsgOk data off rem = .ok (some len)) (hstop : ¬ stops off len)
    (hpass : ¬ Passable data off len) (s : S) :
    ¬ Returns fun rounds => eachMsg data body rounds off rem s := by
  have hlower := hmsg.lower
  have hupper := hmsg.upper
  by_cases hsmall : len + 3 < 2 ^ 32
  · rw [eachMsg_step hok]
    rintro ⟨t, ht, hleave | hrest⟩
    · exact hstop ((hbody.leaves off len s t hmsg ht).mp hleave)
    · refine eachMsg_beyond ?_ ?_ t.1 hrest
      · rw [nlmsgAlign_eq hsmall]
        unfold Passable at hpass
        omega
      · unfold nlmsgNext
        rw [nlmsgAlign_eq hsmall]
        unfold Passable at hpass
        rw [Nat.mod_eq_of_lt (by omega)]
        omega
  · have hlt := rd32_lt hmsg.field
    refine eachMsg_stuck hbody hmsg hok hstop ?_ (by omega) s
    unfold nlmsgAlign
    omega

/-- A loop over messages returns just when all it looks at is harmless. -/
theorem eachMsg_returns (hbody : BodySpec data body stops good) (hsize : data.length < 2 ^ 64)
    (rem : Nat) : ∀ off s, off + rem = data.length →
      ((Returns fun rounds => eachMsg data body rounds off rem s) ↔
        Harmless data stops good off) := by
  induction rem using Nat.strongRecOn with
  | ind rem ih =>
    intro off s hoff
    rcases nlmsgOk_inside hoff with ⟨hnone, hno⟩ | ⟨len, hok, hmsg⟩
    · refine ⟨fun _ off' len' hvisit => ?_, fun _ => ⟨1, s, eachMsg_done hnone 0 s⟩⟩
      cases hvisit with
      | here off len h => exact absurd h (hno _)
      | later start first off len h hstop hpass hrest => exact absurd h (hno _)
    · have hlower := hmsg.lower
      have hupper := hmsg.upper
      by_cases hstop : stops off len
      · rw [eachMsg_step hok]
        constructor
        · rintro ⟨t, ht, -⟩ off' len' hvisit
          cases hvisit with
          | here off' len' h =>
            cases hmsg.unique h
            exact ⟨(hbody.returns off len s hmsg).mp ⟨t, ht⟩, Or.inl hstop⟩
          | later start first off' len' h hstop' hpass hrest =>
            cases hmsg.unique h
            exact absurd hstop hstop'
        · intro hharmless
          obtain ⟨t, ht⟩ := (hbody.returns off len s hmsg).mpr
            (hharmless off len (.here off len hmsg)).1
          exact ⟨t, ht, Or.inl ((hbody.leaves off len s t hmsg ht).mpr hstop)⟩
      · by_cases hpass : Passable data off len
        · have hrest := fun s => ih (rem - (len + 3) / 4 * 4) (by omega)
            (off + (len + 3) / 4 * 4) s (by have := hpass.2; omega)
          have hnext : nlmsgNext rem len = rem - (len + 3) / 4 * 4 := by
            have hfit := hpass.2
            unfold nlmsgNext
            rw [nlmsgAlign_eq hpass.1]
            omega
          rw [eachMsg_step hok, nlmsgAlign_eq hpass.1, hnext]
          constructor
          · rintro ⟨t, ht, hleave | hreturns⟩
            · exact absurd ((hbody.leaves off len s t hmsg ht).mp hleave) hstop
            · intro off' len' hvisit
              cases hvisit with
              | here off' len' h =>
                cases hmsg.unique h
                exact ⟨(hbody.returns off len s hmsg).mp ⟨t, ht⟩, Or.inr hpass⟩
              | later start first off' len' h hstop' hpass' hvisit' =>
                cases hmsg.unique h
                exact (hrest t.1).mp hreturns off' len' hvisit'
          · intro hharmless
            obtain ⟨t, ht⟩ := (hbody.returns off len s hmsg).mpr
              (hharmless off len (.here off len hmsg)).1
            exact ⟨t, ht, Or.inr ((hrest t.1).mpr (hharmless.rest hmsg hstop hpass))⟩
        · refine ⟨fun hreturns => absurd hreturns ?_, fun hharmless => ?_⟩
          · exact eachMsg_impassable hbody hsize hoff hmsg hok hstop hpass s
          · exact absurd ((hharmless off len (.here off len hmsg)).2.resolve_left hstop) hpass

end Messages

section Attributes

/-- An attribute at `off` in what ends at `stop`. -/
structure AttrAt (data : Bytes) (stop : Int) (off len : Nat) : Prop where
  header : (off : Int) + 4 ≤ stop
  field : rd16 data off = .ok len
  lower : 4 ≤ len
  upper : (off : Int) + len ≤ stop

/-- The attributes that a loop looks at, from `start` on. -/
inductive VisitsAttr (data : Bytes) (leaves : Nat → Prop) (stop : Int) : Nat → Nat → Prop where
  | here (off len : Nat) (h : AttrAt data stop off len) : VisitsAttr data leaves stop off off
  | later (start first off : Nat) (h : AttrAt data stop start first) (hleave : ¬ leaves start)
      (hrest : VisitsAttr data leaves stop (start + nlaAlign first) off) :
      VisitsAttr data leaves stop start off

variable {body : Nat → Nat → S → Rd (S × Bool)} {leaves good : Nat → Prop} {stop : Int}

theorem VisitsAttr.room {start a : Nat} (h : VisitsAttr data leaves stop start a) :
    (start : Int) + 4 ≤ stop := by
  cases h with
  | here off len h => exact h.header
  | later start first off h => exact h.header

structure AttrSpec (data : Bytes) (stop : Int) (body : Nat → Nat → S → Rd (S × Bool))
    (leaves good : Nat → Prop) : Prop where
  returns : ∀ off len s, AttrAt data stop off len → ((∃ r, body off len s = .ok r) ↔ good off)
  leaves : ∀ off len s r, AttrAt data stop off len → body off len s = .ok r →
    (r.2 = true ↔ leaves off)

theorem nlaOk_inside {off : Nat} {alen : Int} (h : (off : Int) + alen = stop)
    (hstop : stop ≤ data.length) :
    (nlaOk data off alen = .ok none ∧ ∀ len, ¬ AttrAt data stop off len) ∨
      ∃ len, nlaOk data off alen = .ok (some len) ∧ AttrAt data stop off len := by
  unfold nlaOk
  by_cases hrem : alen < 4
  · rw [if_pos hrem]
    refine Or.inl ⟨rfl, fun len hattr => ?_⟩
    have hheader := hattr.header
    omega
  · obtain ⟨len, hlen⟩ := rd16_of_le data off (by omega)
    rw [if_neg hrem, hlen]
    by_cases hfit : 4 ≤ len ∧ (len : Int) ≤ alen
    · refine Or.inr ⟨len, ?_, by omega, hlen, hfit.1, by omega⟩
      show Except.ok (if 4 ≤ len ∧ (len : Int) ≤ alen then some len else none) = _
      rw [if_pos hfit]
    · refine Or.inl ⟨?_, fun len' hattr => ?_⟩
      · show Except.ok (if 4 ≤ len ∧ (len : Int) ≤ alen then some len else none) = _
        rw [if_neg hfit]
      · have hfield := hattr.field
        rw [hlen] at hfield
        cases hfield
        exact hfit ⟨hattr.lower, by have := hattr.upper; omega⟩

theorem eachAttr_done {off : Nat} {alen : Int} (h : nlaOk data off alen = .ok none) (rounds : Nat)
    (s : S) : eachAttr data body (rounds + 1) off alen s = .ok s := by
  rw [eachAttr, h]
  rfl

theorem eachAttr_some {off len : Nat} {alen : Int} (h : nlaOk data off alen = .ok (some len))
    (rounds : Nat) (s : S) :
    eachAttr data body (rounds + 1) off alen s = (body off len s >>= fun r =>
      if r.2 then pure r.1
      else eachAttr data body rounds (off + nlaAlign len) (alen - nlaAlign len) r.1) := by
  rw [eachAttr, h]
  rfl

theorem AttrAt.unique {off len len' : Nat} (h : AttrAt data stop off len)
    (h' : AttrAt data stop off len') : len = len' := by
  have heq := h.field.symm.trans h'.field
  cases heq
  rfl

/-- A loop over attributes returns just when its body does at all it looks at. -/
theorem eachAttr_returns (hbody : AttrSpec data stop body leaves good) (hstop : stop ≤ data.length)
    (rounds : Nat) : ∀ (off : Nat) (alen : Int) s, (off : Int) + alen = stop → alen.toNat < rounds →
      ((∃ r, eachAttr data body rounds off alen s = .ok r) ↔
        ∀ a, VisitsAttr data leaves stop off a → good a) := by
  induction rounds with
  | zero => exact fun _ _ _ _ h => absurd h (Nat.not_lt_zero _)
  | succ rounds ih =>
    intro off alen s hoff hrounds
    rcases nlaOk_inside hoff hstop with ⟨hnone, hno⟩ | ⟨len, hok, hattr⟩
    · rw [eachAttr_done hnone]
      refine ⟨fun _ a hvisit => ?_, fun _ => ⟨s, rfl⟩⟩
      cases hvisit with
      | here off len h => exact absurd h (hno _)
      | later start first off h hleave hrest => exact absurd h (hno _)
    · have hlower := hattr.lower
      have hupper := hattr.upper
      have halign : nlaAlign len = (len + 3) / 4 * 4 := rfl
      have hrest := fun s => ih (off + nlaAlign len) (alen - nlaAlign len) s
        (by omega) (by omega)
      rw [eachAttr_some hok]
      constructor
      · rintro ⟨r, hrun⟩
        cases ht : body off len s with
        | error e =>
          rw [ht] at hrun
          cases hrun
        | ok t =>
          intro a hvisit
          cases hvisit with
          | here off len' h =>
            cases hattr.unique h
            exact (hbody.returns off len s hattr).mp ⟨t, ht⟩
          | later start first a h hleave hvisit' =>
            cases hattr.unique h
            have hgo : ¬ t.2 = true := fun h' => hleave ((hbody.leaves off len s t hattr ht).mp h')
            rw [ht] at hrun
            simp only [bind, Except.bind, if_neg hgo] at hrun
            exact (hrest t.1).mp ⟨r, hrun⟩ a hvisit'
      · intro hgood
        obtain ⟨t, ht⟩ := (hbody.returns off len s hattr).mpr (hgood off (.here off len hattr))
        rw [ht]
        by_cases hleave : t.2 = true
        · refine ⟨t.1, ?_⟩
          simp only [bind, Except.bind, if_pos hleave]
          rfl
        · simp only [bind, Except.bind, if_neg hleave]
          have hno : ¬ leaves off := fun h => hleave ((hbody.leaves off len s t hattr ht).mpr h)
          exact (hrest t.1).mpr fun a hvisit => hgood a (.later off len a hattr hno hvisit)

/-- A loop that keeps whether it has left tells whether it has met a reason to. -/
theorem eachAttr_left {body : Nat → Nat → Bool → Rd (Bool × Bool)}
    (hbody : AttrSpec data stop body leaves good) (hstop : stop ≤ data.length)
    (hkeep : ∀ off len s r, body off len s = .ok r → r.1 = r.2) (rounds : Nat) :
    ∀ (off : Nat) (alen : Int) (r : Bool), (off : Int) + alen = stop →
      eachAttr data body rounds off alen false = .ok r →
        (r = true ↔ ∃ a, VisitsAttr data leaves stop off a ∧ leaves a) := by
  induction rounds with
  | zero =>
    intro off alen r _ hrun
    cases hrun
  | succ rounds ih =>
    intro off alen r hoff hrun
    rcases nlaOk_inside hoff hstop with ⟨hnone, hno⟩ | ⟨len, hok, hattr⟩
    · rw [eachAttr_done hnone] at hrun
      cases hrun
      refine ⟨Bool.noConfusion, ?_⟩
      rintro ⟨a, hvisit, -⟩
      cases hvisit with
      | here off len h => exact absurd h (hno _)
      | later start first off h hleave hrest => exact absurd h (hno _)
    · rw [eachAttr_some hok] at hrun
      cases ht : body off len false with
      | error e =>
        rw [ht] at hrun
        cases hrun
      | ok t =>
        rw [ht] at hrun
        have hsame := hkeep off len false t ht
        by_cases hleave : t.2 = true
        · simp only [bind, Except.bind, if_pos hleave] at hrun
          cases hrun
          have hreason := (hbody.leaves off len false t hattr ht).mp hleave
          refine ⟨fun _ => ⟨off, .here off len hattr, hreason⟩, fun _ => hsame.trans hleave⟩
        · simp only [bind, Except.bind, if_neg hleave] at hrun
          have hno : ¬ leaves off := fun h => hleave ((hbody.leaves off len false t hattr ht).mpr h)
          have hfalse : t.1 = false := by
            rw [hsame]
            exact Bool.eq_false_iff.mpr hleave
          rw [hfalse] at hrun
          rw [ih (off + nlaAlign len) (alen - nlaAlign len) r (by omega) hrun]
          constructor
          · rintro ⟨a, hvisit, hreason⟩
            exact ⟨a, .later off len a hattr hno hvisit, hreason⟩
          · rintro ⟨a, hvisit, hreason⟩
            cases hvisit with
            | here off len' h => exact absurd hreason hno
            | later start first a h hleave' hvisit' =>
              cases hattr.unique h
              exact ⟨a, hvisit', hreason⟩

end Attributes

section Strings

theorem strcmpEq_returns (name : CStr) (bytes : Bytes) :
    (∃ r, strcmpEq name bytes = .ok r) ↔ ¬ bytes <+: name := by
  induction bytes generalizing name with
  | nil =>
    refine ⟨fun ⟨r, h⟩ => ?_, fun h => absurd (List.nil_prefix) h⟩
    cases name <;> cases h
  | cons b bs ih =>
    cases name with
    | nil =>
      refine ⟨fun _ h => ?_, fun _ => ⟨_, rfl⟩⟩
      simp at h
    | cons c cs =>
      rw [strcmpEq, List.cons_prefix_cons]
      by_cases hbc : b = c
      · rw [if_pos hbc, ih]
        simp [hbc]
      · rw [if_neg hbc]
        simp [hbc, pure, Except.pure]

theorem strcmpEq_true (name : CStr) (bytes : Bytes) :
    strcmpEq name bytes = .ok true ↔ name ++ [0] <+: bytes := by
  induction bytes generalizing name with
  | nil =>
    refine ⟨fun h => ?_, fun h => ?_⟩
    · cases name <;> cases h
    · simp at h
  | cons b bs ih =>
    cases name with
    | nil =>
      rw [strcmpEq, List.nil_append, List.cons_prefix_cons]
      simp [pure, Except.pure, eq_comm]
    | cons c cs =>
      rw [strcmpEq, List.cons_append, List.cons_prefix_cons]
      by_cases hbc : b = c
      · rw [if_pos hbc, ih]
        simp [hbc]
      · rw [if_neg hbc]
        simp [pure, Except.pure, Ne.symm hbc]

theorem strncmpEqAt_self (pre : CStr) (bytes : Bytes) : strncmpEqAt pre (pre ++ bytes) = .ok true := by
  induction pre with
  | nil => rfl
  | cons c cs ih => rw [List.cons_append, strncmpEqAt, if_pos rfl, ih]

/-- The bytes end before they differ from the string. -/
theorem strncmpEqAt_short {pre : CStr} {bytes : Bytes} (h : bytes <+: pre) (hne : bytes ≠ pre) :
    strncmpEqAt pre bytes = .error .outside := by
  induction bytes generalizing pre with
  | nil =>
    cases pre with
    | nil => exact absurd rfl hne
    | cons c cs => rfl
  | cons b bs ih =>
    cases pre with
    | nil => simp at h
    | cons c cs =>
      rw [List.cons_prefix_cons] at h
      rw [strncmpEqAt, if_pos h.1]
      exact ih h.2 fun heq => hne (by rw [h.1, heq])

theorem strncmpEqAt_differs {pre : CStr} {bytes : Bytes} (h : ¬ bytes <+: pre)
    (hne : ¬ pre <+: bytes) : strncmpEqAt pre bytes = .ok false := by
  induction bytes generalizing pre with
  | nil => exact absurd List.nil_prefix h
  | cons b bs ih =>
    cases pre with
    | nil => exact absurd List.nil_prefix hne
    | cons c cs =>
      rw [strncmpEqAt]
      by_cases hbc : b = c
      · subst hbc
        rw [if_pos rfl]
        refine ih (fun h' => h ?_) fun h' => hne ?_
        · exact List.cons_prefix_cons.mpr ⟨rfl, h'⟩
        · exact List.cons_prefix_cons.mpr ⟨rfl, h'⟩
      · rw [if_neg hbc]
        rfl

/-- White space, a sign and digits, each of which may be missing. -/
def NumberText (text : Bytes) : Prop :=
  ∃ spaces sign digits : Bytes, text = spaces ++ (sign ++ digits) ∧
    (∀ c ∈ spaces, isSpace c = true) ∧ (sign = [] ∨ sign = [45] ∨ sign = [43]) ∧
    ∀ c ∈ digits, isDigit c = true

theorem not_isSpace_of_isDigit {c : UInt8} (h : isDigit c = true) : isSpace c = false := by
  simp only [isDigit, isSpace, Bool.and_eq_true, decide_eq_true_eq, UInt8.le_iff_toNat_le,
    UInt8.reduceToNat, Bool.or_eq_false_iff, decide_eq_false_iff_not, Bool.and_eq_false_iff] at h ⊢
  refine ⟨?_, Or.inr (by omega)⟩
  rintro rfl
  simp at h

theorem not_sign_of_isDigit {c : UInt8} (h : isDigit c = true) : c ≠ 45 ∧ c ≠ 43 := by
  constructor
  · rintro rfl
    cases h
  · rintro rfl
    cases h

theorem numberEnd_nil (text : Bytes) : numberEnd text = [] ↔ NumberText text := by
  unfold numberEnd NumberText
  constructor
  · intro h
    rw [List.dropWhile_eq_nil_iff] at h
    have hspaces : ∀ c ∈ text.takeWhile isSpace, isSpace c = true := fun _ => List.mem_takeWhile_imp
    by_cases hsign : (text.dropWhile isSpace).head? = some 45 ∨
        (text.dropWhile isSpace).head? = some 43
    · rw [if_pos hsign] at h
      cases ht : text.dropWhile isSpace with
      | nil => simp [ht] at hsign
      | cons c t =>
        rw [ht] at h hsign
        refine ⟨text.takeWhile isSpace, [c], t, ?_, hspaces, ?_, h⟩
        · rw [List.singleton_append, ← ht, List.takeWhile_append_dropWhile]
        · exact Or.inr (by simpa using hsign)
    · rw [if_neg hsign] at h
      refine ⟨text.takeWhile isSpace, [], text.dropWhile isSpace, ?_, hspaces, Or.inl rfl, h⟩
      rw [List.nil_append, List.takeWhile_append_dropWhile]
  · rintro ⟨spaces, sign, digits, rfl, hspaces, hsign, hdigits⟩
    rw [List.dropWhile_append_of_pos hspaces]
    have hdone : digits.dropWhile isDigit = [] := List.dropWhile_eq_nil_iff.mpr hdigits
    rcases hsign with rfl | rfl | rfl
    · cases digits with
      | nil => rfl
      | cons c t =>
        have hc := hdigits c List.mem_cons_self
        have hspace := not_isSpace_of_isDigit hc
        obtain ⟨hminus, hplus⟩ := not_sign_of_isDigit hc
        rw [List.nil_append, List.dropWhile_cons_of_neg (by simp [hspace])]
        have hsign : ¬ ((c :: t).head? = some 45 ∨ (c :: t).head? = some 43) := by
          simp [hminus, hplus]
        dsimp only
        rw [if_neg hsign]
        exact hdone
    · exact hdone
    · exact hdone

theorem strtolAt_returns (text : Bytes) : (∃ r, strtolAt text = .ok r) ↔ ¬ NumberText text := by
  rw [← numberEnd_nil, strtolAt]
  by_cases h : numberEnd text = []
  · simp [h]
  · rw [if_neg h]
    exact ⟨fun _ => h, fun _ => ⟨_, rfl⟩⟩

/-- The buffer ends inside the prefix, or behind it inside a number. -/
def EndsInId (pre : CStr) (bytes : Bytes) : Prop :=
  (bytes <+: pre ∧ bytes ≠ pre) ∨ ∃ text, bytes = pre ++ text ∧ NumberText text

theorem parseVethId_returns (pre : CStr) (bytes : Bytes) :
    (∃ r, parseVethId bytes pre = .ok r) ↔ ¬ EndsInId pre bytes := by
  unfold parseVethId EndsInId
  by_cases hpre : pre <+: bytes
  · obtain ⟨text, rfl⟩ := hpre
    have hdrop : (pre ++ text).drop pre.length = text := List.drop_left
    have hshort : ¬ ((pre ++ text) <+: pre ∧ pre ++ text ≠ pre) := by
      rintro ⟨h, hne⟩
      exact hne (List.IsPrefix.eq_of_length_le h (by simp))
    have hend : (∃ text', pre ++ text = pre ++ text' ∧ NumberText text') ↔ NumberText text := by
      constructor
      · rintro ⟨text', heq, h⟩
        rwa [List.append_cancel_left heq]
      · exact fun h => ⟨text, rfl, h⟩
    rw [strncmpEqAt_self, hdrop, hend, or_iff_right hshort, ← strtolAt_returns]
    show (∃ r, (strtolAt text >>= fun r =>
      if r.2 = text ∨ r.2.head? ≠ some 0 then pure (-1) else pure (intOfLong r.1)) = Except.ok r) ↔ _
    constructor
    · rintro ⟨r, hr⟩
      cases h : strtolAt text with
      | error e =>
        rw [h] at hr
        cases hr
      | ok v => exact ⟨v, rfl⟩
    · rintro ⟨v, hv⟩
      rw [hv]
      by_cases hbad : v.2 = text ∨ v.2.head? ≠ some 0
      · refine ⟨-1, ?_⟩
        simp only [bind, Except.bind, if_pos hbad]
        rfl
      · refine ⟨intOfLong v.1, ?_⟩
        simp only [bind, Except.bind, if_neg hbad]
        rfl
  · by_cases hshort : bytes <+: pre
    · have hne : bytes ≠ pre := by
        rintro rfl
        exact hpre (List.prefix_refl _)
      rw [strncmpEqAt_short hshort hne]
      simp [hshort, hne, bind, Except.bind]
    · rw [strncmpEqAt_differs hshort hpre]
      refine ⟨fun _ => ?_, fun _ => ⟨-1, rfl⟩⟩
      rintro (⟨h, -⟩ | ⟨text, rfl, -⟩)
      · exact hshort h
      · exact hpre (List.prefix_append pre text)

end Strings

section Readers

/-- The attributes of the interface in the message at `off`. -/
def LinkAttr (data : Bytes) (leaves : Nat → Prop) (off len a : Nat) : Prop :=
  VisitsAttr data leaves (off + 32 + linkPayload len) (off + 32) a

def NamedAt (data : Bytes) (a : Nat) : Prop := rd16 data (a + 2) = .ok iflaIfname

/-- The attribute is the name that is looked for. -/
def HasName (data : Bytes) (name : CStr) (a : Nat) : Prop :=
  NamedAt data a ∧ name ++ [0] <+: data.drop (a + 4)

/-- A message of a type that `nl_has_done` stops at. -/
def EndsDump (data : Bytes) (off _ : Nat) : Prop :=
  rd16 data (off + 4) = .ok nlmsgDone ∨ rd16 data (off + 4) = .ok nlmsgError

def IsLink (data : Bytes) (off : Nat) : Prop := rd16 data (off + 4) = .ok rtmNewlink

/-- The message of the link that is looked for. -/
def IsNamed (data : Bytes) (name : CStr) (off len : Nat) : Prop :=
  IsLink data off ∧ ∃ a, LinkAttr data (HasName data name) off len a ∧ HasName data name a

/-- The buffer does not end within a name, as far as it is compared. -/
def NamesEnd (data : Bytes) (name : CStr) (off len : Nat) : Prop :=
  IsLink data off → ∀ a, LinkAttr data (HasName data name) off len a → NamedAt data a →
    ¬ data.drop (a + 4) <+: name

/-- The buffer ends neither within a prefix of a name nor within a number behind
it. -/
def IdsEnd (data : Bytes) (pre : CStr) (off len : Nat) : Prop :=
  IsLink data off → ∀ a, LinkAttr data (fun _ => False) off len a → NamedAt data a →
    ¬ EndsInId pre (data.drop (a + 4))

theorem linkPayload_le {len : Nat} (h : len < 2 ^ 32) : linkPayload len ≤ (len : Int) - 32 := by
  unfold linkPayload intOfLong
  omega

/-- The attributes of an interface end inside the message. -/
theorem MsgAt.attrs_inside {off len : Nat} (h : MsgAt data off len) :
    (off : Int) + 32 + linkPayload len ≤ data.length := by
  have hle := linkPayload_le (rd32_lt h.field)
  have hupper := h.upper
  omega

theorem doneBody_spec : BodySpec data (doneBody data) (EndsDump data) fun _ _ => True where
  returns off len s hmsg := by
    obtain ⟨type, htype⟩ := rd16_of_le data (off + 4) (by have := hmsg.header; omega)
    refine ⟨fun _ => trivial, fun _ => ?_⟩
    unfold doneBody
    rw [htype]
    exact ⟨_, rfl⟩
  leaves off len s r hmsg hrun := by
    obtain ⟨type, htype⟩ := rd16_of_le data (off + 4) (by have := hmsg.header; omega)
    unfold doneBody at hrun
    unfold EndsDump
    rw [htype] at hrun ⊢
    by_cases hend : type = nlmsgDone ∨ type = nlmsgError
    · simp only [bind, Except.bind, if_pos hend] at hrun
      cases hrun
      simpa using hend
    · simp only [bind, Except.bind, if_neg hend] at hrun
      cases hrun
      simpa using hend

theorem hasNameBody_spec {stop : Int} (name : CStr) (hstop : stop ≤ data.length) :
    AttrSpec data stop (hasNameBody data name) (HasName data name) fun a =>
      NamedAt data a → ¬ data.drop (a + 4) <+: name where
  returns off len s hattr := by
    obtain ⟨type, htype⟩ := rd16_of_le data (off + 2) (by have := hattr.header; omega)
    unfold hasNameBody NamedAt
    rw [htype]
    by_cases hname : type = iflaIfname
    · simp only [bind, Except.bind, hname, forall_const]
      rw [← strcmpEq_returns]
      cases h : strcmpEq name (data.drop (off + 4)) with
      | error e => simp
      | ok v => simp [pure, Except.pure]
    · simp [bind, Except.bind, hname, pure, Except.pure]
  leaves off len s r hattr hrun := by
    obtain ⟨type, htype⟩ := rd16_of_le data (off + 2) (by have := hattr.header; omega)
    unfold hasNameBody at hrun
    unfold HasName NamedAt
    rw [htype] at hrun ⊢
    by_cases hname : type = iflaIfname
    · simp only [bind, Except.bind, if_pos hname] at hrun
      rw [← strcmpEq_true]
      cases h : strcmpEq name (data.drop (off + 4)) with
      | error e =>
        rw [h] at hrun
        cases hrun
      | ok v =>
        rw [h] at hrun
        cases hrun
        simp [hname]
    · simp only [bind, Except.bind, if_neg hname] at hrun
      cases hrun
      simp [hname]

theorem hasNameBody_keeps (name : CStr) (off len : Nat) (s : Bool) (r : Bool × Bool)
    (hrun : hasNameBody data name off len s = .ok r) : r.1 = r.2 := by
  unfold hasNameBody at hrun
  cases htype : rd16 data (off + 2) with
  | error e =>
    rw [htype] at hrun
    cases hrun
  | ok type =>
    rw [htype] at hrun
    by_cases hname : type = iflaIfname
    · simp only [bind, Except.bind, if_pos hname] at hrun
      cases h : strcmpEq name (data.drop (off + 4)) with
      | error e =>
        rw [h] at hrun
        cases hrun
      | ok v =>
        rw [h] at hrun
        cases hrun
        rfl
    · simp only [bind, Except.bind, if_neg hname] at hrun
      cases hrun
      rfl

theorem linkHasName_returns (name : CStr) {off len : Nat} (hmsg : MsgAt data off len) :
    (∃ r, linkHasName data (off + 32) (linkPayload len) name = .ok r) ↔
      ∀ a, LinkAttr data (HasName data name) off len a → NamedAt data a →
        ¬ data.drop (a + 4) <+: name := by
  unfold linkHasName LinkAttr
  exact eachAttr_returns (hasNameBody_spec name hmsg.attrs_inside) hmsg.attrs_inside _ (off + 32)
    (linkPayload len) _ (by omega) (Nat.lt_succ_self _)

theorem linkHasName_true (name : CStr) {off len : Nat} (hmsg : MsgAt data off len) {r : Bool}
    (hrun : linkHasName data (off + 32) (linkPayload len) name = .ok r) :
    r = true ↔ ∃ a, LinkAttr data (HasName data name) off len a ∧ HasName data name a := by
  unfold linkHasName at hrun
  exact eachAttr_left (hasNameBody_spec name hmsg.attrs_inside) hmsg.attrs_inside
    (hasNameBody_keeps name) _ (off + 32) (linkPayload len) r (by omega) hrun

theorem findBody_spec (name : CStr) :
    BodySpec data (findBody data name) (IsNamed data name) (NamesEnd data name) where
  returns off len s hmsg := by
    have hheader := hmsg.header
    obtain ⟨type, htype⟩ := rd16_of_le data (off + 4) (by omega)
    unfold findBody NamesEnd IsLink
    rw [htype]
    by_cases hlink : type = rtmNewlink
    · simp only [bind, Except.bind, hlink, ne_eq, not_true_eq_false, if_false, forall_const]
      rw [← linkHasName_returns name hmsg]
      cases h : linkHasName data (off + 32) (linkPayload len) name with
      | error e => simp
      | ok found =>
        cases found with
        | false => simp [pure, Except.pure]
        | true =>
          obtain ⟨a, hattr, -⟩ := (linkHasName_true name hmsg h).mp rfl
          have hroom := hattr.room
          have hinside := hmsg.attrs_inside
          obtain ⟨index, hindex⟩ := rd32_of_le data (off + 20) (by omega)
          simp [hindex, pure, Except.pure]
    · simp [bind, Except.bind, hlink, pure, Except.pure]
  leaves off len s r hmsg hrun := by
    have hheader := hmsg.header
    obtain ⟨type, htype⟩ := rd16_of_le data (off + 4) (by omega)
    unfold findBody at hrun
    unfold IsNamed IsLink
    rw [htype] at hrun ⊢
    by_cases hlink : type = rtmNewlink
    · simp only [bind, Except.bind, hlink, ne_eq, not_true_eq_false, if_false] at hrun
      cases h : linkHasName data (off + 32) (linkPayload len) name with
      | error e =>
        rw [h] at hrun
        cases hrun
      | ok found =>
        rw [← linkHasName_true name hmsg h]
        rw [h] at hrun
        cases found with
        | false =>
          cases hrun
          simp
        | true =>
          cases hindex : rd32 data (off + 20) with
          | error e => simp [hindex] at hrun
          | ok index =>
            simp only [hindex, if_true] at hrun
            cases hrun
            simp [hlink]
    · simp only [bind, Except.bind, ne_eq, hlink, not_false_eq_true, if_true] at hrun
      cases hrun
      simp [hlink]

theorem scanBody_spec {stop : Int} (pre : CStr) (hstop : stop ≤ data.length) :
    AttrSpec data stop (scanBody data pre) (fun _ => False) fun a =>
      NamedAt data a → ¬ EndsInId pre (data.drop (a + 4)) where
  returns off len s hattr := by
    have hheader := hattr.header
    obtain ⟨type, htype⟩ := rd16_of_le data (off + 2) (by omega)
    unfold scanBody NamedAt
    rw [htype]
    by_cases hname : type = iflaIfname
    · simp only [bind, Except.bind, hname, forall_const, if_true]
      rw [← parseVethId_returns]
      cases h : parseVethId (data.drop (off + 4)) pre with
      | error e => simp
      | ok v =>
        by_cases hrange : v ≥ 0 ∧ v ≤ cageVethMaxId
        · simp [hrange, pure, Except.pure]
        · simp [hrange, pure, Except.pure]
    · simp [bind, Except.bind, hname, pure, Except.pure]
  leaves off len s r hattr hrun := by
    have hheader := hattr.header
    obtain ⟨type, htype⟩ := rd16_of_le data (off + 2) (by omega)
    unfold scanBody at hrun
    rw [htype] at hrun
    by_cases hname : type = iflaIfname
    · simp only [bind, Except.bind, hname, if_true] at hrun
      cases h : parseVethId (data.drop (off + 4)) pre with
      | error e =>
        rw [h] at hrun
        cases hrun
      | ok v =>
        rw [h] at hrun
        dsimp only at hrun
        split at hrun
        · cases hrun
          simp
        · cases hrun
          simp
    · simp only [bind, Except.bind, if_neg hname] at hrun
      cases hrun
      simp

theorem usedBody_spec (pre : CStr) :
    BodySpec data (usedBody data pre) (fun _ _ => False) (IdsEnd data pre) where
  returns off len s hmsg := by
    have hheader := hmsg.header
    obtain ⟨type, htype⟩ := rd16_of_le data (off + 4) (by omega)
    have hscan := eachAttr_returns (scanBody_spec pre hmsg.attrs_inside) hmsg.attrs_inside _
      (off + 32) (linkPayload len) s (by omega) (Nat.lt_succ_self _)
    unfold usedBody IdsEnd IsLink LinkAttr
    rw [htype]
    by_cases hlink : type = rtmNewlink
    · simp only [bind, Except.bind, hlink, ne_eq, not_true_eq_false, if_false, forall_const]
      rw [← hscan]
      unfold usedVethScanAttrs
      cases eachAttr data (scanBody data pre) ((linkPayload len).toNat + 1) (off + 32)
          (linkPayload len) s with
      | error e => simp
      | ok v => simp [pure, Except.pure]
    · simp [bind, Except.bind, hlink, pure, Except.pure]
  leaves off len s r hmsg hrun := by
    have hheader := hmsg.header
    obtain ⟨type, htype⟩ := rd16_of_le data (off + 4) (by omega)
    unfold usedBody at hrun
    rw [htype] at hrun
    by_cases hlink : type = rtmNewlink
    · simp only [bind, Except.bind, hlink, ne_eq, not_true_eq_false, if_false] at hrun
      cases h : usedVethScanAttrs data (off + 32) (linkPayload len) pre s with
      | error e =>
        rw [h] at hrun
        cases hrun
      | ok v =>
        rw [h] at hrun
        cases hrun
        simp
    · simp only [bind, Except.bind, ne_eq, hlink, not_false_eq_true, if_true] at hrun
      cases hrun
      simp

theorem Returns.map {T : Type} {f : Nat → Rd S} (g : S → T) :
    (Returns fun rounds => f rounds >>= fun s => pure (g s)) ↔ Returns f := by
  constructor
  · rintro ⟨rounds, r, h⟩
    dsimp only at h
    cases hf : f rounds with
    | error e =>
      rw [hf] at h
      cases h
    | ok s => exact ⟨rounds, s, hf⟩
  · rintro ⟨rounds, s, h⟩
    refine ⟨rounds, g s, ?_⟩
    dsimp only
    rw [h]
    rfl

/-- `nl_has_done` ends and reads inside the buffer just when every message it
passes over ends inside it, rounded up. -/
theorem nlHasDone_returns (hsize : data.length < 2 ^ 64) :
    (Returns fun rounds => nlHasDone rounds data) ↔
      Harmless data (EndsDump data) (fun _ _ => True) 0 :=
  eachMsg_returns doneBody_spec hsize _ 0 false (Nat.zero_add _)

theorem netlinkFindIfname_returns (name : CStr) (hsize : data.length < 2 ^ 64) :
    (Returns fun rounds => netlinkFindIfname rounds data name) ↔
      Harmless data (IsNamed data name) (NamesEnd data name) 0 :=
  eachMsg_returns (findBody_spec name) hsize _ 0 none (Nat.zero_add _)

theorem netlinkLowestFreeVethId_returns (pre : CStr) (hsize : data.length < 2 ^ 64) :
    (Returns fun rounds => netlinkLowestFreeVethId rounds data pre) ↔
      Harmless data (fun _ _ => False) (IdsEnd data pre) 0 := by
  unfold netlinkLowestFreeVethId
  rw [Returns.map]
  exact eachMsg_returns (usedBody_spec pre) hsize _ 0 _ (Nat.zero_add _)

/-- The three readers end, and read nothing behind the buffer. -/
structure ReadsInside (data : Bytes) (name pre : CStr) : Prop where
  done : Returns fun rounds => nlHasDone rounds data
  find : Returns fun rounds => netlinkFindIfname rounds data name
  lowest : Returns fun rounds => netlinkLowestFreeVethId rounds data pre

/-- Every message passed over ends, rounded up, inside the buffer, and the buffer
does not end within the names that are compared. -/
structure HarmlessReply (data : Bytes) (name pre : CStr) : Prop where
  done : Harmless data (EndsDump data) (fun _ _ => True) 0
  find : Harmless data (IsNamed data name) (NamesEnd data name) 0
  lowest : Harmless data (fun _ _ => False) (IdsEnd data pre) 0

theorem readsInside_iff (data : Bytes) (name pre : CStr) (hsize : data.length < 2 ^ 64) :
    ReadsInside data name pre ↔ HarmlessReply data name pre := by
  constructor
  · rintro ⟨hdone, hfind, hlowest⟩
    exact ⟨(nlHasDone_returns hsize).mp hdone, (netlinkFindIfname_returns name hsize).mp hfind,
      (netlinkLowestFreeVethId_returns pre hsize).mp hlowest⟩
  · rintro ⟨hdone, hfind, hlowest⟩
    exact ⟨(nlHasDone_returns hsize).mpr hdone, (netlinkFindIfname_returns name hsize).mpr hfind,
      (netlinkLowestFreeVethId_returns pre hsize).mpr hlowest⟩

/-- A link with the name `e0` and its index 7. -/
def oneLink : Bytes :=
  [40, 0, 0, 0, 16, 0, 0, 0, 0, 0, 0, 0, 0, 0, 0, 0] ++
    [0, 0, 0, 0, 7, 0, 0, 0, 0, 0, 0, 0, 0, 0, 0, 0] ++ [7, 0, 3, 0, 101, 48, 0, 0]

theorem readsInside_iff_oneLink :
    netlinkFindIfname 2 oneLink (lit "e0") = .ok (some 7) ∧
      HarmlessReply oneLink (lit "e0") (lit "cv") :=
  ⟨rfl, (readsInside_iff oneLink (lit "e0") (lit "cv") (by decide)).mp
    ⟨⟨2, false, rfl⟩, ⟨2, some 7, rfl⟩, ⟨2, some 0, rfl⟩⟩⟩

/-- A message of 17 bytes, behind which the next one would stand at 20. -/
def oddReply : Bytes := [17, 0, 0, 0, 16, 0, 0, 0, 0, 0, 0, 0, 0, 0, 0, 0, 0]

theorem oddReply_msg : MsgAt oddReply 0 17 := ⟨by decide, rfl, by decide, by decide⟩

theorem readsInside_fails :
    ¬ ∀ (data : Bytes) (name pre : CStr), data.length < 2 ^ 64 → ReadsInside data name pre := by
  intro hall
  have hreturns := (hall oddReply [] [] (by decide)).done
  have htype : rd16 oddReply 4 = .ok rtmNewlink := rfl
  have hstop : ¬ EndsDump oddReply 0 17 := by
    unfold EndsDump
    rw [htype]
    decide
  have hpass : ¬ Passable oddReply 0 17 := by
    unfold Passable
    decide
  exact eachMsg_impassable doneBody_spec (by decide) rfl oddReply_msg rfl hstop hpass false
    hreturns

end Readers

end Cage.Net
