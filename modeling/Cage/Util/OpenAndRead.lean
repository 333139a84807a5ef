import Cage.Util.IoReadExact

/-!
`open_and_read` stops at the first read that does not give a whole chunk, so it has
the file only when that read is the last one.
-/

namespace Cage.Util.FileRead

open Lib.Checked

/-- What is left of the file when whole chunks have been asked for `i` times. -/
def left (pick : Nat → Nat) (content : List UInt8) : Nat → List UInt8
  | 0 => content
  | i + 1 => (left pick content i).drop (readCount (pick i) chunk (left pick content i).length)

/-- How many bytes the next read of a chunk gives. -/
def given (pick : Nat → Nat) (content : List UInt8) (i : Nat) : Nat :=
  readCount (pick i) chunk (left pick content i).length

/-- Only the last read of a chunk gives less. -/
def FullReads (pick : Nat → Nat) (content : List UInt8) : Prop :=
  ∀ i, given pick content i < chunk → left pick content (i + 1) = []

variable {pick : Nat → Nat} {junk : Nat → UInt8} {content : List UInt8} {s : Reader}

theorem left_nil_of_le {i j : Nat} (hij : i ≤ j) (h : left pick content i = []) :
    left pick content j = [] := by
  induction hij with
  | refl => exact h
  | step _ ih => rw [left, ih, List.drop_nil]

/-- The read at which the loop ends. -/
structure Stops (pick : Nat → Nat) (content : List UInt8) (i : Nat) : Prop where
  short : given pick content i < chunk
  full : ∀ j < i, given pick content j = chunk

/-- All is well if nothing is left where the loop stops. -/
theorem Stops.fullReads_iff {i : Nat} (h : Stops pick content i) :
    FullReads pick content ↔ left pick content (i + 1) = [] := by
  refine ⟨fun hfull => hfull i h.short, fun hnil j hj => ?_⟩
  by_cases hij : i ≤ j
  · exact left_nil_of_le (Nat.succ_le_succ hij) hnil
  · have hwhole := h.full j (by omega)
    omega

theorem openAndReadLoop_spec (fuel : Nat) (hs : Holds content s) (hfuel : s.rest.length < fuel)
    (hrest : s.rest = left pick content s.calls.length)
    (hfull : ∀ j < s.calls.length, given pick content j = chunk) :
    Ends (openAndReadLoop (shortReads pick junk) fuel) s fun r s' =>
      r = 0 ∧ Holds content s' ∧
        ∃ i, Stops pick content i ∧ s'.rest = left pick content (i + 1) := by
  induction fuel generalizing s with
  | zero => cases hfuel
  | succ fuel ih =>
    refine round_spec hs.room ?_
    rintro _ s₂ (⟨hsched⟩ | ⟨want, hsched, hread⟩)
    · cases hsched
    obtain rfl : pick s.calls.length = want := Option.some.inj hsched
    obtain ⟨n, hn⟩ : ∃ n, n = readCount (pick s.calls.length) chunk s.rest.length := ⟨_, rfl⟩
    rw [← hn] at hread ⊢
    have hgiven : given pick content s.calls.length = n := by
      rw [hn, hrest]
      rfl
    have hcounted := hs.counted hread
    have hleft : (s₂.counted n).rest = left pick content (s.calls.length + 1) := by
      change s₂.rest = _
      rw [hread.rest, left, ← hrest]
      exact congrArg (s.rest.drop ·) (by rw [← hgiven, given, hrest])
    rw [if_neg (by omega)]
    refine Ends.bind (p := fun _ s' => s' = s₂.counted n) ⟨(), _, rfl, rfl⟩ ?_
    rintro _ _ rfl
    by_cases hwhole : n = chunk
    · rw [if_pos (congrArg _ hwhole)]
      have hcalls : (s₂.counted n).calls.length = s.calls.length + 1 := by
        change s₂.calls.length = _
        rw [hread.calls, List.length_append, List.length_singleton]
      have hle : n ≤ s.rest.length := hn ▸ readCount_le ..
      have hless := hread.less (hwhole ▸ by decide) hle hfuel
      refine ih hcounted hless (by rw [hcalls, hleft]) fun j hj => ?_
      rcases Nat.lt_succ_iff_lt_or_eq.mp (hcalls ▸ hj) with hj | hj
      · exact hfull j hj
      · rw [hj, hgiven, hwhole]
    · rw [if_neg fun heq => hwhole (Int.natCast_inj.mp heq)]
      have hle : n ≤ chunk := hn ▸ readCount_le_chunk ..
      exact Ends.pure ⟨rfl, hcounted, s.calls.length, ⟨by omega, hfull⟩, hleft⟩

/-- What a reader returns, and the bytes it leaves. -/
def outcome (m : Exec Reader Int) (content : List UInt8) : Option (Int × List UInt8) :=
  match m (Reader.start content) with
  | .ok (r, s) => some (r, s.buf.bytes)
  | .error _ => none

theorem outcome_of_ends {m : Exec Reader Int} {post : Int → Reader → Prop}
    (h : Ends m (Reader.start content) post) :
    ∃ r s, outcome m content = some (r, s.buf.bytes) ∧ post r s := by
  obtain ⟨r, s, hrun, hpost⟩ := h
  refine ⟨r, s, ?_, hpost⟩
  rw [outcome, hrun]

theorem outcome_ioRead (pick : Nat → Nat) (junk : Nat → UInt8) (content : List UInt8)
    (path : CStr) : outcome (ioRead (shortReads pick junk) path) content = some (0, content) := by
  obtain ⟨r, s, hrun, hexact⟩ := outcome_of_ends (readFile_spec pick junk content path false 0)
  obtain ⟨rfl, -, hbytes, -⟩ := hexact.1 (.inl rfl)
  rw [ioRead, hrun, hbytes]

/-- The reader of compressed modules gives what `io_read` gives exactly if only the
last of its reads gives less than a chunk. -/
theorem openAndRead_exact_iff (pick pick' : Nat → Nat) (junk junk' : Nat → UInt8)
    (content : List UInt8) (path : CStr) :
    outcome (openAndRead (shortReads pick junk)) content =
        outcome (ioRead (shortReads pick' junk') path) content ↔
      FullReads pick content := by
  have hloop : Ends (openAndRead (shortReads pick junk)) (Reader.start content) fun r s =>
      r = 0 ∧ Holds content s ∧
        ∃ i, Stops pick content i ∧ s.rest = left pick content (i + 1) :=
    Ends.get_bind (openAndReadLoop_spec (content.length + 1) (holds_start content)
      (Nat.lt_succ_self _) rfl fun j hj => nomatch hj)
  obtain ⟨r, s, hrun, rfl, hs, i, hstops, hrest⟩ := outcome_of_ends hloop
  rw [hrun, outcome_ioRead, hstops.fullReads_iff, ← hrest, Option.some_inj, Prod.mk.injEq]
  have hsplit := hs.split
  constructor
  · rintro ⟨-, hbytes⟩
    rw [hbytes] at hsplit
    exact List.append_right_eq_self.mp hsplit
  · intro hnil
    rw [hnil, List.append_nil] at hsplit
    exact ⟨rfl, hsplit⟩

/-- A file of two bytes that come one by one. -/
theorem openAndRead_short :
    outcome (openAndRead (shortReads (fun _ => 1) fun _ => 0)) [1, 2] = some (0, [1]) ∧
      outcome (ioRead (shortReads (fun _ => 1) fun _ => 0) (lit "f")) [1, 2] = some (0, [1, 2]) := by
  decide +kernel

theorem openAndReadLoop_holds (h : Host) (fuel : Nat) (hs : Holds content s)
    (hfuel : s.rest.length < fuel) :
    Ends (openAndReadLoop h fuel) s fun r s' => r = -1 ∨ (r = 0 ∧ Holds content s') := by
  induction fuel generalizing s with
  | zero => cases hfuel
  | succ fuel ih =>
    refine round_spec hs.room ?_
    rintro _ s₂ (_ | ⟨want, -, hread⟩)
    · exact Ends.pure (.inl rfl)
    · obtain ⟨n, hn⟩ : ∃ n, n = readCount want chunk s.rest.length := ⟨_, rfl⟩
      rw [← hn] at hread ⊢
      have hcounted := hs.counted hread
      rw [if_neg (by omega)]
      refine Ends.bind (p := fun _ s' => s' = s₂.counted n) ⟨(), _, rfl, rfl⟩ ?_
      rintro _ _ rfl
      by_cases hwhole : n = chunk
      · rw [if_pos (congrArg _ hwhole)]
        have hle : n ≤ s.rest.length := hn ▸ readCount_le ..
        exact ih hcounted (hread.less (hwhole ▸ by decide) hle hfuel)
      · rw [if_neg fun heq => hwhole (Int.natCast_inj.mp heq)]
        exact Ends.pure (.inr ⟨rfl, hcounted⟩)

/-- Whatever the reads give, what is in the buffer in the end is the front of the file. -/
theorem openAndRead_holds (h : Host) (content : List UInt8) :
    Ends (openAndRead h) (Reader.start content) fun r s => r = -1 ∨ (r = 0 ∧ Holds content s) := by
  rw [openAndRead]
  by_cases hopens : h.opens = false
  · rw [if_pos hopens]
    exact Ends.pure (.inl rfl)
  · rw [if_neg hopens]
    exact Ends.get_bind
      (openAndReadLoop_holds h _ (holds_start content) (Nat.lt_succ_self content.length))

end Cage.Util.FileRead
