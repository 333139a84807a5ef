import Cage.Compress.BitRead
import Cage.Lib.Calls

/-!
A bit reader is a list of bits: whatever is read, the answers are those of a list
from which bits are taken.
-/

namespace Cage.Compress

open Lib.Bits Lib.Calls Lib.Checked

inductive BitCall where
  | bits (n : Nat)
  | align
  deriving DecidableEq, Repr

/-- The widths for which `br_bits` is made. -/
def BitCall.Fits : BitCall → Prop
  | .bits n => 1 ≤ n ∧ n ≤ 16
  | .align => True

def BitCall.exec : BitCall → Exec Br Int
  | .bits n => brBits n
  | .align => do
      brAlign
      pure 0

def brRun : List BitCall → Exec Br (List Int)
  | [] => pure []
  | k :: ks => do
      let r ← k.exec
      let rs ← brRun ks
      pure (r :: rs)

/-- The call on a list of bits, of which whole bytes were there at first. -/
def listCall (w : List Bool) : BitCall → Int × List Bool
  | .bits n => if w.length < n then (-1, w) else (value (w.take n), w.drop n)
  | .align => (0, w.drop (w.length % 8))

theorem listCall_short {w : List Bool} {n : Nat} (h : w.length < n) :
    listCall w (.bits n) = (-1, w) := if_pos h

theorem listCall_long {w : List Bool} {n : Nat} (h : n ≤ w.length) :
    listCall w (.bits n) = (↑(value (w.take n)), w.drop n) := if_neg (Nat.not_lt_of_le h)

/-- What `br_need` leaves in the buffer. -/
def NeedBits (br : Br) (n : Nat) (r : Int) (br' : Br) : Prop :=
  (r = 0 ∧ (br'.bits = br.bits ∨ br'.bits < n + 8)) ∨ (r = -1 ∧ br'.bits < n)

theorem brNeedLoop_bits (fuel n : Nat) (br : Br) (h : br.Ok) (hn : n ≤ 16)
    (hfuel : n < fuel + br.bits) (hpos : 0 < fuel) :
    Ends (brNeedLoop fuel n) br (NeedBits br n) := by
  induction fuel generalizing br with
  | zero => omega
  | succ fuel ih =>
    refine Ends.get_bind ?_
    by_cases hbits : br.bits < n
    · rw [if_pos hbits]
      by_cases hend : br.pos ≥ br.len
      · rw [if_pos hend]
        exact Ends.pure (.inr ⟨rfl, hbits⟩)
      · rw [if_neg hend]
        have hlen := h.len_le
        have hdata : br.pos < br.data.length := by omega
        refine Ends.load_bind (List.getElem?_eq_getElem hdata) (Ends.set_bind ?_)
        have hloaded : (br.loaded br.data[br.pos]).bits = br.bits + 8 := rfl
        refine (ih (br.loaded br.data[br.pos]) (br.loaded_ok _ h (by omega) (by omega))
          (by omega) (by omega)).mono ?_
        rintro r br' (⟨hr, hsame | hless⟩ | hfail)
        · exact .inl ⟨hr, .inr (by omega)⟩
        · exact .inl ⟨hr, .inr hless⟩
        · exact .inr hfail
    · rw [if_neg hbits]
      exact Ends.pure (.inl ⟨rfl, .inl rfl⟩)

/-- After a read, less than a byte more is buffered than was before it. -/
theorem brBits_bits (n : Nat) (br : Br) (h : br.Ok) (hn : n ≤ 16) :
    Ends (brBits n) br fun r br' =>
      (r ≠ -1 → br'.bits ≤ max (br.bits - n) 7) ∧ (r = -1 → br'.bits < n) := by
  have hneed := (brNeed_spec n br h hn).and
    (brNeedLoop_bits (n + 1) n br h hn (by omega) (by omega))
  refine Ends.bind (p := fun (r : Int) br' => (0 ≤ r ∧ n ≤ br'.bits ∧
    (br'.bits = br.bits ∨ br'.bits < n + 8)) ∨ (r = -1 ∧ br'.bits < n)) ?_ ?_
  · refine Ends.bind hneed ?_
    rintro r br' ⟨⟨-, -, -, hpost⟩, hbits⟩
    rcases hbits with ⟨rfl, hbits⟩ | ⟨rfl, hbits⟩
    · have hn' : n ≤ br'.bits := by
        rcases hpost with ⟨-, hn'⟩ | ⟨hr, -⟩
        · exact hn'
        · cases hr
      exact Ends.get_bind (Ends.pure (.inl ⟨Int.natCast_nonneg _, hn', hbits⟩))
    · exact Ends.pure (.inr ⟨rfl, hbits⟩)
  · rintro r br' (⟨hr, hn', hbits⟩ | ⟨rfl, hbits⟩)
    · rw [if_neg (by omega)]
      refine Ends.bind (p := fun _ s => s.bits = br'.bits - n) ⟨(), _, rfl, rfl⟩ fun _ s hs => ?_
      refine Ends.pure ⟨fun _ => ?_, fun hneg => by omega⟩
      omega
    · exact Ends.pure ⟨fun hne => absurd rfl hne, fun _ => hbits⟩

theorem brAlign_bits (br : Br) : Ends brAlign br fun _ br' => br'.bits ≤ br.bits := by
  refine Ends.get_bind ?_
  by_cases hpos : (br.bits &&& 7) > 0
  · simp only [if_pos hpos]
    exact ⟨(), _, rfl, Nat.sub_le ..⟩
  · simp only [if_neg hpos]
    exact Ends.pure (Nat.le_refl _)

/-- The reader holds the bits `w`, fewer than `k` of them in its buffer. -/
structure Br.Holds (br : Br) (w : List Bool) (k : Nat) : Prop where
  ok : br.Ok
  rest : br.rest = w
  bits : br.bits < k

/-- One call, against the list. A read that fails may leave a second byte in the
buffer. -/
theorem BitCall.exec_holds {k : BitCall} (hk : k.Fits) {br : Br} {w : List Bool} {b : Nat}
    (hb : 8 ≤ b) (hb' : b ≤ 16) (h : br.Holds w b) :
    Ends k.exec br fun r br' => r = (listCall w k).1 ∧
      br'.Holds (listCall w k).2 (if r = -1 then 16 else b) := by
  obtain ⟨hok, rfl, hbits⟩ := h
  cases k with
  | bits n =>
    refine ((brBits_spec n br hok hk.2).and (brBits_bits n br hok hk.2)).mono ?_
    rintro r br' ⟨⟨hok', -, ⟨u, hu, hrest, rfl⟩ | ⟨hshort, rfl, hrest⟩⟩, hgood, hbad⟩
    · have hlong : n ≤ br.rest.length := by
        rw [hrest, List.length_append]
        omega
      have hne : (value u : Int) ≠ -1 := by omega
      rw [listCall_long hlong, if_neg hne, hrest, ← hu, List.take_left, List.drop_left]
      have hn := hk.1
      have hless := hgood hne
      exact ⟨rfl, hok', rfl, by omega⟩
    · rw [listCall_short hshort, if_pos rfl]
      have hn := hk.2
      have hless := hbad rfl
      exact ⟨rfl, hok', hrest, by omega⟩
  | align =>
    refine Ends.bind ((brAlign_spec br hok).and (brAlign_bits br)) ?_
    rintro _ br' ⟨⟨hok', -, hrest⟩, hless⟩
    exact Ends.pure ⟨rfl, hok', hrest, lt_of_le_of_lt hless hbits⟩

/-- A whole run, against the list. -/
theorem brRun_holds {ks : List BitCall} (hks : ∀ k ∈ ks, k.Fits) {br : Br} {w : List Bool}
    {b : Nat} (hb : 8 ≤ b) (hb' : b ≤ 16) (h : br.Holds w b) :
    Ends (brRun ks) br fun rs br' => rs = answers listCall w ks ∧
      br'.Holds (after listCall w ks) (if -1 ∈ rs then 16 else b) := by
  induction ks generalizing br w b with
  | nil => exact Ends.pure ⟨rfl, h⟩
  | cons k ks ih =>
    have hk : k.Fits := hks k List.mem_cons_self
    refine Ends.bind (BitCall.exec_holds hk hb hb' h) ?_
    rintro r br' ⟨hr, hholds⟩
    have htail := ih (fun k hk => hks k (List.mem_cons_of_mem _ hk))
      (show 8 ≤ if r = -1 then 16 else b by split <;> omega)
      (show (if r = -1 then 16 else b) ≤ 16 by split <;> omega) hholds
    refine Ends.bind htail ?_
    rintro rs br'' ⟨hrs, hrest⟩
    refine Ends.pure ⟨?_, ?_⟩
    · rw [answers, ← hr, hrs]
    · rw [after]
      by_cases hfail : r = -1
      · rw [if_pos hfail, ite_self] at hrest
        rwa [if_pos (hfail ▸ List.mem_cons_self)]
      · rw [if_neg hfail] at hrest
        simpa only [List.mem_cons, Ne.symm hfail, false_or] using hrest

/-- From `br_init` on, reads and alignments answer as on the list of the bits of
the bytes. Fewer than 8 bits are buffered while no read has failed, and fewer than
16 in any case. -/
theorem brRun_list (data : List UInt8) (ks : List BitCall) (hks : ∀ k ∈ ks, k.Fits) :
    Ends (brRun ks) (brInit data data.length) fun rs br =>
      rs = answers listCall (byteBits data) ks ∧ br.rest = after listCall (byteBits data) ks ∧
        br.buf < 2 ^ br.bits ∧ br.bits < 16 ∧ (-1 ∉ rs → br.bits < 8) := by
  have hstart : (brInit data data.length).Holds (byteBits data) 8 :=
    ⟨brInit_ok data _ (Nat.le_refl _), by rw [brInit_rest, List.take_length], Nat.succ_pos 7⟩
  refine (brRun_holds hks (Nat.le_refl 8) (by decide) hstart).mono ?_
  rintro rs br ⟨hrs, hok, hrest, hbits⟩
  refine ⟨hrs, hrest, hok.buf_lt, ?_, fun hgood => ?_⟩
  · refine lt_of_lt_of_le hbits ?_
    split <;> omega
  · rwa [if_neg hgood] at hbits

theorem brRun_list_five :
    Ends (brRun [.bits 5, .align, .bits 8]) (brInit [0xff, 0x12] 2) fun rs br =>
      rs = [31, 0, 18] ∧ br.rest = [] := by
  have hfits : ∀ k ∈ [BitCall.bits 5, .align, .bits 8], k.Fits := by
    simp [BitCall.Fits]
  refine (brRun_list [0xff, 0x12] _ hfits).mono ?_
  rintro rs br ⟨hrs, hrest, -⟩
  exact ⟨hrs.trans (by decide), hrest.trans (by decide)⟩

/-- A read that fails leaves what it has loaded, so a whole byte may be buffered
after the next one. -/
theorem brRun_refills :
    ∃ br, brRun [.bits 7, .bits 16, .bits 1] (brInit [0, 0] 2) = .ok ([0, -1, 0], br) ∧
      br.bits = 8 :=
  ⟨⟨[0, 0], 2, 2, 0, 8⟩, by rfl, rfl⟩

end Cage.Compress
