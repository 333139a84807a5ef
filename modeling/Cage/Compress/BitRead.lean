import Cage.Lib.Bits
import Cage.Lib.Checked

/-!
The bit reader of `src/compress/bitread.c`. `Br.rest` is the list of bits a
reader has still to deliver; each operation is specified on that list.
-/

namespace Cage.Compress

open Lib.Bits Lib.Checked

/-- `struct br`. The reader may use `data` up to `len` only; `buf` is the
64-bit buffer, of which the low `bits` bits are waiting. -/
structure Br where
  data : List UInt8
  len : Nat
  pos : Nat
  buf : Nat
  bits : Nat
  deriving DecidableEq, Repr

def brInit (data : List UInt8) (len : Nat) : Br :=
  { data := data, len := len, pos := 0, buf := 0, bits := 0 }

/-- The loop of `br_need`, cut off after `fuel` rounds. -/
def brNeedLoop : Nat → Nat → Exec Br Int
  | 0, _ => fault .fuel
  | fuel + 1, n => do
      let br ← get
      if br.bits < n then
        if br.pos ≥ br.len then
          pure (-1)
        else do
          let byte ← load br.data br.pos
          set { br with
            buf := (br.buf ||| (byte.toNat <<< br.bits)) % 2 ^ 64
            pos := br.pos + 1
            bits := br.bits + 8 }
          brNeedLoop fuel n
      else
        pure 0

def brNeed (n : Nat) : Exec Br Int := brNeedLoop (n + 1) n

def brPeek (n : Nat) : Exec Br Int := do
  let r ← brNeed n
  if r ≠ 0 then
    pure (-1)
  else do
    let br ← get
    pure (br.buf &&& (1 <<< n - 1) : Nat)

def brDrop (n : Nat) : Exec Br Unit :=
  modify fun br => { br with buf := br.buf >>> n, bits := br.bits - n }

def brBits (n : Nat) : Exec Br Int := do
  let v ← brPeek n
  if v < 0 then
    pure (-1)
  else do
    brDrop n
    pure v

def brAlign : Exec Br Unit := do
  let br ← get
  let skip := br.bits &&& 7
  if skip > 0 then brDrop skip else pure ()

/-- The bits the reader has still to deliver: those buffered, then those of
the bytes not yet loaded. -/
def Br.rest (br : Br) : List Bool :=
  field br.bits br.buf ++ byteBits ((br.data.take br.len).drop br.pos)

/-- What every operation keeps: the cursor stays inside the data, and the
buffer holds at most 23 bits, so that a load never shifts a bit out. -/
structure Br.Ok (br : Br) : Prop where
  len_le : br.len ≤ br.data.length
  pos_le : br.pos ≤ br.len
  bits_le : br.bits ≤ 23
  buf_lt : br.buf < 2 ^ br.bits

/-- A reader over the same bytes. -/
def Br.Same (br br' : Br) : Prop := br'.data = br.data ∧ br'.len = br.len

theorem Br.Same.refl (br : Br) : br.Same br := ⟨rfl, rfl⟩

theorem Br.Same.trans {a b c : Br} (h : a.Same b) (h' : b.Same c) : a.Same c :=
  ⟨h'.1.trans h.1, h'.2.trans h.2⟩

theorem brInit_ok (data : List UInt8) (len : Nat) (h : len ≤ data.length) :
    (brInit data len).Ok :=
  ⟨h, Nat.zero_le _, by simp [brInit], by simp [brInit]⟩

theorem brInit_rest (data : List UInt8) (len : Nat) :
    (brInit data len).rest = byteBits (data.take len) := by
  simp [Br.rest, brInit]

theorem Br.rest_length (br : Br) (h : br.Ok) :
    br.rest.length = br.bits + 8 * (br.len - br.pos) := by
  have hlen := h.len_le
  simp [Br.rest, Nat.min_eq_left hlen]

/-- The reader after `br_need` has loaded its next byte. -/
def Br.loaded (br : Br) (byte : UInt8) : Br :=
  { br with
    buf := (br.buf ||| (byte.toNat <<< br.bits)) % 2 ^ 64
    pos := br.pos + 1
    bits := br.bits + 8 }

theorem Br.loaded_buf (br : Br) (byte : UInt8) (h : br.Ok) (hbits : br.bits ≤ 15) :
    (br.loaded byte).buf = br.buf + 2 ^ br.bits * byte.toNat := by
  have hbyte : byte.toNat < 256 := byte.toNat_lt
  have hbuf := h.buf_lt
  have hor : br.buf ||| (byte.toNat <<< br.bits) = br.buf + 2 ^ br.bits * byte.toNat := by
    rw [Nat.lor_comm, ← Nat.shiftLeft_add_eq_or_of_lt hbuf, Nat.shiftLeft_eq]
    ring
  have hpow : 2 ^ br.bits ≤ 2 ^ 15 := Nat.pow_le_pow_right (by decide) hbits
  have hmul : 2 ^ br.bits * byte.toNat ≤ 2 ^ 15 * 255 := Nat.mul_le_mul hpow (by omega)
  simp only [Br.loaded, hor]
  exact Nat.mod_eq_of_lt (by omega)

theorem Br.loaded_ok (br : Br) (byte : UInt8) (h : br.Ok) (hbits : br.bits ≤ 15)
    (hpos : br.pos < br.len) : (br.loaded byte).Ok := by
  refine ⟨h.len_le, hpos, ?_, ?_⟩
  · simp only [Br.loaded]
    omega
  · have hbyte : byte.toNat < 256 := byte.toNat_lt
    have hbuf := h.buf_lt
    rw [br.loaded_buf byte h hbits]
    show br.buf + 2 ^ br.bits * byte.toNat < 2 ^ (br.bits + 8)
    rw [Nat.pow_add]
    have hmul : 2 ^ br.bits * byte.toNat ≤ 2 ^ br.bits * 255 :=
      Nat.mul_le_mul_left _ (by omega)
    omega

/-- Loading a byte moves its bits from the data to the buffer. -/
theorem Br.loaded_rest (br : Br) (h : br.Ok) (hbits : br.bits ≤ 15)
    (hpos : br.pos < br.len) (hdata : br.pos < br.data.length) :
    (br.loaded br.data[br.pos]).rest = br.rest := by
  have hlen := h.len_le
  have hdrop : (br.data.take br.len).drop br.pos =
      br.data[br.pos] :: (br.data.take br.len).drop (br.pos + 1) := by
    rw [List.drop_eq_getElem_cons (by simp; omega), List.getElem_take]
  have hbuf := br.loaded_buf br.data[br.pos] h hbits
  simp only [Br.rest, hbuf, hdrop]
  simp only [Br.loaded]
  rw [field_add _ _ _ _ h.buf_lt, byteBits_cons, List.append_assoc]

/-- The outcome of `br_need n`: the bits to deliver are the same, and either
`n` of them are buffered or all of them are and they are too few. -/
def NeedPost (br : Br) (n : Nat) (r : Int) (br' : Br) : Prop :=
  br'.Ok ∧ br.Same br' ∧ br'.rest = br.rest ∧
    ((r = 0 ∧ n ≤ br'.bits) ∨ (r = -1 ∧ br.rest.length < n))

theorem brNeedLoop_spec (fuel n : Nat) (br : Br) (h : br.Ok) (hn : n ≤ 16)
    (hfuel : n < fuel + br.bits) (hpos : 0 < fuel) :
    Ends (brNeedLoop fuel n) br (NeedPost br n) := by
  induction fuel generalizing br with
  | zero => omega
  | succ fuel ih =>
    refine Ends.get_bind ?_
    by_cases hbits : br.bits < n
    · rw [if_pos hbits]
      by_cases hend : br.pos ≥ br.len
      · rw [if_pos hend]
        refine Ends.pure ⟨h, Br.Same.refl br, rfl, Or.inr ⟨rfl, ?_⟩⟩
        rw [br.rest_length h]
        omega
      · rw [if_neg hend]
        have hlen := h.len_le
        have hdata : br.pos < br.data.length := by omega
        refine Ends.load_bind (List.getElem?_eq_getElem hdata) (Ends.set_bind ?_)
        have hok := br.loaded_ok br.data[br.pos] h (by omega) (by omega)
        have hrest := br.loaded_rest h (by omega) (by omega) hdata
        have hstep := ih (br.loaded br.data[br.pos]) hok
          (by simp only [Br.loaded]; omega) (by omega)
        refine hstep.mono ?_
        rintro r br' ⟨hok', hsame, hrest', hcase⟩
        refine ⟨hok', hsame, hrest'.trans hrest, ?_⟩
        rwa [hrest] at hcase
    · rw [if_neg hbits]
      exact Ends.pure ⟨h, Br.Same.refl br, rfl, Or.inl ⟨rfl, by omega⟩⟩

theorem brNeed_spec (n : Nat) (br : Br) (h : br.Ok) (hn : n ≤ 16) :
    Ends (brNeed n) br (NeedPost br n) :=
  brNeedLoop_spec (n + 1) n br h hn (by omega) (by omega)

/-- Dropping bits that are buffered drops them from the list. -/
theorem Br.drop_spec (br : Br) (n : Nat) (h : br.Ok) (hn : n ≤ br.bits) :
    let br' : Br := { br with buf := br.buf >>> n, bits := br.bits - n }
    br'.Ok ∧ br.Same br' ∧ br'.rest = br.rest.drop n := by
  refine ⟨⟨h.len_le, h.pos_le, ?_, ?_⟩, ⟨rfl, rfl⟩, ?_⟩
  · have := h.bits_le
    show br.bits - n ≤ 23
    omega
  · have hbuf := h.buf_lt
    show br.buf >>> n < 2 ^ (br.bits - n)
    rw [Nat.shiftRight_eq_div_pow, Nat.div_lt_iff_lt_mul (Nat.two_pow_pos n), ← Nat.pow_add,
      Nat.sub_add_cancel hn]
    exact hbuf
  · simp only [Br.rest, Nat.shiftRight_eq_div_pow]
    rw [List.drop_append_of_le_length (by simpa using hn), field_drop]

/-- The outcome of `br_bits n` on the list of bits: the first `n` of them,
or `-1` and nothing consumed when fewer are left. -/
def BitsPost (br : Br) (n : Nat) (r : Int) (br' : Br) : Prop :=
  br'.Ok ∧ br.Same br' ∧
    ((∃ w, w.length = n ∧ br.rest = w ++ br'.rest ∧ r = value w) ∨
      (br.rest.length < n ∧ r = -1 ∧ br'.rest = br.rest))

theorem brBits_spec (n : Nat) (br : Br) (h : br.Ok) (hn : n ≤ 16) :
    Ends (brBits n) br (BitsPost br n) := by
  refine Ends.bind (p := fun (r : Int) br' => br'.Ok ∧ br.Same br' ∧ br'.rest = br.rest ∧
    ((n ≤ br'.bits ∧ r = value (br.rest.take n)) ∨ (br.rest.length < n ∧ r = -1))) ?_ ?_
  · refine Ends.bind (brNeed_spec n br h hn) ?_
    rintro r br' ⟨hok, hsame, hrest, ⟨rfl, hbits⟩ | ⟨rfl, hshort⟩⟩
    · refine Ends.get_bind (Ends.pure ⟨hok, hsame, hrest, Or.inl ⟨hbits, ?_⟩⟩)
      rw [← hrest, Br.rest, List.take_append_of_le_length (by simpa using hbits),
        field_take _ _ _ hbits, value_field, Nat.one_shiftLeft, Nat.and_two_pow_sub_one_eq_mod]
    · exact Ends.pure ⟨hok, hsame, hrest, Or.inr ⟨hshort, rfl⟩⟩
  · rintro r br' ⟨hok, hsame, hrest, ⟨hbits, rfl⟩ | ⟨hshort, rfl⟩⟩
    · rw [if_neg (by omega)]
      obtain ⟨hok', hsame', hdrop⟩ := br'.drop_spec n hok hbits
      have hlen : n ≤ br.rest.length := by
        rw [← hrest, br'.rest_length hok]
        omega
      refine Ends.bind (p := fun _ s => s = { br' with buf := br'.buf >>> n, bits := br'.bits - n })
        ⟨(), _, rfl, rfl⟩ ?_
      rintro _ _ rfl
      refine Ends.pure ⟨hok', hsame.trans hsame', Or.inl ⟨br.rest.take n, ?_, ?_, rfl⟩⟩
      · simpa using hlen
      · rw [hdrop, hrest, List.take_append_drop]
    · exact Ends.pure ⟨hok, hsame, Or.inr ⟨hshort, rfl, hrest⟩⟩

/-- With `w` next, `br_bits` returns its value and moves past it. -/
theorem brBits_read (w tail : List Bool) (br : Br) (h : br.Ok) (hw : w.length ≤ 16)
    (hrest : br.rest = w ++ tail) :
    Ends (brBits w.length) br fun r br' =>
      br'.Ok ∧ br.Same br' ∧ r = value w ∧ br'.rest = tail := by
  apply (brBits_spec w.length br h hw).mono
  rintro r br' ⟨hok, hsame, ⟨u, hu, hrest', rfl⟩ | ⟨hshort, -, -⟩⟩
  · rw [hrest] at hrest'
    obtain ⟨rfl, htail⟩ := List.append_inj hrest' hu.symm
    exact ⟨hok, hsame, rfl, htail.symm⟩
  · rw [hrest, List.length_append] at hshort
    omega

/-- `br_align` drops to the next byte boundary of the data. -/
theorem brAlign_spec (br : Br) (h : br.Ok) :
    Ends brAlign br fun _ br' => br'.Ok ∧ br.Same br' ∧
      br'.rest = br.rest.drop (br.rest.length % 8) := by
  have hskip : br.bits &&& 7 = br.rest.length % 8 := by
    rw [br.rest_length h, show (7 : Nat) = 2 ^ 3 - 1 from rfl, Nat.and_two_pow_sub_one_eq_mod]
    omega
  refine Ends.get_bind ?_
  by_cases hpos : (br.bits &&& 7) > 0
  · simp only [if_pos hpos]
    have hle : br.bits &&& 7 ≤ br.bits := Nat.and_le_left
    obtain ⟨hok, hsame, hdrop⟩ := br.drop_spec _ h hle
    exact ⟨(), _, rfl, hok, hsame, by rw [hdrop, hskip]⟩
  · simp only [if_neg hpos]
    refine Ends.pure ⟨h, Br.Same.refl br, ?_⟩
    rw [← hskip, Nat.le_zero.mp (Nat.not_lt.mp hpos), List.drop_zero]

end Cage.Compress
