import Cage.Lib.Checked
import Cage.Lib.Crc

/-!
Cyclic redundancy codes by a table of the eight-bit shifts, in checked loops: one that
builds the table and one that takes a message byte by byte.
-/

namespace Cage.Lib.Crc

open Lib.Bits Lib.Checked

variable {w : Nat} {σ : Type}

/-- The shift, by the test of the low bit that programs make. -/
theorem shift_of_and (poly c : BitVec w) :
    (if c &&& 1 ≠ 0 then poly ^^^ (c >>> 1) else c >>> 1) = shift poly c := by
  have hbit : (c &&& 1#w ≠ 0#w) ↔ c.getLsbD 0 = true := by
    constructor
    · intro hne
      by_contra hlow
      refine hne (BitVec.eq_of_getLsbD_eq fun i _ => ?_)
      rw [BitVec.getLsbD_and, BitVec.getLsbD_one, BitVec.getLsbD_zero]
      cases i with
      | zero => simp [hlow]
      | succ i => simp
    · intro hlow hzero
      have hbit := congrArg (fun x => x.getLsbD 0) hzero
      have hpos := BitVec.lt_of_getLsbD hlow
      rw [BitVec.getLsbD_and, hlow, BitVec.getLsbD_one, BitVec.getLsbD_zero] at hbit
      simp [hpos] at hbit
  change (if c &&& 1#w ≠ 0#w then _ else _) = _
  simp only [hbit]
  rfl

/-- Entry `i` is eight shifts of `i`. -/
def table (poly : BitVec w) : List (BitVec w) :=
  (List.range 256).map fun i => (shift poly)^[8] (BitVec.ofNat w i)

@[simp] theorem table_length (poly : BitVec w) : (table poly).length = 256 := by
  rw [table, List.length_map, List.length_range]

theorem table_get (poly : BitVec w) {i : Nat} (hi : i < 256) :
    (table poly)[i]? = some ((shift poly)^[8] (BitVec.ofNat w i)) := by
  rw [table, List.getElem?_map, List.getElem?_range hi, Option.map_some]

/-- The loop that builds the table, whatever was in its place. -/
theorem table_ends (poly : BitVec w) {entry : Nat → BitVec w} {tab : List (BitVec w)} {s : σ}
    (hentry : ∀ i, entry i = (shift poly)^[8] (BitVec.ofNat w i)) (htab : tab.length = 256) :
    Ends (loopUp (fun i tab => store tab i (entry i)) 256 0 tab) s fun tab' s' =>
      s' = s ∧ tab' = table poly := by
  refine (Ends.loopUp (fun j (tab : List (BitVec w)) s' => s' = s ∧ tab.length = 256 ∧
    tab.take j = (table poly).take j) ?_ ⟨rfl, htab, rfl⟩).mono ?_
  · rintro j tab s' - hj ⟨rfl, hlen, htake⟩
    refine Ends.store (by omega) ⟨rfl, by rw [List.length_set, hlen], ?_⟩
    rw [List.take_add_one, List.take_add_one, List.take_set_of_le (Nat.le_refl j), htake,
      table_get poly (by omega), List.getElem?_set_self (by omega), hentry]
  · rintro tab' s' ⟨hs, hlen, htake⟩
    refine ⟨hs, ?_⟩
    rwa [List.take_of_length_le (by omega), List.take_of_length_le (by simp)] at htake

/-- One byte, by a lookup of the low byte of the register. -/
theorem table_lookup (poly c : BitVec w) (hw : 8 ≤ w) (b : UInt8) :
    ∃ t, (table poly)[((c ^^^ BitVec.ofNat w b.toNat) &&& 0xFF).toNat]? = some t ∧
      t ^^^ (c >>> 8) = divide poly c (field 8 b.toNat) := by
  have hff : (0xFF : BitVec w).toNat = 2 ^ 8 - 1 := by
    have hpow : 2 ^ 8 ≤ 2 ^ w := Nat.pow_le_pow_right (by decide) hw
    exact (BitVec.toNat_ofNat 255 w).trans (Nat.mod_eq_of_lt (by omega))
  have hmask : ((c ^^^ BitVec.ofNat w b.toNat) &&& 0xFF).toNat =
      (c ^^^ BitVec.ofNat w b.toNat).toNat % 2 ^ 8 := by
    rw [BitVec.toNat_and, hff]
    exact Nat.and_two_pow_sub_one_eq_mod _ 8
  refine ⟨_, ?_, (divide_byte poly c b hw).symm⟩
  rw [hmask]
  exact table_get poly (Nat.mod_lt _ (by decide))

/-- The loop over the bytes divides the register by them. -/
theorem bytes_ends (poly c : BitVec w) (hw : 8 ≤ w) (p : List UInt8) {len : Nat} {s : σ}
    (hlen : len ≤ p.length) :
    Ends (loopUp (fun i c => do
      let b ← load p i
      let t ← load (table poly) ((c ^^^ BitVec.ofNat w b.toNat) &&& 0xFF).toNat
      pure (t ^^^ (c >>> 8))) len 0 c) s fun r s' =>
        s' = s ∧ r = divide poly c (byteBits (p.take len)) := by
  refine (Ends.loopUp (fun j r s' => s' = s ∧ r = divide poly c (byteBits (p.take j))) ?_
    ⟨rfl, rfl⟩).mono ?_
  · rintro j r s' - hj ⟨rfl, rfl⟩
    have hlt : j < p.length := by omega
    have hp : p[j]? = some p[j] := List.getElem?_eq_getElem hlt
    obtain ⟨t, hload, hdivide⟩ := table_lookup poly (divide poly c (byteBits (p.take j))) hw p[j]
    refine Ends.load_bind hp (Ends.load_bind hload (Ends.pure ⟨rfl, ?_⟩))
    rw [hdivide, ← divide_append, List.take_add_one, hp, byteBits_append]
    simp
  · rintro r s' ⟨hs, hr⟩
    rw [Nat.zero_add] at hr
    exact ⟨hs, hr⟩

end Cage.Lib.Crc
