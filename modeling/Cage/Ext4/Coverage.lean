import Mathlib.Data.Finset.Interval
import Mathlib.Order.Interval.Finset.Nat
import Cage.Ext4.Fields

/-!
The bits of the bitmaps. In every group the blocks in use are the first ones of
the group, as many as its descriptor counts.
-/

namespace Cage.Ext4

open Lib.Buffer Util

/-- The clear bits of a bitmap. -/
def zeroBits {n : Nat} (b : ByteVec n) : Nat := {i ∈ Finset.range (8 * n) | bit b i = false}.card

/-- The blocks in use in group `g`. -/
def used (g : Nat) : Nat := gdtCountUsed g layout.jnlFg 16384

theorem used_zero : used 0 = 3109 := by decide

theorem layout_jnlFg : layout.jnlFg = 64 := rfl

theorem not_super_first {g : Nat} (h : g = grpFlexFirst g) :
    ¬ (hasSuper g = true ∧ g ≠ grpFlexFirst g) :=
  fun hs => hs.2 h

theorem used_first {g : Nat} (h : g = grpFlexFirst g) (h0 : g ≠ 0) :
    used g = if g = 64 then 18464 else 2080 := by
  have hfirst : grpFlexFirst g ≠ 0 := h ▸ h0
  have hdata : grpFlexBase g + flexMeta - g * blksPerGrp = flexMeta := by
    unfold grpFlexBase
    rw [← h]
    exact Nat.add_sub_cancel_left _ _
  unfold used gdtCountUsed gdtUsedFlex
  dsimp only
  rw [if_pos h, if_neg hfirst, if_neg h0, if_neg (not_super_first h), layout_jnlFg, hdata]
  rfl

theorem used_other {g : Nat} (h : g ≠ grpFlexFirst g) :
    used g = if hasSuper g then 1027 else 0 := by
  have h64 : g ≠ 64 := by
    rintro rfl
    exact h rfl
  unfold used gdtCountUsed
  dsimp only
  rw [if_neg h, layout_jnlFg, if_neg h64]
  cases hasSuper g <;> simp [h, reservedGdt]

theorem bit_group0 (i : Nat) :
    bit (bbMarkGroup0 (zeros blkSize) layout.rootBlk layout.dindirBlk) i = decide (i < 3109) := by
  have hroot : layout.rootBlk = 3107 := rfl
  have hdindir : layout.dindirBlk = 3108 := rfl
  unfold bbMarkGroup0 markBit
  dsimp only
  rw [hroot, hdindir, if_pos (by decide), bit_setBit _ _ (by decide), bit_setBit _ _ (by decide),
    bit_setBits _ _ (by decide), bit_zeros, Bool.eq_iff_iff]
  have hsize : 0 + (resvGdtBlks + flexMeta) = 3107 := by decide
  simp only [hsize, Bool.or_eq_true, decide_eq_true_eq, beq_iff_eq, Bool.false_eq_true, false_or]
  omega

theorem bit_flex (i : Nat) : bit (bbMarkFlex (zeros blkSize)) i = decide (i < 2080) := by
  unfold bbMarkFlex
  have hsize : 0 + flexMeta = 2080 := by decide
  rw [bit_setBits _ _ (by decide), bit_zeros, Bool.false_or, hsize]
  simp

theorem bit_super (i : Nat) :
    bit (setBits 3 reservedGdt (markBit (markBit (markBit (zeros blkSize) 0) 1) 2)) i =
      decide (i < 1027) := by
  unfold markBit
  rw [bit_setBits _ _ (by decide), bit_setBit _ _ (by decide), bit_setBit _ _ (by decide),
    bit_setBit _ _ (by decide), bit_zeros, Bool.eq_iff_iff]
  have hsize : 3 + reservedGdt = 1027 := by decide
  simp only [hsize, Bool.or_eq_true, decide_eq_true_eq, beq_iff_eq, Bool.false_eq_true, false_or]
  omega

theorem bit_journal (bm : ByteVec blkSize) (i : Nat) :
    bit (bbMarkJournal bm 64 layout.jnlStart 16384) i =
      (bit bm i || decide (2080 ≤ i ∧ i < 18464)) := by
  have hstart : layout.jnlStart - 64 * blksPerGrp = 2080 := by decide
  unfold bbMarkJournal
  rw [hstart, bit_setBits _ _ (by decide)]

/-- The block bitmap of a group and its count of blocks in use agree. -/
theorem bit_blockBitmap (g i : Nat) : bit (blockBitmap layout g) i = decide (i < used g) := by
  unfold blockBitmap bbMarkMeta
  dsimp only
  rw [layout_jnlFg]
  by_cases h0 : g = 0
  · subst h0
    rw [if_neg (by decide), if_pos rfl, if_neg (by decide), bit_group0, used_zero]
  · rw [if_neg h0]
    by_cases hfirst : g = grpFlexFirst g
    · rw [if_pos hfirst, if_neg (not_super_first hfirst), used_first hfirst h0]
      by_cases h64 : g = 64
      · subst h64
        rw [if_pos rfl, if_pos rfl, bit_journal, bit_flex, Bool.eq_iff_iff]
        simp only [Bool.or_eq_true, decide_eq_true_eq]
        omega
      · rw [if_neg h64, if_neg h64, bit_flex]
    · have h64 : g ≠ 64 := by
        rintro rfl
        exact hfirst rfl
      rw [if_neg h64, if_neg hfirst, used_other hfirst]
      cases hasSuper g with
      | true => rw [if_pos ⟨rfl, hfirst⟩, if_pos rfl, bit_super]
      | false => simp [bit_zeros]

theorem used_le (g : Nat) : used g ≤ 18464 := by
  by_cases h0 : g = 0
  · rw [h0, used_zero]
    decide
  · by_cases hfirst : g = grpFlexFirst g
    · rw [used_first hfirst h0]
      split <;> omega
    · rw [used_other hfirst]
      split <;> omega

theorem zeroBits_blockBitmap (g : Nat) : zeroBits (blockBitmap layout g) = 32768 - used g := by
  have hset : {i ∈ Finset.range (8 * blkSize) | bit (blockBitmap layout g) i = false} =
      Finset.Ico (used g) 32768 := by
    ext i
    have hbits : 8 * blkSize = 32768 := by decide
    rw [Finset.mem_filter, Finset.mem_range, Finset.mem_Ico, bit_blockBitmap, hbits,
      decide_eq_false_iff_not]
    omega
  rw [zeroBits, hset, Nat.card_Ico]

/-- The bits of `bm[0] = 0xFF` and `bm[1] = 0x03`. -/
theorem bit_reserved (i : Nat) :
    bit (wr8 (wr8 (zeros blkSize) 0 0xFF) 1 0x03) i = decide (i < 10) := by
  have hones : ∀ k < 8, Nat.testBit (UInt8.ofNat 0xFF).toNat k = true := by decide
  have hthree : ∀ k < 8, Nat.testBit (UInt8.ofNat 0x03).toNat k = decide (k < 2) := by decide
  have hmod : i % 8 < 8 := Nat.mod_lt _ (by decide)
  have hsize : blkSize = 4096 := rfl
  unfold bit
  rw [byte_wr8, byte_wr8, byte_zeros, hsize]
  by_cases h1 : i / 8 = 1
  · rw [if_pos (by omega), hthree _ hmod, Bool.eq_iff_iff, decide_eq_true_eq, decide_eq_true_eq]
    omega
  · rw [if_neg (by omega)]
    by_cases h0 : i / 8 = 0
    · rw [if_pos (by omega), hones _ hmod]
      exact (decide_eq_true (by omega)).symm
    · have hge : ¬ i < 10 := by omega
      rw [if_neg (by omega)]
      simp [hge]

theorem bit_inodeBitmap (g i : Nat) (hi : i < 32768) :
    bit (inodeBitmap g) i = decide (2048 ≤ i ∨ (g = 0 ∧ (i < 10 ∨ i = 11))) := by
  have hones : ∀ k < 8, Nat.testBit (0xFF : UInt8).toNat k = true := by decide
  have hoff : inodesPerGrp / 8 = 256 := by decide
  have hlen : blkSize - 256 = 3840 := by decide
  have hsize : blkSize = 4096 := rfl
  unfold inodeBitmap
  dsimp only
  by_cases hpad : 2048 ≤ i
  · unfold bit
    rw [byte_put, byte_make, hoff, hlen, if_pos (by omega), if_pos (by omega),
      hones _ (Nat.mod_lt _ (by decide))]
    exact (decide_eq_true (Or.inl hpad)).symm
  · unfold bit
    rw [byte_put, hoff, hlen, if_neg (by omega)]
    by_cases hg : g = 0
    · rw [if_pos hg]
      show bit (setBit (wr8 (wr8 (zeros blkSize) 0 0xFF) 1 0x03) 11) i = _
      rw [bit_setBit _ _ (by decide), bit_reserved, Bool.eq_iff_iff]
      simp [hpad, hg]
    · rw [if_neg hg, byte_zeros]
      simp [hpad, hg]

theorem clear_inodeBitmap (g i : Nat) :
    i < 32768 ∧ bit (inodeBitmap g) i = false ↔ i < 2048 ∧ ¬ (g = 0 ∧ (i < 10 ∨ i = 11)) := by
  constructor
  · rintro ⟨hi, hbit⟩
    rw [bit_inodeBitmap g i hi, decide_eq_false_iff_not] at hbit
    omega
  · intro h
    have hi : i < 32768 := by omega
    rw [bit_inodeBitmap g i hi, decide_eq_false_iff_not]
    omega

theorem zeroBits_inodeBitmap (g : Nat) :
    zeroBits (inodeBitmap g) = if g = 0 then inodesPerGrp - 11 else inodesPerGrp := by
  have hbits : 8 * blkSize = 32768 := by decide
  unfold zeroBits
  rw [hbits]
  by_cases hg : g = 0
  · have hset : {i ∈ Finset.range 32768 | bit (inodeBitmap g) i = false} =
        Finset.Ico 10 11 ∪ Finset.Ico 12 2048 := by
      ext i
      rw [Finset.mem_filter, Finset.mem_range, clear_inodeBitmap, Finset.mem_union,
        Finset.mem_Ico, Finset.mem_Ico]
      omega
    have hdisjoint : Disjoint (Finset.Ico 10 11) (Finset.Ico 12 2048) := by
      rw [Finset.disjoint_left]
      simp only [Finset.mem_Ico]
      omega
    rw [hset, Finset.card_union_of_disjoint hdisjoint, Nat.card_Ico, Nat.card_Ico, if_pos hg]
    rfl
  · have hset : {i ∈ Finset.range 32768 | bit (inodeBitmap g) i = false} = Finset.Ico 0 2048 := by
      ext i
      rw [Finset.mem_filter, Finset.mem_range, clear_inodeBitmap, Finset.mem_Ico]
      omega
    rw [hset, Nat.card_Ico, if_neg hg]

/-- The blocks of superblock, descriptors and reserved descriptors, in the groups
that have them. -/
def IsSuperMeta (b : Nat) : Prop :=
  ∃ g, g < groups ∧ hasSuper g = true ∧ g * blksPerGrp ≤ b ∧ b < g * blksPerGrp + resvGdtBlks

/-- The blocks of bitmaps and inode table of some group. -/
def IsFlexMeta (b : Nat) : Prop :=
  ∃ g, g < groups ∧
    (b = grpBbBlk g ∨ b = grpIbBlk g ∨ (grpItBlk g ≤ b ∧ b < grpItBlk g + itBlksPerGrp))

theorem isFlexMeta_iff (b : Nat) :
    IsFlexMeta b ↔ (1027 ≤ b ∧ b < 3107) ∨
      (524288 ≤ b ∧ b < 2621440 ∧ b % 524288 < 2080) := by
  have hit : itBlksPerGrp = 128 := by decide
  unfold IsFlexMeta
  rw [hit]
  constructor
  · rintro ⟨g, hg, h | h | ⟨h1, h2⟩⟩
    · rw [grpBbBlk_eq] at h
      dsimp only [groups] at hg
      split at h <;> omega
    · rw [grpIbBlk_eq] at h
      dsimp only [groups] at hg
      split at h <;> omega
    · rw [grpItBlk_eq] at h1 h2
      dsimp only [groups] at hg
      split at h1 <;> rename_i hlt
      · rw [if_pos hlt] at h2
        omega
      · rw [if_neg hlt] at h2
        omega
  · intro h
    by_cases hlow : b < 3107
    · by_cases h1 : b < 1043
      · refine ⟨b - 1027, by dsimp only [groups]; omega, Or.inl ?_⟩
        rw [grpBbBlk_eq, if_pos (by omega)]
        omega
      · by_cases h2 : b < 1059
        · refine ⟨b - 1043, by dsimp only [groups]; omega, Or.inr (Or.inl ?_)⟩
          rw [grpIbBlk_eq, if_pos (by omega)]
          omega
        · refine ⟨(b - 1059) / 128, by dsimp only [groups]; omega, Or.inr (Or.inr ?_)⟩
          rw [grpItBlk_eq, if_pos (by omega)]
          omega
    · have hq : 1 ≤ b / 524288 := by omega
      by_cases h1 : b % 524288 < 16
      · refine ⟨b / 524288 * 16 + b % 524288, by dsimp only [groups]; omega, Or.inl ?_⟩
        rw [grpBbBlk_eq, if_neg (by omega)]
        omega
      · by_cases h2 : b % 524288 < 32
        · refine ⟨b / 524288 * 16 + (b % 524288 - 16), by dsimp only [groups]; omega,
            Or.inr (Or.inl ?_)⟩
          rw [grpIbBlk_eq, if_neg (by omega)]
          omega
        · refine ⟨b / 524288 * 16 + (b % 524288 - 32) / 128, by dsimp only [groups]; omega,
            Or.inr (Or.inr ?_)⟩
          rw [grpItBlk_eq, if_neg (by omega)]
          omega

/-- The five kinds of blocks in use. -/
def parts (w : Wi) : List (Nat → Prop) :=
  [IsSuperMeta, IsFlexMeta, fun b => b = w.rootBlk, fun b => b = w.dindirBlk,
    fun b => w.jnlStart ≤ b ∧ b < w.jnlStart + 16384]

theorem isSuperMeta_iff {b : Nat} (hb : b < blocks) :
    IsSuperMeta b ↔ hasSuper (b / 32768) = true ∧ b % 32768 < 1027 := by
  have hresv : resvGdtBlks = 1027 := rfl
  unfold IsSuperMeta
  rw [hresv]
  dsimp only [blksPerGrp, groups, blocks] at *
  constructor
  · rintro ⟨g, -, hg, h1, h2⟩
    have hdiv : b / 32768 = g := by omega
    rw [hdiv]
    exact ⟨hg, by omega⟩
  · rintro ⟨hg, h⟩
    exact ⟨b / 32768, by omega, hg, by omega, by omega⟩

/-- Beyond group 0 no first group of a flex group has a copy of the superblock. -/
theorem hasSuper_even {g : Nat} (h : g % 2 = 0) (hg : 1 ≤ g) : ¬ hasSuper g = true := by
  intro hs
  have := hasSuper_odd hs hg
  omega

theorem mem_parts {b : Nat} : (∃ P ∈ parts layout, P b) ↔
    IsSuperMeta b ∨ IsFlexMeta b ∨ b = 3107 ∨ b = 3108 ∨ (2099232 ≤ b ∧ b < 2115616) := by
  simp only [parts, List.mem_cons, List.not_mem_nil, or_false, exists_eq_or_imp, exists_eq_left]
  exact Iff.rfl

/-- The blocks in use are those of the five kinds. -/
theorem used_iff_parts {b : Nat} (hb : b < blocks) :
    b % 32768 < used (b / 32768) ↔ ∃ P ∈ parts layout, P b := by
  rw [mem_parts, isSuperMeta_iff hb, isFlexMeta_iff]
  dsimp only [blocks] at hb
  by_cases h0 : b / 32768 = 0
  · have hsuper : hasSuper 0 = true := by decide
    rw [h0, used_zero, hsuper]
    simp only [true_and]
    omega
  · by_cases hfirst : b / 32768 = grpFlexFirst (b / 32768)
    · have heven : b / 32768 % 2 = 0 := by
        rw [grpFlexFirst_eq] at hfirst
        omega
      have hsuper := hasSuper_even heven (by omega)
      rw [used_first hfirst h0]
      rw [grpFlexFirst_eq] at hfirst
      simp only [hsuper]
      split <;> omega
    · rw [used_other hfirst]
      rw [grpFlexFirst_eq] at hfirst
      cases hasSuper (b / 32768) with
      | true =>
        simp only [if_true, true_and]
        omega
      | false =>
        simp only [Bool.false_eq_true, if_false, false_and, false_or]
        omega

theorem parts_disjoint :
    (parts layout).Pairwise fun P Q => ∀ b, b < blocks → ¬ (P b ∧ Q b) := by
  have hsuper : ∀ b, b < blocks → IsSuperMeta b → b < 1027 ∨
      (32768 ≤ b ∧ b / 32768 % 2 = 1 ∧ b % 32768 < 1027) := by
    intro b hb h
    obtain ⟨hg, hlt⟩ := (isSuperMeta_iff hb).mp h
    by_cases h1 : 1 ≤ b / 32768
    · exact Or.inr ⟨by omega, hasSuper_odd hg h1, hlt⟩
    · exact Or.inl (by omega)
  have hroot : layout.rootBlk = 3107 := rfl
  have hdindir : layout.dindirBlk = 3108 := rfl
  have hstart : layout.jnlStart = 2099232 := rfl
  simp only [parts, List.pairwise_cons, List.mem_cons, List.not_mem_nil, or_false, hroot, hdindir,
    hstart, forall_eq_or_imp, forall_eq]
  refine ⟨⟨?_, ?_, ?_, ?_⟩, ⟨?_, ?_, ?_⟩, ⟨?_, ?_⟩, ?_, ?_⟩
  · rintro b hb ⟨h1, h2⟩
    rw [isFlexMeta_iff] at h2
    have := hsuper b hb h1
    omega
  · rintro b hb ⟨h1, h2⟩
    have := hsuper b hb h1
    omega
  · rintro b hb ⟨h1, h2⟩
    have := hsuper b hb h1
    omega
  · rintro b hb ⟨h1, h2⟩
    have := hsuper b hb h1
    omega
  · rintro b hb ⟨h1, h2⟩
    rw [isFlexMeta_iff] at h1
    omega
  · rintro b hb ⟨h1, h2⟩
    rw [isFlexMeta_iff] at h1
    omega
  · rintro b hb ⟨h1, h2⟩
    rw [isFlexMeta_iff] at h1
    omega
  · omega
  · omega
  · omega
  · simp

end Cage.Ext4
