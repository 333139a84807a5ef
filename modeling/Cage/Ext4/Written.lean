import Cage.Ext4.Run

/-!
What each writer leaves on the image, and which blocks it touches.
-/

namespace Cage.Ext4

open Lib.Buffer Lib.Program Util

theorem grpFlexFirst_eq_zero (g : Nat) : grpFlexFirst g = 0 ↔ g < 16 := by
  unfold grpFlexFirst
  omega

theorem grpFlexFirst_eq (g : Nat) : grpFlexFirst g = g / 16 * 16 := rfl

theorem grpBbBlk_eq (g : Nat) :
    grpBbBlk g = if g < 16 then 1027 + g else g / 16 * 524288 + g % 16 := by
  simp only [grpBbBlk, grpFlexFirst_eq_zero]
  simp only [grpFlexBase, grpFlexFirst_eq, resvGdtBlks, reservedGdt]
  split <;> omega

theorem grpIbBlk_eq (g : Nat) :
    grpIbBlk g = if g < 16 then 1043 + g else g / 16 * 524288 + 16 + g % 16 := by
  simp only [grpIbBlk, grpFlexFirst_eq_zero]
  simp only [grpFlexBase, grpFlexFirst_eq, resvGdtBlks, reservedGdt, flexGrpSize]
  split <;> omega

theorem grpItBlk_eq (g : Nat) :
    grpItBlk g = if g < 16 then 1059 + g * 128 else g / 16 * 524288 + 32 + g % 16 * 128 := by
  simp only [grpItBlk, grpFlexFirst_eq_zero]
  simp only [grpFlexBase, grpFlexFirst_eq, resvGdtBlks, reservedGdt, flexGrpSize, itBlksPerGrp,
    inodesPerGrp, inodeSize, blkSize]
  split <;> omega

theorem grpBbBlk_lt {g : Nat} (h : g < groups) : grpBbBlk g < blocks := by
  dsimp only [groups, blocks] at *
  rw [grpBbBlk_eq]
  split <;> omega

theorem grpIbBlk_lt {g : Nat} (h : g < groups) : grpIbBlk g < blocks := by
  dsimp only [groups, blocks] at *
  rw [grpIbBlk_eq]
  split <;> omega

theorem grpBbBlk_inj {g j : Nat} (h : grpBbBlk g = grpBbBlk j) : g = j := by
  rw [grpBbBlk_eq, grpBbBlk_eq] at h
  split at h <;> split at h <;> omega

theorem grpIbBlk_inj {g j : Nat} (h : grpIbBlk g = grpIbBlk j) : g = j := by
  rw [grpIbBlk_eq, grpIbBlk_eq] at h
  split at h <;> split at h <;> omega

/-- Copies of the superblock are in odd groups. -/
theorem hasSuper_odd {g : Nat} (h : hasSuper g = true) (hg : 1 ≤ g) : g % 2 = 1 := by
  unfold hasSuper at h
  split at h
  · omega
  · simpa using (Bool.and_eq_true_iff.mp h).1

theorem blk_of_byte {b i k : Nat} (h1 : b * blkSize ≤ i) (h2 : i < b * blkSize + k)
    (hk : k ≤ blkSize) : i / blkSize = b := by
  dsimp only [blkSize] at *
  omega

theorem blk_in {f : File} (hf : f.size = imageBytes) {b : Nat} (hb : b < blocks) :
    b * blkSize + blkSize ≤ f.size := by
  dsimp only [imageBytes, blocks, blkSize] at *
  omega

/-- One block. -/
theorem Writes.block (buf : ByteVec blkSize) {b : Nat} (hb : b < blocks) :
    Writes (fun x => x = b) (writeAt buf (b * blkSize))
      fun f => f.slice (b * blkSize) blkSize = buf := by
  refine (Writes.span (k := 1) buf b (by omega)).mono ?_ fun _ h => h
  omega

/-- A block keeps its content when other blocks are touched. -/
theorem Keeps.block {R : Nat → Prop} {b : Nat} {d : ByteVec blkSize} (h : ¬ R b) :
    Keeps R fun f => f.slice (b * blkSize) blkSize = d := by
  refine Keeps.slice ?_
  intro i h1 h2
  rwa [blk_of_byte h1 h2 (Nat.le_refl _)]

/-- The block bitmap of a group, as it is on the image. -/
def bbOf (f : File) (g : Nat) : ByteVec blkSize := f.slice (grpBbBlk g * blkSize) blkSize

/-- The inode bitmap of a group, as it is on the image. -/
def ibOf (f : File) (g : Nat) : ByteVec blkSize := f.slice (grpIbBlk g * blkSize) blkSize

theorem writes_superblock (m : Mkfs) (used : Nat) :
    Writes (fun b => b = 0) (writeSuperblock m used)
      fun f => f.slice sbOff 1024 = superblock m used := by
  have hin : ∀ i, sbOff ≤ i → i < sbOff + 1024 → i / blkSize = 0 := by
    dsimp only [sbOff, blkSize]
    omega
  intro f hf
  have h := Writes.bytes (R := fun b => b = 0) (superblock m used) hin (by decide) f hf
  unfold writeSuperblock
  rw [run_bind, h.1, run_pure]
  exact ⟨rfl, h.2⟩

/-- `write_gdt` succeeds and hands the table on. -/
theorem run_writeGdt (jnlFg journalBlks : Nat) (f : File) (hf : f.size = imageBytes) :
    (run (writeGdt jnlFg journalBlks) f).1 = (0, gdtTable jnlFg journalBlks) ∧
      Touches (fun b => b = 1 ∨ b = 2) f (run (writeGdt jnlFg journalBlks) f).2 := by
  have h := Writes.span (k := 2) (gdtTable jnlFg journalBlks) 1 (by decide) f hf
  unfold writeGdt
  rw [run_bind, h.1, run_pure]
  exact ⟨rfl, h.2.1.mono (by omega)⟩

theorem writes_blockBitmaps (w : Wi) :
    Writes (fun b => ∃ g, g < groups ∧ b = grpBbBlk g) (writeBlockBitmaps w)
      fun f => ∀ g, g < groups → bbOf f g = blockBitmap w g := by
  have hloop := Writes.loop (R := fun g b => b = grpBbBlk g) (a := 0) (k := groups)
    (P := fun g f => bbOf f g = blockBitmap w g)
    (fun g _ hg => Writes.block (blockBitmap w g) (grpBbBlk_lt (by omega))) ?_
  · refine hloop.mono ?_ fun f h g hg => h g (Nat.zero_le g) (by omega)
    rintro b ⟨g, -, hg, hb⟩
    exact ⟨g, by omega, hb⟩
  · intro g _
    refine Keeps.block ?_
    rintro ⟨j, hj, -, heq⟩
    have := grpBbBlk_inj heq
    omega

theorem writes_inodeBitmaps :
    Writes (fun b => ∃ g, g < groups ∧ b = grpIbBlk g) (writeInodeBitmaps)
      fun f => ∀ g, g < groups → ibOf f g = inodeBitmap g := by
  have hloop := Writes.loop (R := fun g b => b = grpIbBlk g) (a := 0) (k := groups)
    (P := fun g f => ibOf f g = inodeBitmap g)
    (fun g _ hg => Writes.block (inodeBitmap g) (grpIbBlk_lt (by omega))) ?_
  · refine hloop.mono ?_ fun f h g hg => h g (Nat.zero_le g) (by omega)
    rintro b ⟨g, -, hg, hb⟩
    exact ⟨g, by omega, hb⟩
  · intro g _
    refine Keeps.block ?_
    rintro ⟨j, hj, -, heq⟩
    have := grpIbBlk_inj heq
    omega

theorem writes_rootDir (rootBlk : Nat) (seed : BitVec 32) (h : rootBlk < blocks) :
    Writes (fun b => b = rootBlk) (writeRootDir rootBlk seed)
      fun f => f.slice (rootBlk * blkSize) blkSize = rootDir seed :=
  Writes.block (rootDir seed) h

/-- The rounds of `write_zeroes` are one block each; `k` of them are left. -/
theorem writes_zeroes {fuel b k : Nat} (hk : k ≤ fuel) (hb : b + k ≤ blocks) :
    Writes (fun x => b ≤ x ∧ x < b + k) (writeZeroesLoop fuel (b * blkSize) (k * blkSize))
      fun f => ∀ j, b ≤ j → j < b + k → f.slice (j * blkSize) blkSize = zeros blkSize := by
  induction fuel generalizing b k with
  | zero => exact fun f _ => ⟨rfl, Touches.refl _ f, fun j h1 h2 => by omega⟩
  | succ fuel ih =>
    cases k with
    | zero =>
      intro f _
      unfold writeZeroesLoop
      rw [Nat.zero_mul, if_pos rfl]
      exact ⟨rfl, Touches.refl _ f, fun j h1 h2 => by omega⟩
    | succ k =>
      have hround : (k + 1) * blkSize - blkSize = k * blkSize := by
        rw [Nat.succ_mul, Nat.add_sub_cancel]
      have hnext : b * blkSize + blkSize = (b + 1) * blkSize := (Nat.succ_mul b blkSize).symm
      have hlen : blkSize ≤ (k + 1) * blkSize := Nat.le_mul_of_pos_left blkSize (Nat.succ_pos k)
      have hpos : 0 < blkSize := by decide
      have hrest := ih (b := b + 1) (k := k) (by omega) (by omega)
      have hfirst := Writes.block (zeros blkSize) (b := b) (by omega)
      unfold writeZeroesLoop
      rw [if_neg (by omega), if_neg (Nat.not_lt_of_le hlen)]
      show Writes _ (do
        let r ← writeAt (zeros blkSize) (b * blkSize)
        if r ≠ 0 then pure (-1)
        else writeZeroesLoop fuel (b * blkSize + blkSize) ((k + 1) * blkSize - blkSize)) _
      rw [hround, hnext]
      refine (hfirst.seq hrest (Keeps.block (by omega))).mono (by omega) ?_
      rintro f ⟨h1, h2⟩ j hj hjk
      by_cases hjb : j = b
      · exact hjb ▸ h1
      · exact h2 j (by omega) (by omega)

theorem writes_writeZeroes (b k : Nat) (hb : b + k ≤ blocks) :
    Writes (fun x => b ≤ x ∧ x < b + k) (writeZeroes (b * blkSize) (k * blkSize))
      fun f => ∀ j, b ≤ j → j < b + k → f.slice (j * blkSize) blkSize = zeros blkSize :=
  writes_zeroes (Nat.le_mul_of_pos_right k (by decide)) hb

theorem writes_journal (jnlStart : Nat) (uuid : ByteVec 16) (h : jnlStart + 16384 ≤ blocks) :
    Writes (fun b => jnlStart ≤ b ∧ b < jnlStart + 16384) (writeJournal jnlStart uuid)
      fun _ => True := by
  have hrest : jnlStart + 1 + 16383 ≤ blocks := by
    rw [Nat.add_assoc]
    exact h
  have hsb := Writes.block (fillJbd2Sb (zeros blkSize) uuid) (b := jnlStart) (by omega)
  have hzeroes := writes_writeZeroes (jnlStart + 1) 16383 hrest
  exact (hsb.seq hzeroes (Keeps.block (by omega))).mono (by omega) fun _ _ => trivial

theorem writes_inodeTable (m : Mkfs) (w : Wi) :
    Writes (fun b => 1059 ≤ b ∧ b < 1187) (writeInodeTable m w)
      fun f => f.slice (grpItBlk 0 * blkSize) inodeTableSize = inodeTable m w := by
  intro f hf
  unfold writeInodeTable
  rw [run_bind, run_calloc, if_pos rfl]
  exact (Writes.span (k := 128) (inodeTable m w) (grpItBlk 0) (by decide)).mono
    (fun b hb => hb) (fun _ h => h) f hf

theorem run_resizeLoop {k b : Nat} (gdtOff : Nat) (buf : ByteVec blkSize) (f : File)
    (hf : f.size = imageBytes) (h : b + k ≤ blocks) :
    (run (resizeLoop k gdtOff b buf) f).1.1 = 0 ∧
      Touches (fun x => b ≤ x ∧ x < b + k) f
        (run (resizeLoop k gdtOff b buf) f).2 := by
  induction k generalizing gdtOff b buf f with
  | zero => exact ⟨rfl, Touches.refl _ f⟩
  | succ k ih =>
    obtain ⟨hrc, ht, -⟩ := Writes.block (resizeGdt b).1 (b := b) (by omega) f hf
    unfold resizeLoop
    simp only [run_bind]
    have hone : (run (writeOneResizeGdt b) f).1 = 0 := hrc
    rw [hone, if_neg (fun h => h rfl)]
    have hrest := ih (gdtOff % (blkSize / 4) + 1)
      (wr32 buf (gdtOff % (blkSize / 4) * 4) b) (run (writeOneResizeGdt b) f).2
      (b := b + 1) (ht.size.trans hf) (by omega)
    exact ⟨hrest.1, (ht.trans hrest.2).mono (by omega)⟩

theorem writes_resizeData (dindirBlk : Nat) (h : dindirBlk < blocks) :
    Writes (fun b => (3 ≤ b ∧ b < 1027) ∨ b = dindirBlk) (writeResizeData dindirBlk)
      fun _ => True := by
  intro f hf
  obtain ⟨hrc, ht⟩ := run_resizeLoop (k := reservedGdt) (b := 3) 2 (zeros blkSize) f hf
    (by decide)
  unfold writeResizeData
  rw [run_bind]
  generalize run (resizeLoop reservedGdt 2 3 (zeros blkSize)) f = r at hrc ht
  obtain ⟨⟨rc, buf⟩, f'⟩ := r
  have hlast := Writes.block buf h f' (ht.size.trans hf)
  dsimp only at hrc ht ⊢
  rw [hrc, if_neg (fun h => h rfl)]
  exact ⟨hlast.1, ht.trans hlast.2.1, trivial⟩

/-- What `csum_one_group` makes of the descriptor of a group with these bitmaps. -/
def csumDesc (bb ib : ByteVec blkSize) (d : ByteVec descSize) (g : Nat) (seed : BitVec 32) :
    ByteVec descSize :=
  let c := crc32cE2fs seed bb.toList
  let d := wr16 d gBbCL (c &&& 0xFFFF).toNat
  let d := wr16 d gBbCH (c >>> 16).toNat
  let c := crc32cE2fs seed (slice ib 0 (inodesPerGrp / 8)).toList
  let d := wr16 d gIbCL (c &&& 0xFFFF).toNat
  let d := wr16 d gIbCH (c >>> 16).toNat
  gdtSetCsum d g seed

theorem run_csumOneGroup (d : ByteVec descSize) {g : Nat} (seed : BitVec 32) {f : File}
    (hf : f.size = imageBytes) (hg : g < groups) :
    run (csumOneGroup d g seed) f = ((0, csumDesc (bbOf f g) (ibOf f g) d g seed), f) := by
  have hreadB := run_pread (n := blkSize) (blk_in hf (grpBbBlk_lt hg))
  have hreadI := run_pread (n := blkSize) (blk_in hf (grpIbBlk_lt hg))
  unfold csumOneGroup csumBbOne csumIbOne
  simp [hreadB, hreadI, csumDesc, bbOf, ibOf]

/-- Record `i` of size `k` ends before record `j` starts. -/
theorem record_le {i j : Nat} (k : Nat) (h : i < j) : i * k + k ≤ j * k := by
  rw [← Nat.succ_mul]
  exact Nat.mul_le_mul_right k h

theorem record_in {g : Nat} (h : g < groups) : g * descSize + descSize ≤ 2 * blkSize :=
  Nat.le_trans (record_le descSize h) (by decide)

/-- The descriptors after the loop of `write_csum_backups`. -/
theorem run_csumGroups (seed : BitVec 32) {g k : Nat} (gdt : ByteVec (2 * blkSize)) {f : File}
    (hf : f.size = imageBytes) (hk : g + k ≤ groups) :
    ∃ gdt', run (csumGroups seed g k gdt) f = ((0, gdt'), f) ∧
      (∀ o m, o + m ≤ g * descSize → slice gdt' o m = slice gdt o m) ∧
      ∀ i, g ≤ i → i < g + k →
        slice gdt' (i * descSize) descSize =
          csumDesc (bbOf f i) (ibOf f i) (slice gdt (i * descSize) descSize) i seed := by
  induction k generalizing g gdt with
  | zero => exact ⟨gdt, rfl, fun _ _ _ => rfl, fun i h1 h2 => by omega⟩
  | succ k ih =>
    have hone := run_csumOneGroup (slice gdt (g * descSize) descSize) seed hf
      (show g < groups by omega)
    obtain ⟨gdt', hrun, hbefore, hafter⟩ := ih (g := g + 1)
      (put gdt (g * descSize)
        (csumDesc (bbOf f g) (ibOf f g) (slice gdt (g * descSize) descSize) g seed))
      (by omega)
    refine ⟨gdt', ?_, ?_, ?_⟩
    · unfold csumGroups
      rw [run_bind, hone]
      exact hrun
    · intro o m hom
      have hnext : g * descSize + descSize ≤ (g + 1) * descSize :=
        record_le descSize (Nat.lt_succ_self g)
      rw [hbefore o m (by omega), slice_put_of_disjoint _ _ _ (Or.inl hom)]
    · intro i h1 h2
      by_cases hig : i = g
      · subst hig
        rw [hbefore _ _ (record_le descSize (Nat.lt_succ_self i)),
          slice_put_self _ _ _ (record_in (by omega))]
      · rw [hafter i (by omega) (by omega),
          slice_put_of_disjoint _ _ _ (Or.inr (record_le descSize (by omega)))]

theorem writes_oneBackup (sb : ByteVec 1024) (gdt : ByteVec (2 * blkSize)) {g : Nat} (hg : g < groups) :
    Writes (fun b => g * blksPerGrp ≤ b ∧ b < g * blksPerGrp + 3) (writeOneBackup sb gdt g)
      fun f => f.slice (g * blksPerGrp * blkSize) 1024 = backupSb sb g ∧
        f.slice (g * blksPerGrp * blkSize + blkSize) (2 * blkSize) = gdt := by
  have hroom : g * blksPerGrp + 3 ≤ blocks ∧
      g * blksPerGrp * blkSize + 1024 ≤ imageBytes := by
    dsimp only [groups, blksPerGrp, blkSize, imageBytes, blocks] at *
    omega
  have hsb : Writes (fun b => b = g * blksPerGrp)
      (writeAt (backupSb sb g) (g * blksPerGrp * blkSize)) _ :=
    Writes.bytes (backupSb sb g) (fun i h1 h2 => blk_of_byte h1 h2 (by decide)) hroom.2
  have hgdt := Writes.span (k := 2) gdt (g * blksPerGrp + 1) (by omega)
  have hnext : (g * blksPerGrp + 1) * blkSize = g * blksPerGrp * blkSize + blkSize :=
    Nat.succ_mul _ _
  rw [hnext] at hgdt
  refine (hsb.seq hgdt (Keeps.slice ?_)).mono (by omega) fun _ h => h
  intro i h1 h2
  rw [blk_of_byte h1 h2 (by decide)]
  omega

/-- The blocks of the copies of superblock and descriptors. -/
def IsBackup (b : Nat) : Prop :=
  ∃ g, 1 ≤ g ∧ g < groups ∧ hasSuper g = true ∧ g * blksPerGrp ≤ b ∧ b < g * blksPerGrp + 3

/-- The copy of group `g` of the superblock `sb` and the descriptors `gdt`. -/
def HasBackup (sb : ByteVec 1024) (gdt : ByteVec (2 * blkSize)) (g : Nat) (f : File) : Prop :=
  f.slice (g * blksPerGrp * blkSize) 1024 = backupSb sb g ∧
    f.slice (g * blksPerGrp * blkSize + blkSize) (2 * blkSize) = gdt

theorem writes_backups (sb : ByteVec 1024) (gdt : ByteVec (2 * blkSize)) (f : File)
    (hf : f.size = imageBytes) (hsb : f.slice sbOff 1024 = sb) :
    (run (writeBackups gdt) f).1 = 0 ∧ Touches IsBackup f (run (writeBackups gdt) f).2 ∧
      ∀ g, 1 ≤ g → g < groups → hasSuper g = true →
        HasBackup sb gdt g (run (writeBackups gdt) f).2 := by
  have hread : run (pread 1024 sbOff) f = ((((1024 : Nat) : Int), f.slice sbOff 1024), f) :=
    run_pread (by rw [hf]; decide)
  have hloop := Writes.loop (a := 1) (k := groups - 1)
    (R := fun g b => hasSuper g = true ∧ g * blksPerGrp ≤ b ∧ b < g * blksPerGrp + 3)
    (p := fun g => if hasSuper g then writeOneBackup sb gdt g else pure 0)
    (P := fun g f => hasSuper g = true → HasBackup sb gdt g f) ?_ ?_
  · unfold writeBackups
    rw [run_bind, hread, hsb]
    obtain ⟨hrc, ht, hpost⟩ := hloop f hf
    refine ⟨hrc, ht.mono ?_, fun g h1 h2 => hpost g h1 (by omega)⟩
    rintro b ⟨g, h1, h2, h3, h4⟩
    exact ⟨g, h1, by omega, h3, h4⟩
  · intro g h1 h2
    by_cases hg : hasSuper g = true
    · rw [if_pos hg]
      exact (writes_oneBackup sb gdt (by omega)).mono (fun b hb => ⟨hg, hb⟩) fun f h _ => h
    · rw [if_neg hg]
      exact fun f _ => ⟨rfl, Touches.refl _ f, fun h => absurd h hg⟩
  · intro g h1 f f' ht hpost hg
    have hkeep : Keeps (fun b => ∃ j, g + 1 ≤ j ∧ j < 1 + (groups - 1) ∧ hasSuper j = true ∧
        j * blksPerGrp ≤ b ∧ b < j * blksPerGrp + 3) (HasBackup sb gdt g) := by
      dsimp only [blksPerGrp, blkSize, groups]
      refine Keeps.and (Keeps.slice ?_) (Keeps.slice ?_)
      · rintro i h2 h3 ⟨j, h4, -, -, h5, h6⟩
        dsimp only [blksPerGrp, blkSize] at h2 h3 h5 h6
        omega
      · rintro i h2 h3 ⟨j, h4, -, -, h5, h6⟩
        dsimp only [blksPerGrp, blkSize] at h2 h3 h5 h6
        omega
    exact hkeep f f' ht (hpost hg)

theorem writes_csumBackups (gdt : ByteVec (2 * blkSize)) (seed : BitVec 32) (f : File)
    (hf : f.size = imageBytes) :
    ∃ gdt', (run (writeCsumBackups gdt seed) f).1 = 0 ∧
      Touches (fun b => (b = 1 ∨ b = 2) ∨ IsBackup b) f (run (writeCsumBackups gdt seed) f).2 ∧
      (run (writeCsumBackups gdt seed) f).2.slice blkSize (2 * blkSize) = gdt' ∧
      (∀ g, g < groups → slice gdt' (g * descSize) descSize =
        csumDesc (bbOf f g) (ibOf f g) (slice gdt (g * descSize) descSize) g seed) ∧
      ∀ g, 1 ≤ g → g < groups → hasSuper g = true →
        HasBackup (f.slice sbOff 1024) gdt' g (run (writeCsumBackups gdt seed) f).2 := by
  obtain ⟨gdt', hrun, -, hdescs⟩ := run_csumGroups seed (g := 0) (k := groups) gdt hf (by decide)
  obtain ⟨hrc, ht, hgdt⟩ := Writes.span (k := 2) gdt' 1 (by decide) f hf
  have hsb : (run (writeAt gdt' (1 * blkSize)) f).2.slice sbOff 1024 = f.slice sbOff 1024 := by
    refine ht.slice ?_
    dsimp only [sbOff, blkSize]
    omega
  obtain ⟨hrc', ht', hbackups⟩ := writes_backups (f.slice sbOff 1024) gdt' _
    (ht.size.trans hf) hsb
  have hall : run (writeCsumBackups gdt seed) f =
      run (writeBackups gdt') (run (writeAt gdt' (1 * blkSize)) f).2 := by
    unfold writeCsumBackups
    rw [run_bind, hrun]
    show run (do let r ← writeAt gdt' (1 * blkSize); if r ≠ 0 then pure (-1) else writeBackups gdt')
      f = _
    rw [run_bind, hrc, if_neg (fun h => h rfl)]
  rw [hall]
  refine ⟨gdt', hrc', (ht.trans ht').mono ?_, ?_, fun g hg => hdescs g (Nat.zero_le g)
    (by omega), hbackups⟩
  · rintro b (hb | hb)
    · exact Or.inl (by omega)
    · exact Or.inr hb
  refine (ht'.slice ?_).trans hgdt
  rintro i h1 h2 ⟨g, h3, -, hsuper, h5, h6⟩
  dsimp only [blkSize, blksPerGrp] at h1 h2 h5 h6
  omega

end Cage.Ext4
