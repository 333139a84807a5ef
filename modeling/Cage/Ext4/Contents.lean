import Cage.Ext4.Written

/-!
The image that `do_create_writes` leaves when every call succeeds. The parts
are in disjoint regions of the device, so each is found as it was written.
-/

namespace Cage.Ext4

open Lib.Buffer Lib.Program Util

def InBb (b : Nat) : Prop := (1027 ≤ b ∧ b < 1043) ∨ (524288 ≤ b ∧ b % 524288 < 16)

def InIb (b : Nat) : Prop :=
  (1043 ≤ b ∧ b < 1059) ∨ (524288 ≤ b ∧ 16 ≤ b % 524288 ∧ b % 524288 < 32)

def InJournal (b : Nat) : Prop := 2099232 ≤ b ∧ b < 2115616

def InInodes (b : Nat) : Prop := 1059 ≤ b ∧ b < 1187

def InResize (b : Nat) : Prop := (3 ≤ b ∧ b < 1027) ∨ b = 3108

def InGdt (b : Nat) : Prop := b = 1 ∨ b = 2

def InBackup (b : Nat) : Prop := 32768 ≤ b ∧ b / 32768 % 2 = 1 ∧ b % 32768 < 3

theorem grpBbBlk_in (g : Nat) : InBb (grpBbBlk g) := by
  unfold InBb
  rw [grpBbBlk_eq]
  split <;> omega

theorem grpIbBlk_in (g : Nat) : InIb (grpIbBlk g) := by
  unfold InIb
  rw [grpIbBlk_eq]
  split <;> omega

theorem isBackup_in {b : Nat} (h : IsBackup b) : InBackup b := by
  obtain ⟨g, h1, -, hsuper, h2, h3⟩ := h
  have hodd := hasSuper_odd hsuper h1
  dsimp only [blksPerGrp] at h2 h3
  have hg : b / 32768 = g := by omega
  exact ⟨by omega, by rw [hg]; exact hodd, by omega⟩

/-- The parts of the image. -/
structure Contents (m : Mkfs) (f : File) : Prop where
  size : f.size = imageBytes
  sb : f.slice sbOff 1024 = superblock m computeUsedBlks
  gdt : ∀ g, g < groups → f.slice (blkSize + g * descSize) descSize =
    csumDesc (blockBitmap layout g) (inodeBitmap g)
      (gdtOfGroup (zeros descSize) g layout.jnlFg 16384) g m.seed
  bb : ∀ g, g < groups → bbOf f g = blockBitmap layout g
  ib : ∀ g, g < groups → ibOf f g = inodeBitmap g
  root : f.slice (layout.rootBlk * blkSize) blkSize = rootDir m.seed
  inodes : f.slice (grpItBlk 0 * blkSize) inodeTableSize = inodeTable m layout
  backup : ∀ g, 1 ≤ g → g < groups → hasSuper g = true →
    HasBackup (superblock m computeUsedBlks) (f.slice blkSize (2 * blkSize)) g f

/-- Two bytes are in one of the parts, and another touches none of its blocks. -/
theorem Touches.block {R : Nat → Prop} {f f' : File} (h : Touches R f f') {b : Nat} (hb : ¬ R b) :
    f'.slice (b * blkSize) blkSize = f.slice (b * blkSize) blkSize :=
  h.slice fun i h1 h2 => by rwa [blk_of_byte h1 h2 (Nat.le_refl _)]

/-- `do_create_writes` succeeds, and the image has all its parts. -/
theorem run_doCreateWrites (m : Mkfs) (f : File) (hf : f.size = imageBytes) :
    (run (doCreateWrites m) f).1 = 0 ∧ Contents m (run (doCreateWrites m) f).2 := by
  obtain ⟨r1, t1, sb1⟩ := writes_superblock m computeUsedBlks f hf
  generalize e1 : run (writeSuperblock m computeUsedBlks) f = s1 at r1 t1 sb1
  obtain ⟨rc1, f1⟩ := s1
  have z1 : f1.size = imageBytes := t1.size.trans hf
  obtain ⟨r2, t2⟩ := run_writeGdt layout.jnlFg 16384 f1 z1
  generalize e2 : run (writeGdt layout.jnlFg 16384) f1 = s2 at r2 t2
  obtain ⟨rc2, f2⟩ := s2
  have z2 : f2.size = imageBytes := t2.size.trans z1
  obtain ⟨r3, t3, bb3⟩ := writes_blockBitmaps layout f2 z2
  generalize e3 : run (writeBlockBitmaps layout) f2 = s3 at r3 t3 bb3
  obtain ⟨rc3, f3⟩ := s3
  have z3 : f3.size = imageBytes := t3.size.trans z2
  obtain ⟨r4, t4, ib4⟩ := writes_inodeBitmaps f3 z3
  generalize e4 : run writeInodeBitmaps f3 = s4 at r4 t4 ib4
  obtain ⟨rc4, f4⟩ := s4
  have z4 : f4.size = imageBytes := t4.size.trans z3
  obtain ⟨r5, t5, root5⟩ := writes_rootDir layout.rootBlk m.seed (by decide) f4 z4
  generalize e5 : run (writeRootDir layout.rootBlk m.seed) f4 = s5 at r5 t5 root5
  obtain ⟨rc5, f5⟩ := s5
  have z5 : f5.size = imageBytes := t5.size.trans z4
  obtain ⟨r6, t6, -⟩ := writes_journal layout.jnlStart m.uuid (by decide) f5 z5
  generalize e6 : run (writeJournal layout.jnlStart m.uuid) f5 = s6 at r6 t6
  obtain ⟨rc6, f6⟩ := s6
  have z6 : f6.size = imageBytes := t6.size.trans z5
  obtain ⟨r7, t7, it7⟩ := writes_inodeTable m layout f6 z6
  generalize e7 : run (writeInodeTable m layout) f6 = s7 at r7 t7 it7
  obtain ⟨rc7, f7⟩ := s7
  have z7 : f7.size = imageBytes := t7.size.trans z6
  obtain ⟨r8, t8, -⟩ := writes_resizeData layout.dindirBlk (by decide) f7 z7
  generalize e8 : run (writeResizeData layout.dindirBlk) f7 = s8 at r8 t8
  obtain ⟨rc8, f8⟩ := s8
  have z8 : f8.size = imageBytes := t8.size.trans z7
  obtain ⟨gdt', r9, t9, gdt9, descs9, backups9⟩ :=
    writes_csumBackups (gdtTable layout.jnlFg 16384) m.seed f8 z8
  generalize e9 : run (writeCsumBackups (gdtTable layout.jnlFg 16384) m.seed) f8 = s9
    at r9 t9 gdt9 backups9
  obtain ⟨rc9, f9⟩ := s9
  dsimp only at *
  subst r1 r2 r3 r4 r5 r6 r7 r8 r9
  have hrun : run (doCreateWrites m) f = (0, f9) := by
    unfold doCreateWrites doWrites
    simp only [run_bind, e1, e2, e3, e4, e5, e6, e7, e8, e9, run_pure]
    rfl
  rw [hrun]
  -- what the parts from each on touch, from the back
  have t9' : Touches (fun b => InGdt b ∨ InBackup b) f8 f9 :=
    t9.mono fun b hb => hb.imp_right isBackup_in
  have t8' : Touches InResize f7 f8 := t8
  have t7' : Touches InInodes f6 f7 := t7
  have t6' : Touches InJournal f5 f6 := t6
  have t4' : Touches InIb f3 f4 := t4.mono fun b ⟨g, _, hb⟩ => hb ▸ grpIbBlk_in g
  have t3' : Touches InBb f2 f3 := t3.mono fun b ⟨g, _, hb⟩ => hb ▸ grpBbBlk_in g
  have t89 := t8'.trans t9'
  have t79 := t7'.trans t89
  have t69 := t6'.trans t79
  have t59 := t5.trans t69
  have t49 := t4'.trans t59
  have t39 := t3'.trans t49
  have t29 := t2.trans t39
  have hroot : layout.rootBlk = 3107 := rfl
  have hbb9 : ∀ g, g < groups → bbOf f9 g = blockBitmap layout g := by
    intro g hg
    have hin := grpBbBlk_in g
    refine (t49.block ?_).trans (bb3 g hg)
    simp only [InBb, InIb, InJournal, InInodes, InResize, InGdt, InBackup, hroot] at hin ⊢
    omega
  have hib9 : ∀ g, g < groups → ibOf f9 g = inodeBitmap g := by
    intro g hg
    have hin := grpIbBlk_in g
    refine (t59.block ?_).trans (ib4 g hg)
    simp only [InIb, InJournal, InInodes, InResize, InGdt, InBackup, hroot] at hin ⊢
    omega
  have hbb8 : ∀ g, g < groups → bbOf f8 g = blockBitmap layout g := by
    intro g hg
    have hin := grpBbBlk_in g
    refine (t9'.block ?_).symm.trans (hbb9 g hg)
    simp only [InBb, InGdt, InBackup] at hin ⊢
    omega
  have hib8 : ∀ g, g < groups → ibOf f8 g = inodeBitmap g := by
    intro g hg
    have hin := grpIbBlk_in g
    refine (t9'.block ?_).symm.trans (hib9 g hg)
    simp only [InIb, InGdt, InBackup] at hin ⊢
    omega
  have hzero : ∀ i, sbOff ≤ i → i < sbOff + 1024 → i / blkSize = 0 := by
    dsimp only [sbOff, blkSize]
    omega
  have hsb9 : f9.slice sbOff 1024 = superblock m computeUsedBlks := by
    refine (t29.slice ?_).trans sb1
    intro i h1 h2
    simp only [InBb, InIb, InJournal, InInodes, InResize, InGdt, InBackup, hroot, hzero i h1 h2]
    omega
  have hsb8 : f8.slice sbOff 1024 = superblock m computeUsedBlks := by
    refine (t9'.slice ?_).symm.trans hsb9
    intro i h1 h2
    simp only [InGdt, InBackup, hzero i h1 h2]
    omega
  refine ⟨rfl, ?_⟩
  exact {
    size := t9.size.trans z8
    sb := hsb9
    gdt := by
      intro g hg
      have hdesc := descs9 g hg
      rw [hbb8 g hg, hib8 g hg, ← gdt9, slice_file_slice _ _ _ _ _ (record_in hg)] at hdesc
      rw [hdesc, gdtTable, slice_patchAll _ _ (by decide) hg, slice_zeros]
    bb := hbb9
    ib := hib9
    root := by
      refine (t69.block ?_).trans root5
      simp only [InJournal, InInodes, InResize, InGdt, InBackup, hroot]
      omega
    inodes := by
      refine (t89.slice ?_).trans it7
      intro i h1 h2
      have hblk : 1059 ≤ i / blkSize ∧ i / blkSize < 1187 := by
        have hit : grpItBlk 0 = 1059 := rfl
        dsimp only [inodeTableSize, inodesPerGrp, inodeSize, blkSize] at *
        omega
      simp only [InResize, InGdt, InBackup]
      omega
    backup := by
      intro g h1 h2 h3
      have h := backups9 g h1 h2 h3
      rw [hsb8] at h
      exact gdt9 ▸ h }

end Cage.Ext4
