import Cage.Ext4.Consistent
import Cage.Ext4.Create

/-!
The image of `do_create_writes` is self-consistent.
-/

namespace Cage.Ext4

open Lib.Buffer Util

section Desc

variable (bb ib : ByteVec blkSize) (seed : BitVec 32) {g : Nat} (hg : g < groups)

/-- The descriptor of a group on the image. -/
def finalDesc (bb ib : ByteVec blkSize) (g : Nat) (seed : BitVec 32) : ByteVec descSize :=
  csumDesc bb ib (gdtOfGroup (zeros descSize) g layout.jnlFg 16384) g seed

include hg

theorem finalDesc_bbLo : rd32 (finalDesc bb ib g seed) gBbLo = grpBbBlk g := by
  have hlt := grpBbBlk_lt hg
  simp (disch := decide) only [finalDesc, csumDesc, gdtSetCsum, gdtOfGroup, gdtSetFlags,
    gdtSetFreeCounts, gdtSetAddrs, rd32_wr16, rd32_wr32, rd32_wr32_self]
  exact Nat.mod_eq_of_lt (Nat.lt_trans hlt (by decide))

theorem finalDesc_ibLo : rd32 (finalDesc bb ib g seed) gIbLo = grpIbBlk g := by
  have hlt := grpIbBlk_lt hg
  simp (disch := decide) only [finalDesc, csumDesc, gdtSetCsum, gdtOfGroup, gdtSetFlags,
    gdtSetFreeCounts, gdtSetAddrs, rd32_wr16, rd32_wr32, rd32_wr32_self]
  exact Nat.mod_eq_of_lt (Nat.lt_trans hlt (by decide))

theorem grpItBlk_lt : grpItBlk g < blocks := by
  dsimp only [groups, blocks] at *
  rw [grpItBlk_eq]
  split <;> omega

theorem finalDesc_itLo : rd32 (finalDesc bb ib g seed) gItLo = grpItBlk g := by
  have hlt := grpItBlk_lt hg
  simp (disch := decide) only [finalDesc, csumDesc, gdtSetCsum, gdtOfGroup, gdtSetFlags,
    gdtSetFreeCounts, gdtSetAddrs, rd32_wr16, rd32_wr32_self]
  exact Nat.mod_eq_of_lt (Nat.lt_trans hlt (by decide))

theorem finalDesc_freeB : rd16 (finalDesc bb ib g seed) gFreeB = 32768 - used g := by
  have hused : gdtCountUsed g layout.jnlFg 16384 = used g := rfl
  have hle := used_le g
  have hgrp : (if g < groups - 1 then blksPerGrp else blocks - g * blksPerGrp) = 32768 := by
    dsimp only [groups, blksPerGrp, blocks] at *
    split <;> omega
  simp (disch := decide) only [finalDesc, csumDesc, gdtSetCsum, gdtOfGroup, gdtSetFlags,
    gdtSetFreeCounts, rd16_wr16, rd16_wr16_self, hused, hgrp]
  rw [if_pos (by omega)]
  omega

omit hg in
theorem finalDesc_freeI : rd16 (finalDesc bb ib g seed) gFreeI =
    if g = 0 then inodesPerGrp - 11 else inodesPerGrp := by
  simp (disch := decide) only [finalDesc, csumDesc, gdtSetCsum, gdtOfGroup, gdtSetFlags,
    gdtSetFreeCounts, rd16_wr16, rd16_wr16_self]
  split <;> rfl

end Desc

/-- A checksum is stored in two halves, or in its low half. -/
theorem low_mod (c : BitVec 32) : (c &&& 0xFFFF).toNat % 65536 = (c &&& 0xFFFF).toNat := by
  apply Nat.mod_eq_of_lt
  rw [BitVec.toNat_and]
  exact Nat.lt_of_le_of_lt Nat.and_le_right (by decide)

section Checksums

variable (bb ib : ByteVec blkSize) (d : ByteVec descSize) (g : Nat) (seed : BitVec 32)

theorem csumDesc_verifies : DescVerifies seed (csumDesc bb ib d g seed) g := by
  unfold DescVerifies csumDesc gdtSetCsum
  dsimp only
  rw [rd16_wr16_self _ _ _ (by decide), wr16_wr16, wr16_wr16, low_mod]

theorem csumDesc_bb : BbVerifies seed (csumDesc bb ib d g seed) bb := by
  unfold BbVerifies
  simp (disch := decide) only [csumDesc, gdtSetCsum, rd16_wr16, rd16_wr16_self]
  exact halves _

theorem csumDesc_ib : IbVerifies seed (csumDesc bb ib d g seed) ib := by
  unfold IbVerifies
  simp (disch := decide) only [csumDesc, gdtSetCsum, rd16_wr16, rd16_wr16_self]
  exact halves _

/-- Clearing the two halves undoes `inode_set_csum`. -/
theorem clear_twice (p : ByteVec inodeSize) (v w : Nat) :
    wr16 (wr16 (wr16 (wr16 (wr16 (wr16 p 0x7C 0) 0x82 0) 0x7C v) 0x82 w) 0x7C 0) 0x82 0 =
      wr16 (wr16 p 0x7C 0) 0x82 0 := by
  have hfar : 0x82 + 2 ≤ 0x7C ∨ 0x7C + 2 ≤ 0x82 := Or.inr (by decide)
  rw [wr16_comm _ w 0 hfar, wr16_wr16, wr16_wr16, wr16_comm _ 0 0 hfar, wr16_wr16, wr16_wr16]

theorem inodeSetCsum_verifies (p : ByteVec inodeSize) (ino : Nat) :
    InodeVerifies seed (inodeSetCsum p ino seed) ino := by
  unfold InodeVerifies inodeSetCsum
  dsimp only
  rw [clear_twice]
  simp (disch := decide) only [rd16_wr16, rd16_wr16_self, rd32_wr16]
  exact halves _

theorem sbSetCsum_verifies (sb : ByteVec 1024) : SbVerifies superSeed (sbSetCsum sb) := by
  unfold SbVerifies sbSetCsum
  rw [rd32_wr32_self _ _ _ (by decide), slice_wr32 _ _ (by decide)]
  exact Nat.mod_eq_of_lt (BitVec.isLt _)

theorem rootDir_verifies : DirVerifies seed (rootDir seed) 2 0 := by
  have hfield : blkSize - 4 = blkSize - 12 + 8 := rfl
  unfold DirVerifies
  rw [hfield, rootDir, rd32_wr32_self _ _ _ (by decide), dirCsum, dirCsum,
    slice_wr32 _ _ (by decide)]
  exact Nat.mod_eq_of_lt (BitVec.isLt _)

end Checksums

section Super

variable (m : Mkfs)

theorem superblock_freeBlocks :
    rd32 (superblock m computeUsedBlks) 0x00C = blocks - computeUsedBlks := by
  simp (disch := decide) only [superblock, sbSetCsum, fillSbJnl, sbSetScalars, sbWriteU16s,
    tableU16, sbWriteU32sB, tableB, sbWriteU32sA, tableA, List.foldl_cons, List.foldl_nil,
    rd32_put, rd32_wr8, rd32_wr16, rd32_wr32, rd32_wr32_self]
  decide

theorem superblock_freeInodes :
    rd32 (superblock m computeUsedBlks) 0x010 = inodesPerGrp * groups - 11 := by
  simp (disch := decide) only [superblock, sbSetCsum, fillSbJnl, sbSetScalars, sbWriteU16s,
    tableU16, sbWriteU32sB, tableB, sbWriteU32sA, tableA, List.foldl_cons, List.foldl_nil,
    rd32_put, rd32_wr8, rd32_wr16, rd32_wr32, rd32_wr32_self]
  decide

theorem superblock_magic : rd16 (superblock m computeUsedBlks) 0x038 = ext4SuperMagic := by
  simp (disch := decide) only [superblock, sbSetCsum, fillSbJnl, sbSetScalars, sbWriteU16s,
    tableU16, List.foldl_cons, List.foldl_nil, rd16_put, rd16_wr8, rd16_wr16, rd16_wr32,
    rd16_wr16_self]
  decide

end Super

section Inodes

variable (m : Mkfs)

/-- The inode of index `i` in the table, if `p` is what is put there. -/
theorem slice_inodeTable {i : Nat} (p : ByteVec inodeSize) (hi : i < inodesPerGrp)
    (hslice : slice (patch (patch (patch (patch (zeros inodeTableSize) inodeSize inodeSize
      fun p => fillRootInode p m.now layout.rootBlk) (6 * inodeSize) inodeSize
      fun p => fillResizeInode p m.now layout.dindirBlk) (7 * inodeSize) inodeSize
      fun p => fillJournalInode p m.now layout.jnlStart) (11 * inodeSize) inodeSize
      fun p => fillOrphanInode p m.now) (i * inodeSize) inodeSize = p)
    (hlinks : rd16 p 0x1A ≠ 0) :
    slice (inodeTable m layout) (i * inodeSize) inodeSize = inodeSetCsum p (i + 1) m.seed := by
  unfold inodeTable setInodeCsums
  dsimp only
  rw [slice_patchAll _ _ (Nat.le_refl _) hi, hslice, if_pos hlinks]

theorem slice_rootInode : slice (inodeTable m layout) (1 * inodeSize) inodeSize =
    inodeSetCsum (fillRootInode (zeros inodeSize) m.now layout.rootBlk) 2 m.seed := by
  refine slice_inodeTable m _ (by decide) ?_ ?_
  · rw [slice_patch_of_disjoint _ _ _ (by decide), slice_patch_of_disjoint _ _ _ (by decide),
      slice_patch_of_disjoint _ _ _ (by decide), Nat.one_mul, slice_patch_self _ _ _ (by decide),
      slice_zeros]
  · simp (disch := decide) only [fillRootInode, extentSet, rd16_wr16, rd16_wr32, rd16_wr16_self]
    decide

theorem slice_resizeInode : slice (inodeTable m layout) (6 * inodeSize) inodeSize =
    inodeSetCsum (fillResizeInode (zeros inodeSize) m.now layout.dindirBlk) 7 m.seed := by
  refine slice_inodeTable m _ (by decide) ?_ ?_
  · rw [slice_patch_of_disjoint _ _ _ (by decide), slice_patch_of_disjoint _ _ _ (by decide),
      slice_patch_self _ _ _ (by decide), slice_patch_of_disjoint _ _ _ (by decide), slice_zeros]
  · simp (disch := decide) only [fillResizeInode, setResizeIsize, rd16_wr16, rd16_wr32,
      rd16_wr16_self]
    decide

theorem slice_journalInode : slice (inodeTable m layout) (7 * inodeSize) inodeSize =
    inodeSetCsum (fillJournalInode (zeros inodeSize) m.now layout.jnlStart) 8 m.seed := by
  refine slice_inodeTable m _ (by decide) ?_ ?_
  · rw [slice_patch_of_disjoint _ _ _ (by decide), slice_patch_self _ _ _ (by decide),
      slice_patch_of_disjoint _ _ _ (by decide), slice_patch_of_disjoint _ _ _ (by decide),
      slice_zeros]
  · simp (disch := decide) only [fillJournalInode, extentSet, rd16_wr16, rd16_wr32,
      rd16_wr16_self]
    decide

theorem slice_orphanInode : slice (inodeTable m layout) (11 * inodeSize) inodeSize =
    inodeSetCsum (fillOrphanInode (zeros inodeSize) m.now) 12 m.seed := by
  refine slice_inodeTable m _ (by decide) ?_ ?_
  · rw [slice_patch_self _ _ _ (by decide), slice_patch_of_disjoint _ _ _ (by decide),
      slice_patch_of_disjoint _ _ _ (by decide), slice_patch_of_disjoint _ _ _ (by decide),
      slice_zeros]
  · simp (disch := decide) only [fillOrphanInode, rd16_wr16, rd16_wr32, rd16_wr16_self]
    decide

theorem rootInode_extent (seed : BitVec 32) (now : Nat) : extentStart (inodeSetCsum
    (fillRootInode (zeros inodeSize) now layout.rootBlk) 2 seed) = layout.rootBlk := by
  unfold extentStart
  simp (disch := decide) only [inodeSetCsum, fillRootInode, extentSet, rd32_wr16, rd32_wr32,
    rd32_wr32_self]
  decide

theorem rootInode_gen (seed : BitVec 32) (now : Nat) : rd32 (inodeSetCsum
    (fillRootInode (zeros inodeSize) now layout.rootBlk) 2 seed) 0x64 = 0 := by
  simp (disch := decide) only [inodeSetCsum, fillRootInode, rd32_wr16, rd32_wr32_self]

theorem resizeInode_dindir (seed : BitVec 32) (now : Nat) : dindirOf (inodeSetCsum
    (fillResizeInode (zeros inodeSize) now layout.dindirBlk) 7 seed) = layout.dindirBlk := by
  unfold dindirOf
  simp (disch := decide) only [inodeSetCsum, fillResizeInode, rd32_wr16, rd32_wr32,
    rd32_wr32_self]
  decide

theorem journalInode_extent (seed : BitVec 32) (now : Nat) : extentStart (inodeSetCsum
    (fillJournalInode (zeros inodeSize) now layout.jnlStart) 8 seed) = layout.jnlStart := by
  unfold extentStart
  simp (disch := decide) only [inodeSetCsum, fillJournalInode, extentSet, rd32_wr16, rd32_wr32,
    rd32_wr32_self]
  decide

theorem journalInode_len (seed : BitVec 32) (now : Nat) : extentLen (inodeSetCsum
    (fillJournalInode (zeros inodeSize) now layout.jnlStart) 8 seed) = 16384 := by
  unfold extentLen
  simp (disch := decide) only [inodeSetCsum, fillJournalInode, extentSet, rd16_wr16, rd16_wr32,
    rd16_wr16_self]

end Inodes

section Image

variable {m : Mkfs} {f : File} (h : Contents m f)

include h

theorem Contents.desc {g : Nat} (hg : g < groups) :
    descOf f g = finalDesc (blockBitmap layout g) (inodeBitmap g) g m.seed :=
  h.gdt g hg

theorem Contents.bbBlock {g : Nat} (hg : g < groups) : bbBlockOf f g = blockBitmap layout g := by
  unfold bbBlockOf
  rw [h.desc hg, finalDesc_bbLo _ _ _ hg]
  exact h.bb g hg

theorem Contents.ibBlock {g : Nat} (hg : g < groups) : ibBlockOf f g = inodeBitmap g := by
  unfold ibBlockOf
  rw [h.desc hg, finalDesc_ibLo _ _ _ hg]
  exact h.ib g hg

theorem Contents.inode {ino : Nat} (hino : ino - 1 < inodesPerGrp) :
    inodeOf f ino = slice (inodeTable m layout) ((ino - 1) * inodeSize) inodeSize := by
  have hin : (ino - 1) * inodeSize + inodeSize ≤ inodeTableSize := record_le inodeSize hino
  unfold inodeOf
  rw [h.desc (by decide), finalDesc_itLo _ _ _ (by decide), ← h.inodes,
    slice_file_slice _ _ _ _ _ hin]

theorem Contents.rootInode : inodeOf f 2 =
    inodeSetCsum (fillRootInode (zeros inodeSize) m.now layout.rootBlk) 2 m.seed :=
  (h.inode (by decide)).trans (slice_rootInode m)

theorem Contents.resizeInode : inodeOf f 7 =
    inodeSetCsum (fillResizeInode (zeros inodeSize) m.now layout.dindirBlk) 7 m.seed :=
  (h.inode (by decide)).trans (slice_resizeInode m)

theorem Contents.journalInode : inodeOf f 8 =
    inodeSetCsum (fillJournalInode (zeros inodeSize) m.now layout.jnlStart) 8 m.seed :=
  (h.inode (by decide)).trans (slice_journalInode m)

theorem Contents.orphanInode : inodeOf f 12 =
    inodeSetCsum (fillOrphanInode (zeros inodeSize) m.now) 12 m.seed :=
  (h.inode (by decide)).trans (slice_orphanInode m)

theorem Contents.checked : Checked superSeed m.seed f where
  primary := by
    unfold sbOf
    rw [h.sb]
    exact sbSetCsum_verifies _
  backups g h1 hg hs := by
    unfold backupSbOf
    rw [(h.backup g h1 hg hs).1]
    exact sbSetCsum_verifies _
  descs g hg := by
    rw [h.desc hg]
    exact csumDesc_verifies _ _ _ _ _
  blockBitmaps g hg := by
    rw [h.desc hg, h.bbBlock hg]
    exact csumDesc_bb _ _ _ _ _
  inodeBitmaps g hg := by
    rw [h.desc hg, h.ibBlock hg]
    exact csumDesc_ib _ _ _ _ _
  inodes := by
    simp only [List.forall_mem_cons, h.rootInode, h.resizeInode, h.journalInode, h.orphanInode]
    exact ⟨inodeSetCsum_verifies _ _ _, inodeSetCsum_verifies _ _ _, inodeSetCsum_verifies _ _ _,
      inodeSetCsum_verifies _ _ _, nofun⟩
  root := by
    rw [h.rootInode, rootInode_extent, rootInode_gen]
    have hroot : blockOf f layout.rootBlk = rootDir m.seed := h.root
    rw [hroot]
    exact rootDir_verifies _

theorem Contents.counted : Counted f where
  blocks g hg := by
    rw [h.bbBlock hg, h.desc hg, zeroBits_blockBitmap, finalDesc_freeB _ _ _ hg]
  inodes g hg := by
    rw [h.ibBlock hg, h.desc hg, zeroBits_inodeBitmap, finalDesc_freeI]
  blockSum := by
    have hsum : ∀ g ∈ Finset.range groups, rd16 (descOf f g) gFreeB = 32768 - used g := by
      intro g hg
      have hlt := Finset.mem_range.mp hg
      rw [h.desc hlt, finalDesc_freeB _ _ _ hlt]
    unfold sbOf
    rw [Finset.sum_congr rfl hsum, h.sb, superblock_freeBlocks]
    decide
  inodeSum := by
    have hsum : ∀ g ∈ Finset.range groups, rd16 (descOf f g) gFreeI =
        if g = 0 then inodesPerGrp - 11 else inodesPerGrp := by
      intro g hg
      rw [h.desc (Finset.mem_range.mp hg), finalDesc_freeI]
    unfold sbOf
    rw [Finset.sum_congr rfl hsum, h.sb, superblock_freeInodes]
    decide

/-- The image records the layout it was made with. -/
theorem Contents.partsOf : partsOf f = parts layout := by
  have hflex : (fun b => ∃ g, g < groups ∧
      (b = rd32 (descOf f g) gBbLo ∨ b = rd32 (descOf f g) gIbLo ∨
        (rd32 (descOf f g) gItLo ≤ b ∧ b < rd32 (descOf f g) gItLo + itBlksPerGrp))) =
      IsFlexMeta := by
    funext b
    refine propext (exists_congr fun g => and_congr_right fun hg => ?_)
    rw [h.desc hg, finalDesc_bbLo _ _ _ hg, finalDesc_ibLo _ _ _ hg, finalDesc_itLo _ _ _ hg]
  unfold Cage.Ext4.partsOf
  rw [hflex, h.rootInode, h.resizeInode, h.journalInode, rootInode_extent, resizeInode_dindir,
    journalInode_extent, journalInode_len]
  rfl

theorem Contents.covered : Covered f where
  exactly b hb := by
    have hg : b / blksPerGrp < groups := by
      dsimp only [Ext4.blocks, blksPerGrp, groups] at *
      omega
    rw [h.partsOf, h.bbBlock hg, bit_blockBitmap, decide_eq_true_eq]
    exact used_iff_parts hb
  disjoint := by
    rw [h.partsOf]
    exact parts_disjoint

theorem Contents.backedUp : BackedUp f where
  group g h1 hg hs := by
    unfold backupSbOf
    rw [(h.backup g h1 hg hs).1, backupSb, sbSetCsum, rd16_wr32 _ _ (by decide),
      rd16_wr16_self _ _ _ (by decide)]
    exact Nat.mod_eq_of_lt (Nat.lt_trans hg (by decide))
  sb g h1 hg hs i hi ha hb := by
    unfold backupSbOf sbOf
    rw [(h.backup g h1 hg hs).1, h.sb, backupSb, sbSetCsum, byte_wr32_of_ne _ _ (Or.inl hi),
      byte_wr16_of_ne _ _ (by omega)]
  descs g h1 hg hs := (h.backup g h1 hg hs).2

theorem Contents.selfConsistent : SelfConsistent superSeed m.seed f :=
  ⟨h.checked, h.counted, h.covered, h.backedUp⟩

end Image

theorem blank_size : blank.size = imageBytes := by
  unfold blank File.truncate
  rfl

theorem after_eq (p : Img Int) (f : File) : after p f = (run p f).2 := rfl

theorem image_contents (m : Mkfs) : Contents m (image m) := by
  unfold image
  rw [after_eq]
  exact (run_doCreateWrites m blank blank_size).2

theorem mkfsOf_seed (uuid hashSeed : ByteVec 16) (now : Nat) :
    (mkfsOf uuid hashSeed now).seed = seedOf uuid := by
  unfold mkfsOf
  rfl

/-- The image of `ext4_create_img` is self-consistent, for every uuid, hash seed
and time; superblocks have their own seed. -/
theorem image_selfConsistent (uuid hashSeed : ByteVec 16) (now : Nat) :
    (run (doCreateWrites (mkfsOf uuid hashSeed now)) blank).1 = 0 ∧
      SelfConsistent superSeed (seedOf uuid) (image (mkfsOf uuid hashSeed now)) := by
  have hcontents := image_contents (mkfsOf uuid hashSeed now)
  have hconsistent := hcontents.selfConsistent
  rw [mkfsOf_seed] at hconsistent
  exact ⟨(run_doCreateWrites _ blank blank_size).1, hconsistent⟩

/-- With the seed of the uuid a superblock of the image verifies only where that
seed is the one of superblocks. -/
theorem sbVerifies_seed {seed : BitVec 32} {m : Mkfs} (h : SbVerifies seed (sbOf (image m))) :
    seed = superSeed := by
  have hsuper := (image_contents m).checked.primary
  unfold SbVerifies at h hsuper
  have hsame := BitVec.eq_of_toNat_eq (h.symm.trans hsuper)
  exact crc32cE2fs_injective _ hsame

theorem seedOf_uuidBits : seedOf (uuidBits (zeros 16)) ≠ superSeed := by decide +kernel

/-- The superblocks do not verify under the seed of the uuid, for uuids of `gen_uuid`. -/
theorem image_superblock_seed :
    ¬ ∀ (uuid hashSeed : ByteVec 16) (now : Nat),
      SelfConsistent (seedOf (uuidBits uuid)) (seedOf (uuidBits uuid))
        (image (mkfsOf (uuidBits uuid) (uuidBits hashSeed) now)) := by
  intro h
  exact seedOf_uuidBits (sbVerifies_seed (h (zeros 16) (zeros 16) 0).checked.primary)

end Cage.Ext4
