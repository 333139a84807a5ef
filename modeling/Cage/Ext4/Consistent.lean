import Mathlib.Algebra.BigOperators.Group.Finset.Basic
import Cage.Ext4.Coverage

/-!
Self-consistency of an image, as a reader of ext4 would check it: everything is
found through the fields of the image itself. The image of `ext4_create_img` is
self-consistent.
-/

namespace Cage.Ext4

open Lib.Buffer Util

/-- The seed of the checksums of superblocks. -/
def superSeed : BitVec 32 := BitVec.allOnes 32

def sbOf (f : File) : ByteVec 1024 := f.slice sbOff 1024

/-- The copy of the superblock in group `g`. -/
def backupSbOf (f : File) (g : Nat) : ByteVec 1024 := f.slice (g * blksPerGrp * blkSize) 1024

def descOf (f : File) (g : Nat) : ByteVec descSize := f.slice (blkSize + g * descSize) descSize

def blockOf (f : File) (b : Nat) : ByteVec blkSize := f.slice (b * blkSize) blkSize

def inodeOf (f : File) (ino : Nat) : ByteVec inodeSize :=
  f.slice (rd32 (descOf f 0) gItLo * blkSize + (ino - 1) * inodeSize) inodeSize

/-- The block bitmap that the descriptor of the group names. -/
def bbBlockOf (f : File) (g : Nat) : ByteVec blkSize := blockOf f (rd32 (descOf f g) gBbLo)

def ibBlockOf (f : File) (g : Nat) : ByteVec blkSize := blockOf f (rd32 (descOf f g) gIbLo)

/-- The first block of the only extent of an inode, and how many it has. -/
def extentStart (p : ByteVec inodeSize) : Nat := rd32 p (0x28 + 0x14)

def extentLen (p : ByteVec inodeSize) : Nat := rd16 p (0x28 + 0x10)

/-- The double-indirect block of an inode. -/
def dindirOf (p : ByteVec inodeSize) : Nat := rd32 p 0x5C

def SbVerifies (seed : BitVec 32) (sb : ByteVec 1024) : Prop :=
  rd32 sb 0x3FC = (crc32cE2fs seed (slice sb 0 0x3FC).toList).toNat

def DescVerifies (seed : BitVec 32) (d : ByteVec descSize) (g : Nat) : Prop :=
  rd16 d gCheck =
    (crc32cE2fs (crc32cE2fs seed (le32 g)) (wr16 d gCheck 0).toList &&& 0xFFFF).toNat

def BbVerifies (seed : BitVec 32) (d : ByteVec descSize) (bm : ByteVec blkSize) : Prop :=
  rd16 d gBbCL + rd16 d gBbCH * 65536 = (crc32cE2fs seed bm.toList).toNat

def IbVerifies (seed : BitVec 32) (d : ByteVec descSize) (bm : ByteVec blkSize) : Prop :=
  rd16 d gIbCL + rd16 d gIbCH * 65536 =
    (crc32cE2fs seed (slice bm 0 (inodesPerGrp / 8)).toList).toNat

def InodeVerifies (seed : BitVec 32) (p : ByteVec inodeSize) (ino : Nat) : Prop :=
  rd16 p 0x7C + rd16 p 0x82 * 65536 =
    (crc32cE2fs (crc32cE2fs (crc32cE2fs seed (le32 ino)) (le32 (rd32 p 0x64)))
      (wr16 (wr16 p 0x7C 0) 0x82 0).toList).toNat

def DirVerifies (seed : BitVec 32) (blk : ByteVec blkSize) (ino gen : Nat) : Prop :=
  rd32 blk (blkSize - 4) = (dirCsum seed blk ino gen blkSize).toNat

/-- The checksums, with the seed for superblocks apart. -/
structure Checked (sbSeed seed : BitVec 32) (f : File) : Prop where
  primary : SbVerifies sbSeed (sbOf f)
  backups : ∀ g, 1 ≤ g → g < groups → hasSuper g = true → SbVerifies sbSeed (backupSbOf f g)
  descs : ∀ g, g < groups → DescVerifies seed (descOf f g) g
  blockBitmaps : ∀ g, g < groups → BbVerifies seed (descOf f g) (bbBlockOf f g)
  inodeBitmaps : ∀ g, g < groups → IbVerifies seed (descOf f g) (ibBlockOf f g)
  inodes : ∀ ino ∈ [2, 7, 8, 12], InodeVerifies seed (inodeOf f ino) ino
  root : DirVerifies seed (blockOf f (extentStart (inodeOf f 2))) 2 (rd32 (inodeOf f 2) 0x64)

/-- The free counts, against the bitmaps and against the superblock. -/
structure Counted (f : File) : Prop where
  blocks : ∀ g, g < groups → zeroBits (bbBlockOf f g) = rd16 (descOf f g) gFreeB
  inodes : ∀ g, g < groups → zeroBits (ibBlockOf f g) = rd16 (descOf f g) gFreeI
  blockSum : ∑ g ∈ Finset.range groups, rd16 (descOf f g) gFreeB = rd32 (sbOf f) 0x00C
  inodeSum : ∑ g ∈ Finset.range groups, rd16 (descOf f g) gFreeI = rd32 (sbOf f) 0x010

/-- The kinds of blocks in use, as the image records them. -/
def partsOf (f : File) : List (Nat → Prop) :=
  [IsSuperMeta,
    fun b => ∃ g, g < groups ∧
      (b = rd32 (descOf f g) gBbLo ∨ b = rd32 (descOf f g) gIbLo ∨
        (rd32 (descOf f g) gItLo ≤ b ∧ b < rd32 (descOf f g) gItLo + itBlksPerGrp)),
    fun b => b = extentStart (inodeOf f 2),
    fun b => b = dindirOf (inodeOf f 7),
    fun b => extentStart (inodeOf f 8) ≤ b ∧
      b < extentStart (inodeOf f 8) + extentLen (inodeOf f 8)]

/-- The set bits of the block bitmaps are the disjoint union of the kinds. -/
structure Covered (f : File) : Prop where
  exactly : ∀ b, b < Ext4.blocks →
    (bit (bbBlockOf f (b / blksPerGrp)) (b % blksPerGrp) = true ↔ ∃ P ∈ partsOf f, P b)
  disjoint : (partsOf f).Pairwise fun P Q => ∀ b, b < Ext4.blocks → ¬ (P b ∧ Q b)

/-- The copies of superblock and descriptors. -/
structure BackedUp (f : File) : Prop where
  group : ∀ g, 1 ≤ g → g < groups → hasSuper g = true → rd16 (backupSbOf f g) 0x05A = g
  sb : ∀ g, 1 ≤ g → g < groups → hasSuper g = true → ∀ i, i < 0x3FC → i ≠ 0x05A → i ≠ 0x05B →
    byte (backupSbOf f g) i = byte (sbOf f) i
  descs : ∀ g, 1 ≤ g → g < groups → hasSuper g = true →
    f.slice (g * blksPerGrp * blkSize + blkSize) (2 * blkSize) = f.slice blkSize (2 * blkSize)

structure SelfConsistent (sbSeed seed : BitVec 32) (f : File) : Prop where
  checked : Checked sbSeed seed f
  counted : Counted f
  covered : Covered f
  backedUp : BackedUp f

/-- The image before the writes. -/
def blank : File := File.empty.truncate imageBytes

/-- The file that a program leaves. -/
def after (p : Img Int) (f : File) : File := (run p f).2

/-- The image that `do_create_writes` leaves when every call succeeds. -/
def image (m : Mkfs) : File := after (doCreateWrites m) blank

end Cage.Ext4
