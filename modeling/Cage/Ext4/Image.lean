import Cage.Ext4.Super

/-!
The writers of `src/ext4/ext4.c`: bitmaps, root directory, journal, inode table
and resize inode, up to `do_create_writes`.
-/

namespace Cage.Ext4

open Lib.Buffer Lib.Program Util

/-- `struct wi`. -/
structure Wi where
  rootBlk : Nat
  dindirBlk : Nat
  jnlFg : Nat
  jnlStart : Nat

def bbMarkGroup0 (bm : ByteVec blkSize) (rootBlk dindirBlk : Nat) : ByteVec blkSize :=
  let bm := setBits 0 (resvGdtBlks + flexMeta) bm
  let bm := markBit bm rootBlk
  if dindirBlk ≠ 0 then markBit bm dindirBlk else bm

/-- `bb_mark_flex`, whose loop is over the same blocks from the flex base on. -/
def bbMarkFlex (bm : ByteVec blkSize) : ByteVec blkSize := setBits 0 flexMeta bm

def bbMarkMeta (bm : ByteVec blkSize) (g rootBlk dindirBlk : Nat) : ByteVec blkSize :=
  let fg := grpFlexFirst g
  let bm :=
    if g = 0 then bbMarkGroup0 bm rootBlk dindirBlk else if g = fg then bbMarkFlex bm else bm
  if hasSuper g ∧ g ≠ fg then
    let bm := markBit (markBit (markBit bm 0) 1) 2
    setBits 3 reservedGdt bm
  else bm

def bbMarkJournal (bm : ByteVec blkSize) (g jnlStart journalBlks : Nat) : ByteVec blkSize :=
  setBits (jnlStart - g * blksPerGrp) journalBlks bm

/-- The bitmap that `write_block_bitmaps` fills for a group. -/
def blockBitmap (w : Wi) (g : Nat) : ByteVec blkSize :=
  let bm := bbMarkMeta (zeros blkSize) g w.rootBlk w.dindirBlk
  if g = w.jnlFg then bbMarkJournal bm g w.jnlStart 16384 else bm

def writeBlockBitmaps (w : Wi) : Img Int :=
  loopRc (fun g => writeAt (blockBitmap w g) (grpBbBlk g * blkSize)) 0 groups

/-- The bitmap that `write_inode_bitmaps` fills for a group. -/
def inodeBitmap (g : Nat) : ByteVec blkSize :=
  let bm := zeros blkSize
  let bm := if g = 0 then markBit (wr8 (wr8 bm 0 0xFF) 1 0x03) 11 else bm
  put bm (inodesPerGrp / 8) (make (blkSize - inodesPerGrp / 8) fun _ => 0xFF)

def writeInodeBitmaps : Img Int :=
  loopRc (fun g => writeAt (inodeBitmap g) (grpIbBlk g * blkSize)) 0 groups

def writeDotEntry (blk : ByteVec blkSize) : ByteVec blkSize :=
  let blk := wr32 blk 0 2
  let blk := wr16 blk 4 12
  let blk := wr8 blk 6 1
  let blk := wr8 blk 7 2
  wr8 blk 8 46

def writeDotdotEntry (blk : ByteVec blkSize) : ByteVec blkSize :=
  let blk := wr32 blk 12 2
  let blk := wr16 blk 16 (blkSize - 24)
  let blk := wr8 blk 18 2
  let blk := wr8 blk 19 2
  let blk := wr8 blk 20 46
  wr8 blk 21 46

/-- The block that `write_root_dir` fills. -/
def rootDir (seed : BitVec 32) : ByteVec blkSize :=
  let blk := writeDotEntry (zeros blkSize)
  let blk := writeDotdotEntry blk
  let t := blkSize - 12
  let blk := wr32 blk t 0
  let blk := wr16 blk (t + 4) 12
  let blk := wr16 blk (t + 6) 0xDE00
  wr32 blk (t + 8) (dirCsum seed blk 2 0 blkSize).toNat

def writeRootDir (rootBlk : Nat) (seed : BitVec 32) : Img Int :=
  writeAt (rootDir seed) (rootBlk * blkSize)

def fillJbd2Sb (jsb : ByteVec blkSize) (uuid : ByteVec 16) : ByteVec blkSize :=
  let jsb := wr32be jsb 0 jbd2Magic
  let jsb := wr32be jsb 4 4
  let jsb := wr32be jsb 8 0
  let jsb := wr32be jsb 0x0C blkSize
  let jsb := wr32be jsb 0x10 16384
  let jsb := wr32be jsb 0x14 1
  let jsb := wr32be jsb 0x18 0
  let jsb := wr32be jsb 0x1C 0
  let jsb := wr32be jsb 0x40 1
  put jsb 0x30 uuid

def writeJournal (jnlStart : Nat) (uuid : ByteVec 16) : Img Int := do
  let r ← writeAt (fillJbd2Sb (zeros blkSize) uuid) (jnlStart * blkSize)
  if r ≠ 0 then pure (-1) else writeZeroes ((jnlStart + 1) * blkSize) (16383 * blkSize)

def fillRootInode (p : ByteVec inodeSize) (now rootBlk : Nat) : ByteVec inodeSize :=
  let p := wr16 p 0x00 0o40755
  let p := wr32 p 0x04 blkSize
  let p := wr32 p 0x08 now
  let p := wr32 p 0x0C now
  let p := wr32 p 0x10 now
  let p := wr16 p 0x18 0
  let p := wr16 p 0x1A 2
  let p := wr32 p 0x1C (blkSize / 512)
  let p := wr32 p 0x20 ext4ExtentsFl
  let p := extentSet p 0x28 0 1 rootBlk
  let p := wr32 p 0x64 0
  wr16 p 0x80 32

def fillJournalInode (p : ByteVec inodeSize) (now jnlStart : Nat) : ByteVec inodeSize :=
  let p := wr16 p 0x00 0o100644
  let p := wr32 p 0x04 (16384 * blkSize)
  let p := wr32 p 0x08 now
  let p := wr32 p 0x0C now
  let p := wr32 p 0x10 now
  let p := wr16 p 0x1A 1
  let p := wr32 p 0x1C (16384 * blkSize / 512)
  let p := wr32 p 0x20 ext4ExtentsFl
  let p := extentSet p 0x28 0 16384 jnlStart
  let p := wr32 p 0x64 0
  wr16 p 0x80 32

def resizeNblks : Nat :=
  (List.range' 1 (groups - 1)).foldl (fun n g => if hasSuper g then n + reservedGdt else n)
    (1 + reservedGdt)

def setResizeIsize (p : ByteVec inodeSize) : ByteVec inodeSize :=
  let apb := blkSize / 4
  let isize := (apb * apb + apb + 12) * blkSize
  let p := wr32 p 0x04 isize
  wr32 p 0x6C (isize >>> 32)

def fillResizeInode (p : ByteVec inodeSize) (now dindirBlk : Nat) : ByteVec inodeSize :=
  let p := wr16 p 0x00 0x8180
  let p := wr16 p 0x1A 1
  let p := wr32 p 0x08 now
  let p := wr32 p 0x0C now
  let p := wr32 p 0x10 now
  let p := wr32 p 0x20 0
  let p := setResizeIsize p
  let p := wr32 p 0x5C dindirBlk
  let p := wr32 p 0x1C (resizeNblks * (blkSize / 512))
  wr16 p 0x80 32

/-- The buffer that `write_one_resize_gdt` fills, and how many entries it has. -/
def resizeGdt (gdtBlk : Nat) : ByteVec blkSize × Nat :=
  (List.range' 1 (groups - 1)).foldl
    (fun (buf, last) grp =>
      if hasSuper grp then (wr32 buf (last * 4) (gdtBlk + grp * blksPerGrp), last + 1)
      else (buf, last))
    (zeros blkSize, 0)

def writeOneResizeGdt (gdtBlk : Nat) : Img Int := writeAt (resizeGdt gdtBlk).1 (gdtBlk * blkSize)

/-- The loop of `write_resize_data`, with `k` rounds left. -/
def resizeLoop : Nat → Nat → Nat → ByteVec blkSize → Img (Int × ByteVec blkSize)
  | 0, _, _, buf => pure (0, buf)
  | k + 1, gdtOff, gdtBlk, buf => do
      let gdtOff := gdtOff % (blkSize / 4)
      let buf := wr32 buf (gdtOff * 4) gdtBlk
      let r ← writeOneResizeGdt gdtBlk
      if r ≠ 0 then pure (-1, buf) else resizeLoop k (gdtOff + 1) (gdtBlk + 1) buf

def writeResizeData (dindirBlk : Nat) : Img Int := do
  let (r, buf) ← resizeLoop reservedGdt 2 3 (zeros blkSize)
  if r ≠ 0 then pure (-1) else writeAt buf (dindirBlk * blkSize)

def fillOrphanInode (p : ByteVec inodeSize) (now : Nat) : ByteVec inodeSize :=
  let p := wr16 p 0x00 0x8180
  let p := wr16 p 0x1A 1
  let p := wr32 p 0x08 now
  let p := wr32 p 0x0C now
  let p := wr32 p 0x10 now
  let p := wr32 p 0x20 0
  wr16 p 0x80 32

abbrev inodeTableSize : Nat := inodesPerGrp * inodeSize

def setInodeCsums (it : ByteVec inodeTableSize) (seed : BitVec 32) : ByteVec inodeTableSize :=
  patchAll inodeSize (fun i p => if rd16 p 0x1A ≠ 0 then inodeSetCsum p (i + 1) seed else p)
    inodesPerGrp it

/-- The buffer that `write_inode_table` fills. -/
def inodeTable (m : Mkfs) (w : Wi) : ByteVec inodeTableSize :=
  let it := zeros inodeTableSize
  let it := patch it inodeSize inodeSize fun p => fillRootInode p m.now w.rootBlk
  let it := patch it (6 * inodeSize) inodeSize fun p => fillResizeInode p m.now w.dindirBlk
  let it := patch it (7 * inodeSize) inodeSize fun p => fillJournalInode p m.now w.jnlStart
  let it := patch it (11 * inodeSize) inodeSize fun p => fillOrphanInode p m.now
  setInodeCsums it m.seed

def writeInodeTable (m : Mkfs) (w : Wi) : Img Int := do
  let ok ← calloc inodeTableSize
  if ok then writeAt (inodeTable m w) (grpItBlk 0 * blkSize) else pure (-1)

def computeUsedBlks : Nat :=
  (List.range' 1 (groups - 1)).foldl (fun n g => if hasSuper g then n + reservedGdt else n)
    (5 * flexMeta + 5 + reservedGdt) + countBackupBlks + 16384

/-- `a | b` for results that are 0 or -1. -/
def orRc (a b : Int) : Int := if a = 0 ∧ b = 0 then 0 else -1

/-- `do_writes`, whose operands are evaluated from left to right. -/
def doWrites (m : Mkfs) (w : Wi) : Img Int := do
  let sb ← writeSuperblock m computeUsedBlks
  let (gd, gdt) ← writeGdt w.jnlFg 16384
  let bb ← writeBlockBitmaps w
  let ib ← writeInodeBitmaps
  let root ← writeRootDir w.rootBlk m.seed
  let jnl ← writeJournal w.jnlStart m.uuid
  let it ← writeInodeTable m w
  let resize ← writeResizeData w.dindirBlk
  let backups ← writeCsumBackups gdt m.seed
  pure (orRc (orRc (orRc (orRc (orRc (orRc (orRc (orRc sb gd) bb) ib) root) jnl) it) resize) backups)

/-- The `struct wi` of `do_create_writes`. -/
def layout : Wi :=
  let rootBlk := resvGdtBlks + flexMeta
  { rootBlk := rootBlk
    dindirBlk := rootBlk + 1
    jnlFg := grpFlexFirst (groups - 1)
    jnlStart := grpFlexFirst (groups - 1) * blksPerGrp + flexMeta }

def doCreateWrites (m : Mkfs) : Img Int := doWrites m layout

/-- The seed of the checksums, `crc32c_e2fs(~0, uuid, 16)`. -/
def seedOf (uuid : ByteVec 16) : BitVec 32 := crc32cE2fs (BitVec.allOnes 32) uuid.toList

/-- What `ext4_create_img` passes to `do_create_writes`. -/
def mkfsOf (uuid hashSeed : ByteVec 16) (now : Nat) : Mkfs :=
  { now := now, seed := seedOf uuid, uuid := uuid, hashSeed := hashSeed }

end Cage.Ext4
