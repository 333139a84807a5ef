import Cage.Ext4.Util
import Cage.Util.Syscall

/-!
`src/ext4/sb.c`: the superblock, the group descriptors and their backups, and
the writing functions of `src/ext4/util.c`. A function that fills a buffer
returns it; a function that reads or writes the image is a program. The image is
the file behind `fd` of `struct mkfs`.
-/

namespace Cage.Ext4

open Lib.Buffer Lib.Program Util

/-- A program on the image. -/
abbrev Img := Prog ImgCall ImgCall.Ret

def pread (n off : Nat) : Img (Int × ByteVec n) := perform (ImgCall.pread n off)

def pwrite {n : Nat} (data : ByteVec n) (off : Nat) : Img Int := perform (ImgCall.pwrite n data off)

def calloc (n : Nat) : Img Bool := perform (ImgCall.calloc n)

structure Mkfs where
  now : Nat
  seed : BitVec 32
  uuid : ByteVec 16
  hashSeed : ByteVec 16

def writeAt {n : Nat} (buf : ByteVec n) (off : Nat) : Img Int := do
  let r ← pwrite buf off
  pure (if r = n then 0 else -1)

/-- The loop of `write_zeroes`, at most `fuel` times round. -/
def writeZeroesLoop : Nat → Nat → Nat → Img Int
  | 0, _, _ => pure 0
  | fuel + 1, off, len =>
      if len = 0 then pure 0
      else do
        let n := if len < 4096 then len else 4096
        let r ← writeAt (zeros n) off
        if r ≠ 0 then pure (-1) else writeZeroesLoop fuel (off + n) (len - n)

/-- `write_zeroes`. Each round takes something off `len`. -/
def writeZeroes (off len : Nat) : Img Int := writeZeroesLoop len off len

/-- A loop over `k` numbers from `i` on that returns -1 at the first failure. -/
def loopRc (body : Nat → Img Int) : Nat → Nat → Img Int
  | _, 0 => pure 0
  | i, k + 1 => do
      let r ← body i
      if r ≠ 0 then pure (-1) else loopRc body (i + 1) k

abbrev ext4SuperMagic : Nat := 0xEF53
abbrev resizeInode : Nat := 0x0010
abbrev orphanFile : Nat := 0x1000
abbrev compat : Nat := 0x0000002c ||| resizeInode ||| orphanFile
abbrev incompat : Nat := 0x000022c2
abbrev roCompat : Nat := 0x0000046b
abbrev ext4InodeUninit : Nat := 0x0004
abbrev ext4BlockUninit : Nat := 0x0002

def fillJbd2Extent (j : ByteVec 68) (jnlStart : Nat) : ByteVec 68 :=
  let j := wr16 j 0 ext4ExtentMagic
  let j := wr16 j 2 1
  let j := wr16 j 4 4
  let j := wr16 j 6 0
  let j := wr32 j 8 0
  let j := wr32 j 12 0
  let j := wr16 j 16 16384
  let j := wr16 j 18 (jnlStart >>> 32)
  let j := wr32 j 20 (jnlStart &&& 0xFFFFFFFF)
  let j := wr32 j 60 0
  wr32 j 64 (16384 * blkSize)

def fillSbJnl (sb : ByteVec 1024) (jnlStart : Nat) : ByteVec 1024 :=
  put sb 0x10C (fillJbd2Extent (zeros 68) jnlStart)

def tableA (usedBlks : Nat) : List (Nat × Nat) :=
  [(0x000, inodesPerGrp * groups), (0x004, blocks),
    (0x008, 0), (0x00C, blocks - usedBlks),
    (0x010, inodesPerGrp * groups - 11), (0x014, 0),
    (0x018, 2), (0x01C, 2),
    (0x020, blksPerGrp), (0x024, blksPerGrp),
    (0x028, inodesPerGrp), (0x02C, 0),
    (0x248, usedBlks)]

def sbWriteU32sA (sb : ByteVec 1024) (usedBlks : Nat) : ByteVec 1024 :=
  (tableA usedBlks).foldl (fun sb e => wr32 sb e.1 e.2) sb

def tableB (now : Nat) (seed : BitVec 32) : List (Nat × Nat) :=
  [(0x030, now), (0x034, 0),
    (0x040, now), (0x04C, 1),
    (0x054, 11), (0x05C, compat),
    (0x060, incompat), (0x064, roCompat),
    (0x0E0, 8), (0x104, 0),
    (0x108, now), (0x268, 0),
    (0x270, seed.toNat)]

def sbWriteU32sB (sb : ByteVec 1024) (now : Nat) (seed : BitVec 32) : ByteVec 1024 :=
  (tableB now seed).foldl (fun sb e => wr32 sb e.1 e.2) sb

def tableU16 : List (Nat × Nat) :=
  [(0x036, 0xFFFF), (0x038, ext4SuperMagic),
    (0x03A, 1), (0x03C, 1),
    (0x03E, 0), (0x050, 0),
    (0x052, 0), (0x058, inodeSize),
    (0x05A, 0),
    (0x0CE, reservedGdt),
    (0x0FE, descSize),
    (0x15C, 32), (0x15E, 32)]

def sbWriteU16s (sb : ByteVec 1024) : ByteVec 1024 := tableU16.foldl (fun sb e => wr16 sb e.1 e.2) sb

def sbSetScalars (sb : ByteVec 1024) (hashSeed : ByteVec 16) : ByteVec 1024 :=
  let sb := put sb 0xEC hashSeed
  let sb := wr8 sb 0x0FC 1
  let sb := wr8 sb 0x0FD 1
  let sb := wr8 sb 0x174 4
  let sb := wr8 sb 0x175 1
  let sb := wr32 sb 0x100 0x000C
  let sb := wr32 sb 0x160 0x0001
  wr32 sb 0x280 12

/-- `wr32(sb + 0x3FC, crc32c_e2fs(~0, sb, 0x3FC))`. -/
def sbSetCsum (sb : ByteVec 1024) : ByteVec 1024 :=
  wr32 sb 0x3FC (crc32cE2fs (BitVec.allOnes 32) (slice sb 0 0x3FC).toList).toNat

/-- The buffer that `write_superblock` fills. -/
def superblock (m : Mkfs) (usedBlks : Nat) : ByteVec 1024 :=
  let sb := sbWriteU32sA (zeros 1024) usedBlks
  let sb := sbWriteU32sB sb m.now m.seed
  let sb := sbWriteU16s sb
  let sb := put sb 0x068 m.uuid
  let sb := sbSetScalars sb m.hashSeed
  let flexMeta := 2 * flexGrpSize + flexGrpSize * (inodesPerGrp * inodeSize / blkSize)
  let sb := fillSbJnl sb (grpFlexFirst (groups - 1) * blksPerGrp + flexMeta)
  sbSetCsum sb

def writeSuperblock (m : Mkfs) (usedBlks : Nat) : Img Int := do
  let r ← writeAt (superblock m usedBlks) sbOff
  pure (if r ≠ 0 then -1 else 0)

def gdtSetAddrs (d : ByteVec descSize) (g : Nat) : ByteVec descSize :=
  let d := wr32 d gBbLo (grpBbBlk g)
  let d := wr32 d gIbLo (grpIbBlk g)
  wr32 d gItLo (grpItBlk g)

def gdtUsedFlex (g fg fb : Nat) : Nat :=
  let dataStart := if fg = 0 then resvGdtBlks + flexMeta else fb + flexMeta
  let used := dataStart - g * blksPerGrp
  if g = 0 then used + 2 else used

def gdtCountUsed (g jnlFg journalBlks : Nat) : Nat :=
  let fg := grpFlexFirst g
  let used := if g = fg then gdtUsedFlex g fg (grpFlexBase g) else 0
  let used := if hasSuper g ∧ g ≠ fg then used + (3 + reservedGdt) else used
  if g = jnlFg then used + journalBlks else used

def gdtSetFreeCounts (d : ByteVec descSize) (g used : Nat) : ByteVec descSize :=
  let grpBlocks := if g < groups - 1 then blksPerGrp else blocks - g * blksPerGrp
  let d := wr16 d gFreeB (if used < grpBlocks then grpBlocks - used else 0)
  let d := wr16 d gFreeI (if g = 0 then inodesPerGrp - 11 else inodesPerGrp)
  wr16 d gUsedD (if g = 0 then 1 else 0)

def gdtSetFlags (d : ByteVec descSize) (g used : Nat) : ByteVec descSize :=
  let flags := if used = 0 ∧ g ≠ groups - 1 then ext4BlockUninit else 0
  let flags := if g > 0 then flags ||| ext4InodeUninit else flags
  wr16 d gFlags flags

def gdtOfGroup (d : ByteVec descSize) (g jnlFg journalBlks : Nat) : ByteVec descSize :=
  let d := gdtSetAddrs d g
  let used := gdtCountUsed g jnlFg journalBlks
  let d := gdtSetFreeCounts d g used
  gdtSetFlags d g used

/-- The buffer that `write_gdt` fills. -/
def gdtTable (jnlFg journalBlks : Nat) : ByteVec (2 * blkSize) :=
  patchAll descSize (fun g d => gdtOfGroup d g jnlFg journalBlks) groups (zeros (2 * blkSize))

def writeGdt (jnlFg journalBlks : Nat) : Img (Int × ByteVec (2 * blkSize)) := do
  let gdt := gdtTable jnlFg journalBlks
  let r ← writeAt gdt (1 * blkSize)
  pure (r, gdt)

def csumBbOne (d : ByteVec descSize) (bbBlk : Nat) (seed : BitVec 32) : Img (Int × ByteVec descSize) := do
  let (r, bm) ← pread blkSize (bbBlk * blkSize)
  if r ≠ blkSize then pure (-1, d)
  else
    let c := crc32cE2fs seed bm.toList
    let d := wr16 d gBbCL (c &&& 0xFFFF).toNat
    let d := wr16 d gBbCH (c >>> 16).toNat
    pure (0, d)

def csumIbOne (d : ByteVec descSize) (ibBlk : Nat) (seed : BitVec 32) : Img (Int × ByteVec descSize) := do
  let (r, bm) ← pread blkSize (ibBlk * blkSize)
  if r ≠ blkSize then pure (-1, d)
  else
    let c := crc32cE2fs seed (slice bm 0 (inodesPerGrp / 8)).toList
    let d := wr16 d gIbCL (c &&& 0xFFFF).toNat
    let d := wr16 d gIbCH (c >>> 16).toNat
    pure (0, d)

def csumOneGroup (d : ByteVec descSize) (g : Nat) (seed : BitVec 32) : Img (Int × ByteVec descSize) := do
  let (r, d) ← csumBbOne d (grpBbBlk g) seed
  if r ≠ 0 then pure (-1, d)
  else do
    let (r, d) ← csumIbOne d (grpIbBlk g) seed
    if r ≠ 0 then pure (-1, d)
    else pure (0, gdtSetCsum d g seed)

/-- The superblock that `write_one_backup` makes of the primary one. -/
def backupSb (sb : ByteVec 1024) (g : Nat) : ByteVec 1024 := sbSetCsum (wr16 sb 0x05A g)

def writeOneBackup (sb : ByteVec 1024) (gdt : ByteVec (2 * blkSize)) (g : Nat) : Img Int := do
  let base := g * blksPerGrp * blkSize
  let r ← writeAt (backupSb sb g) base
  if r ≠ 0 then pure (-1) else writeAt gdt (base + blkSize)

def writeBackups (gdt : ByteVec (2 * blkSize)) : Img Int := do
  let (r, sb) ← pread 1024 sbOff
  if r ≠ 1024 then pure (-1)
  else
    loopRc (fun g => if hasSuper g then writeOneBackup sb gdt g else pure 0) 1 (groups - 1)

/-- The loop of `write_csum_backups` over `k` groups from `g` on. -/
def csumGroups (seed : BitVec 32) :
    Nat → Nat → ByteVec (2 * blkSize) → Img (Int × ByteVec (2 * blkSize))
  | _, 0, gdt => pure (0, gdt)
  | g, k + 1, gdt => do
      let (r, d) ← csumOneGroup (slice gdt (g * descSize) descSize) g seed
      if r ≠ 0 then pure (-1, gdt) else csumGroups seed (g + 1) k (put gdt (g * descSize) d)

def writeCsumBackups (gdt : ByteVec (2 * blkSize)) (seed : BitVec 32) : Img Int := do
  let (r, gdt) ← csumGroups seed 0 groups gdt
  if r ≠ 0 then pure (-1)
  else do
    let r ← writeAt gdt (1 * blkSize)
    if r ≠ 0 then pure (-1) else writeBackups gdt

def countBackupBlks : Nat :=
  (List.range' 1 (groups - 1)).foldl (fun n g => if hasSuper g then n + 3 else n) 0

end Cage.Ext4
