import Cage.Ext4.Image

/-!
`ext4_image_valid` and `ext4_create_img` of `src/ext4/ext4.c`, and `gen_uuid` of
`src/ext4/util.c`.
-/

namespace Cage.Ext4

open Lib.Buffer Lib.Program Util

/-- The version and variant bits that `gen_uuid` puts in. -/
def uuidBits (uuid : ByteVec 16) : ByteVec 16 :=
  let uuid := poke uuid 6 ((byte uuid 6 &&& 0x0f) ||| 0x40)
  poke uuid 8 ((byte uuid 8 &&& 0x3f) ||| 0x80)

def genUuid : Prog Call Call.Ret (Option (ByteVec 16)) := do
  let r ← (perform (Call.getrandom 16) : Prog Call Call.Ret (Option (ByteVec 16)))
  match r with
  | none => pure none
  | some uuid => pure (some (uuidBits uuid))

/-- What `ext4_create_img` does with the new file, up to the label `fail`. -/
def fillImg (fd : Fd) : Prog Call Call.Ret Int := do
  let ok ← (perform (Call.ftruncate fd (blocks * blkSize)) : Prog Call Call.Ret Bool)
  if ok = false then pure (-1)
  else do
    let uuid ← genUuid
    match uuid with
    | none => pure (-1)
    | some uuid => do
        let hashSeed ← genUuid
        match hashSeed with
        | none => pure (-1)
        | some hashSeed => do
            let now ← (perform Call.time : Prog Call Call.Ret Nat)
            onFile fd (doCreateWrites (mkfsOf uuid hashSeed now))

def ext4CreateImg (path : CStr) : Steps Int := do
  let fd ← Steps.sys (.create path 0o600)
  match fd with
  | none => pure (-1)
  | some fd => do
      let rc ← StateT.lift (fillImg fd)
      Steps.sys (.close fd)
      if rc ≠ 0 then do
        let _ ← Steps.ioUnlink path
        pure (-1)
      else pure 0

/-- The test of `ext4_image_valid` on the open image. -/
def imgValid (fd : Fd) : Prog Call Call.Ret Bool := do
  let size ← (perform (Call.fstat fd) : Prog Call Call.Ret (Option Nat))
  if size ≠ some (blocks * blkSize) then pure false
  else do
    let (r, m) ← (perform (Call.file fd (.pread 2 (sbOff + 0x38))) :
      Prog Call Call.Ret (Int × ByteVec 2))
    pure (r = 2 && rd16 m 0 = ext4SuperMagic)

def ext4ImageValid (path : CStr) : Steps Bool := do
  let fd ← Steps.sys (.openRead path)
  match fd with
  | none => pure false
  | some fd => do
      let ok ← StateT.lift (imgValid fd)
      Steps.sys (.close fd)
      pure ok

end Cage.Ext4
