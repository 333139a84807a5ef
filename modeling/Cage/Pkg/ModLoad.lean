import Cage.Compress.Decompress
import Cage.Pkg.Modules
import Cage.Util.IoRead

/-!
`src/pkg/modload.c` with the formats of `src/pkg/mod_format.c`: a module file, compressed
or not, is handed to the kernel. A write that gets no answer does not return.
-/

namespace Cage.Pkg

open Compress Util

/-- `struct mod_format` -/
structure ModFormat where
  code : Nat
  magic : Bytes
  suffix : Bytes
  filter : Option CStr
  deriving DecidableEq, Repr

def formats : List ModFormat :=
  [⟨1, [0x1F, 0x8B], lit ".gz", none⟩, ⟨2, [0xFD, 0x37], lit ".xz", some (lit "xzcat")⟩,
    ⟨3, [0x28, 0xB5, 0x2F, 0xFD], lit ".zst", some (lit "zstdcat")⟩]

def modFormatByMagic (p : Bytes) : Option ModFormat :=
  formats.find? fun f => p.length ≥ f.magic.length && p.take f.magic.length == f.magic

def modFormatByCode (code : Nat) : Option ModFormat := formats.find? fun f => f.code == code

def decompressMagic (p : Bytes) : Nat := ((modFormatByMagic p).map ModFormat.code).getD 0

/-- How `write` answers: it fails, it is interrupted, or it takes that many bytes. -/
inductive WriteAns where
  | fails
  | again
  | takes (n : Nat)
  deriving DecidableEq, Repr

/-- What `finit_module` has been given, and its error number. -/
structure Finit where
  data : Bytes
  flags : Nat
  errno : Int
  deriving DecidableEq, Repr

/-- A filter that has been started: what `fread` gives of its output, piece by piece, and
whether it ends well. -/
structure Filtered where
  pieces : List Bytes
  ok : Bool
  deriving DecidableEq, Repr

structure LoadHost where
  /-- the file, if it can be opened -/
  content : Option Bytes
  /-- how many bytes the `read` for the magic number would like to give, unless it fails -/
  peek : Option Nat
  /-- the answer to the n-th `finit_module` -/
  finit : Nat → Bytes → Nat → Int
  reader : FileRead.Host
  memfd : Bool
  seeks : Bool
  filters : CStr → Option Filtered

structure LoadState where
  /-- the answers to the writes to come -/
  writes : List WriteAns
  /-- the table of the checksum -/
  crc : Crc32
  finits : List Finit

abbrev LoadM := OptionT (StateM LoadState)

def moduleInitCompressedFile : Nat := 4
def eopnotsupp : Int := 95

section

variable (h : LoadHost)

def sysFinitModule (data : Bytes) (flags : Nat) : LoadM Int := do
  let s ← get
  let errno := h.finit s.finits.length data flags
  set { s with finits := s.finits ++ [Finit.mk data flags errno] }
  pure errno

/-- `finit_module_fd`, with `errno`. -/
def finitModuleFd (data : Bytes) (flags : Nat) : LoadM (Int × Int) := do
  let errno ← sysFinitModule h data flags
  if errno ≠ 0 then pure (if errno = eexist then 0 else -1, errno) else pure (0, errno)

/-- `write_all` into a file with `mem`, with what is in it then. -/
def writeAnswers : Bytes → List WriteAns → Bytes → Option (Int × Bytes) × List WriteAns
  | [], answers, mem => (some (0, mem), answers)
  | _ :: _, [], _ => (none, [])
  | _ :: _, .fails :: answers, mem => (some (-1, mem), answers)
  | c :: buf, .again :: answers, mem => writeAnswers (c :: buf) answers mem
  | c :: buf, .takes n :: answers, mem =>
      writeAnswers ((c :: buf).drop n) answers (mem ++ (c :: buf).take n)

def writeAll (buf mem : Bytes) : LoadM (Int × Bytes) := fun s =>
  let r := writeAnswers buf s.writes mem
  (r.1, { s with writes := r.2 })

def bufWriteToFd (data : Bytes) : LoadM (Int × Bytes) := do
  let r ← writeAll data []
  if r.1 ≠ 0 then pure (-1, r.2) else pure (if h.seeks then 0 else -1, r.2)

/-- `open_and_read` of the file into an empty buffer. -/
def openAndReadFile : LoadM (Int × Bytes) :=
  match h.content with
  | none => pure (-1, [])
  | some content =>
      match FileRead.openAndRead h.reader (FileRead.Reader.start content) with
      | .ok (r, s) => pure (r, s.buf.bytes)
      | .error _ => failure

/-- The table of the checksum is kept from one run to the next. -/
def gzipEnd : Except Lib.Checked.Fault (Int × Gz) → LoadM (Int × Bytes)
  | .ok (r, gz) => do
      modify fun s => { s with crc := gz.crc }
      pure (r, gz.out.data)
  | .error _ => failure

/-- `decompress_gzip` into an empty buffer. -/
def decompressBuffer (input : Bytes) : LoadM (Int × Bytes) := do
  let s ← get
  gzipEnd (decompressGzip input ⟨s.crc, Buf.init⟩)

/-- `decompress_gzip_to_fd`, with what is in the file. -/
def decompressGzipToFd : LoadM (Int × Bytes) := do
  let compressed ← openAndReadFile h
  if compressed.1 ≠ 0 then pure (-1, [])
  else do
    let data ← decompressBuffer compressed.2
    if data.1 ≠ 0 then pure (-1, [])
    else if h.memfd then do
      let r ← bufWriteToFd h data.2
      if r.1 ≠ 0 then pure (-1, []) else pure (0, r.2)
    else pure (-1, [])

def pipeToFd : List Bytes → Bytes → LoadM (Int × Bytes)
  | [], mem => pure (0, mem)
  | piece :: pieces, mem =>
      if piece = [] then pure (0, mem)
      else do
        let r ← writeAll piece mem
        if r.1 ≠ 0 then pure (-1, r.2) else pipeToFd pieces r.2

def decompressXzstdToFd (filter : CStr) : LoadM (Int × Bytes) :=
  match h.filters filter with
  | none => pure (-1, [])
  | some f => do
      let r ← pipeToFd f.pieces []
      if !f.ok ∨ r.1 ≠ 0 then pure (-1, r.2) else pure (if h.seeks then 0 else -1, r.2)

def finishFinit (data : Bytes) : LoadM Int := do
  let r ← finitModuleFd h data 0
  if r.1 ≠ 0 then pure (-1) else pure 0

def loadDecompressed (comp : Nat) : LoadM Int :=
  match modFormatByCode comp with
  | none => pure (-1)
  | some f =>
      match f.filter with
      | none => do
          let r ← decompressGzipToFd h
          if r.1 ≠ 0 then pure (-1) else finishFinit h r.2
      | some filter =>
          if h.memfd then do
            let r ← decompressXzstdToFd h filter
            if r.1 ≠ 0 then pure (-1) else finishFinit h r.2
          else pure (-1)

def loadCompressedModule (data : Bytes) (comp : Nat) : LoadM Int := do
  let r ← finitModuleFd h data moduleInitCompressedFile
  if r.1 = 0 then pure 0
  else if r.2 ≠ eopnotsupp then pure (-1)
  else loadDecompressed h comp

/-- The bytes that `read` gives of the first four. -/
def magicBytes (content : Bytes) : Bytes :=
  match h.peek with
  | none => []
  | some n => content.take (min n 4)

def loadModulePath : LoadM Int :=
  match h.content with
  | none => pure (-1)
  | some content =>
      let comp := decompressMagic (magicBytes h content)
      if comp ≠ 0 then loadCompressedModule h content comp else finishFinit h content

end

end Cage.Pkg
