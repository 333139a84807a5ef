import Cage.Util.CStr
import Cage.Util.Mem

/-!
The readers of whole files: `src/util/io_read.c`, and `open_and_read` of
`src/compress/decompress.c`. The buffer is here with its memory, of which the first
`len` bytes are in use; a read past the memory is a fault.
-/

namespace Cage.Util.FileRead

open Lib.Checked

/-- `buf_t`; the capacity is the length of the memory. -/
structure FileBuf where
  mem : List UInt8
  len : Nat
  deriving DecidableEq, Repr

/-- `BUF_INIT`. -/
def FileBuf.init : FileBuf := { mem := [], len := 0 }

/-- The bytes in use. -/
def FileBuf.bytes (b : FileBuf) : List UInt8 := b.mem.take b.len

/-- The bytes `data` at `off`. -/
def overwrite (mem : List UInt8) (off : Nat) (data : List UInt8) : List UInt8 :=
  mem.take off ++ data ++ mem.drop (off + data.length)

/-- The process with an open file: what is left of it, and the calls of `read` so
far, each with its place in the buffer and the bytes asked for. -/
structure Reader where
  rest : List UInt8
  calls : List (Nat × Nat)
  stderr : List CStr
  buf : FileBuf
  deriving DecidableEq, Repr

def Reader.start (content : List UInt8) : Reader :=
  { rest := content, calls := [], stderr := [], buf := FileBuf.init }

/-- `sched` says for each read how many bytes it would like to give, or that it
fails; `junk` is what fresh memory holds. -/
structure Host where
  opens : Bool
  sched : Nat → Option Nat
  junk : Nat → UInt8

/-- What a read of `chunk` bytes gives: at least one byte before the end of the
file, and nothing there. -/
def readCount (want chunk left : Nat) : Nat := min (max want 1) (min chunk left)

variable (h : Host)

def sysRead (chunk : Nat) : Exec Reader Int := do
  let s ← get
  if s.buf.len + chunk ≤ s.buf.mem.length then
    match h.sched s.calls.length with
    | none => do
        set { s with calls := s.calls ++ [(s.buf.len, chunk)] }
        pure (-1)
    | some want => do
        let n := readCount want chunk s.rest.length
        set { s with
          rest := s.rest.drop n
          calls := s.calls ++ [(s.buf.len, chunk)]
          buf := { s.buf with mem := overwrite s.buf.mem s.buf.len (s.rest.take n) } }
        pure n
  else
    fault .bounds

/-- The buffer without the contents of the memory that is not in use. -/
def FileBuf.toBuf (b : FileBuf) : Buf := { data := b.bytes, cap := b.mem.length }

/-- The memory with what a larger capacity adds to it. -/
def FileBuf.widen (b : FileBuf) (cap : Nat) : FileBuf :=
  { b with mem := b.mem ++ (List.range (cap - b.mem.length)).map h.junk }

/-- `buf_grow` of the buffer with its memory. -/
def bufGrow (need : Nat) : Exec Reader Int :=
  zoom (fun s => s.buf.toBuf) (fun s b => { s with buf := s.buf.widen h b.cap })
    (Util.bufGrow need)

def chunk : Nat := 4096

def readError (op path : CStr) (quiet : Bool) : Exec Reader Unit :=
  if quiet then pure ()
  else modify fun s =>
    { s with stderr := s.stderr ++ [lit "cage: unable to " ++ op ++ lit " " ++ path ++ lit "\n"] }

def readChunkSize (len cap : Nat) : Nat :=
  if cap = 0 ∨ len > cap ∨ cap - len ≥ chunk then chunk else cap - len + 1

def appendRead (n : Nat) (path : CStr) (quiet : Bool) (cap : Nat) : Exec Reader Int := do
  modify fun s => { s with buf := { s.buf with len := s.buf.len + n } }
  let s ← get
  if cap = 0 ∨ s.buf.len ≤ cap then pure 0
  else do
    if quiet then pure ()
    else modify fun s =>
      { s with stderr := s.stderr ++ [lit "cage: " ++ path ++ lit " too large\n"] }
    pure (-1)

/-- The loop of `read_loop`, cut off after `fuel` rounds. -/
def readLoop (path : CStr) (quiet : Bool) (cap : Nat) : Nat → Exec Reader Int
  | 0 => fault .fuel
  | fuel + 1 => do
      let s ← get
      let size := readChunkSize s.buf.len cap
      let g ← bufGrow h size
      if g ≠ 0 then pure (-1)
      else do
        let n ← sysRead h size
        if n < 0 then do
          readError (lit "read") path quiet
          pure (-1)
        else if n = 0 then pure 0
        else do
          let r ← appendRead n.toNat path quiet cap
          if r ≠ 0 then pure (-1) else readLoop path quiet cap fuel

def bufTerminate : Exec Reader Int := do
  let g ← bufGrow h 1
  if g ≠ 0 then pure (-1)
  else do
    let s ← get
    let mem ← store s.buf.mem s.buf.len 0
    set { s with buf := { s.buf with mem := mem } }
    pure 0

/-- A round reads a byte at least, so one more than there are bytes is enough. -/
def readFile (path : CStr) (quiet : Bool) (cap : Nat) : Exec Reader Int := do
  if h.opens = false then do
    readError (lit "open") path quiet
    pure (-1)
  else do
    let s ← get
    let r ← readLoop h path quiet cap (s.rest.length + 1)
    if r = 0 then bufTerminate h else pure r

def ioRead (path : CStr) : Exec Reader Int := readFile h path false 0

def ioReadCap (path : CStr) (cap : Nat) : Exec Reader Int := readFile h path false cap

def ioReadQuiet (path : CStr) : Exec Reader Int := readFile h path true 0

/-- The loop of `open_and_read`, cut off after `fuel` rounds. -/
def openAndReadLoop : Nat → Exec Reader Int
  | 0 => fault .fuel
  | fuel + 1 => do
      let g ← bufGrow h chunk
      if g ≠ 0 then pure (-1)
      else do
        let n ← sysRead h chunk
        if n < 0 then pure (-1)
        else do
          modify fun s => { s with buf := { s.buf with len := s.buf.len + n.toNat } }
          if n = chunk then openAndReadLoop fuel else pure 0

def openAndRead : Exec Reader Int := do
  if h.opens = false then pure (-1)
  else do
    let s ← get
    openAndReadLoop h (s.rest.length + 1)

end Cage.Util.FileRead
