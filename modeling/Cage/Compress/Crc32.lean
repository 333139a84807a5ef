import Cage.Lib.CrcTable

/-!
The checksum of `src/compress/crc32.c`: a table built on first use, and a loop
over the bytes that looks the register's low byte up in it.
-/

namespace Cage.Compress

open Lib.Bits Lib.Checked Lib.Crc

variable {σ : Type}

/-- The statics `crc32_tab` and `crc32_ready`. -/
structure Crc32 where
  tab : List (BitVec 32)
  ready : Bool
  deriving DecidableEq, Repr

def Crc32.init : Crc32 := { tab := List.replicate 256 0, ready := false }

/-- The loop of `crc32_init` over the bits of one entry, with `k` left. -/
def crc32Entry : Nat → BitVec 32 → BitVec 32
  | 0, c => c
  | k + 1, c => crc32Entry k (if c &&& 1 ≠ 0 then 0xEDB88320 ^^^ (c >>> 1) else c >>> 1)

def crc32Init : Exec Crc32 Unit := do
  let s ← get
  if s.ready then
    pure ()
  else do
    let tab ← loopUp (fun i tab => store tab i (crc32Entry 8 (BitVec.ofNat 32 i))) 256 0 s.tab
    set { tab := tab, ready := true : Crc32 }

def crc32Update (crc : BitVec 32) (p : List UInt8) (len : Nat) : Exec Crc32 (BitVec 32) := do
  let s ← get
  let crc ← loopUp (fun i crc => do
    let b ← load p i
    let t ← load s.tab ((crc ^^^ BitVec.ofNat 32 b.toNat) &&& 0xFF).toNat
    pure (t ^^^ (crc >>> 8))) len 0 (~~~crc)
  pure (~~~crc)

/-- The polynomial of RFC 1952, lowest coefficient first. -/
def crcPoly : BitVec 32 := 0xEDB88320

/-- The CRC-32 of RFC 1952. -/
def crc32 (bytes : List UInt8) : BitVec 32 := ~~~ divide crcPoly (~~~ 0) (byteBits bytes)

/-- The table that divides a byte at a time. -/
def crcTable : List (BitVec 32) :=
  (List.range 256).map fun i => (shift crcPoly)^[8] (BitVec.ofNat 32 i)

/-- The table is there, and right once it is marked as built. -/
structure Crc32.Ok (s : Crc32) : Prop where
  size : s.tab.length = 256
  built : s.ready = true → s.tab = crcTable

theorem Crc32.init_ok : Crc32.init.Ok := ⟨List.length_replicate, nofun⟩

theorem crc32Entry_eq (k : Nat) (c : BitVec 32) : crc32Entry k c = (shift crcPoly)^[k] c := by
  induction k generalizing c with
  | zero => rfl
  | succ k ih =>
    rw [crc32Entry, ih, Function.iterate_succ_apply]
    exact congrArg _ (shift_of_and crcPoly c)

theorem crc32Init_spec (s : Crc32) (h : s.Ok) :
    Ends crc32Init s fun _ s' => s'.Ok ∧ s'.ready = true := by
  apply Ends.get_bind
  by_cases hready : s.ready
  · rw [if_pos hready]
    exact Ends.pure ⟨h, hready⟩
  · rw [if_neg hready]
    apply Ends.bind (table_ends crcPoly (fun i => crc32Entry_eq 8 (BitVec.ofNat 32 i)) h.size)
    rintro tab s₁ ⟨-, rfl⟩
    exact ⟨(), _, rfl, ⟨table_length crcPoly, fun _ => rfl⟩, rfl⟩

theorem crc32Update_spec (crc : BitVec 32) (p : List UInt8) (len : Nat) (s : Crc32) (h : s.Ok)
    (hready : s.ready = true) (hlen : len ≤ p.length) :
    Ends (crc32Update crc p len) s fun r s' => s' = s ∧
      r = ~~~ divide crcPoly (~~~crc) (byteBits (p.take len)) := by
  apply Ends.get_bind
  have htab : s.tab = table crcPoly := h.built hready
  rw [htab]
  apply Ends.bind (bytes_ends crcPoly (~~~crc) (by decide) p hlen)
  rintro c s₁ ⟨rfl, rfl⟩
  exact Ends.pure ⟨rfl, rfl⟩

end Cage.Compress
