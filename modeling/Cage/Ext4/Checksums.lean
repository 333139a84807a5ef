import Cage.Compress.Crc32
import Cage.Ext4.Csum

/-!
The two checksums as the code runs them, on the statics that hold their tables, against
the division of the register bit by bit.
-/

namespace Cage.Ext4

open Lib.Bits Lib.Checked Lib.Crc

/-- The statics `tab` and `init` of `ext4_crc32c`. -/
structure Crc32c where
  tab : List (BitVec 32)
  init : Bool
  deriving DecidableEq, Repr

def Crc32c.start : Crc32c := { tab := List.replicate 256 0, init := false }

/-- The table of `ext4_crc32c`, built on the first call. -/
def initCrc32c : Exec Crc32c Unit := do
  let s ← get
  if s.init then
    pure ()
  else do
    let tab ← loopUp (fun i tab => store tab i (crc32cEntry 8 (BitVec.ofNat 32 i))) 256 0 s.tab
    set { tab := tab, init := true : Crc32c }

/-- `ext4_crc32c` on its statics. -/
def runExt4Crc32c (crc : BitVec 32) (p : List UInt8) (len : Nat) : Exec Crc32c (BitVec 32) := do
  initCrc32c
  let s ← get
  let crc ← loopUp (fun i crc => do
    let b ← load p i
    let t ← load s.tab ((crc ^^^ BitVec.ofNat 32 b.toNat) &&& 0xFF).toNat
    pure (t ^^^ (crc >>> 8))) len 0 (~~~crc)
  pure (~~~crc)

/-- `crc32c_e2fs` on the statics. -/
def runCrc32cE2fs (crc : BitVec 32) (p : List UInt8) (len : Nat) : Exec Crc32c (BitVec 32) := do
  let r ← runExt4Crc32c (~~~crc) p len
  pure (~~~r)

/-- The table is there, and right once it is marked as built. -/
structure Crc32c.Ok (s : Crc32c) : Prop where
  size : s.tab.length = 256
  built : s.init = true → s.tab = table crc32cPoly

theorem Crc32c.start_ok : Crc32c.start.Ok := ⟨List.length_replicate, nofun⟩

theorem initCrc32c_spec {s : Crc32c} (h : s.Ok) :
    Ends initCrc32c s fun _ s' => s'.Ok ∧ s'.init = true := by
  apply Ends.get_bind
  by_cases hinit : s.init
  · rw [if_pos hinit]
    exact Ends.pure ⟨h, hinit⟩
  · rw [if_neg hinit]
    apply Ends.bind (table_ends crc32cPoly (fun i => crc32cEntry_eq 8 (BitVec.ofNat 32 i)) h.size)
    rintro tab s₁ ⟨-, rfl⟩
    exact ⟨(), _, rfl, ⟨table_length crc32cPoly, fun _ => rfl⟩, rfl⟩

theorem runExt4Crc32c_spec (crc : BitVec 32) (p : List UInt8) {len : Nat} {s : Crc32c} (h : s.Ok)
    (hlen : len ≤ p.length) :
    Ends (runExt4Crc32c crc p len) s fun r s' =>
      s'.Ok ∧ r = ~~~ divide crc32cPoly (~~~crc) (byteBits (p.take len)) := by
  apply Ends.bind (initCrc32c_spec h)
  rintro _ s' ⟨hok, hinit⟩
  apply Ends.get_bind
  have htab : s'.tab = table crc32cPoly := hok.built hinit
  rw [htab]
  apply Ends.bind (bytes_ends crc32cPoly (~~~crc) (by decide) p hlen)
  rintro c s₁ ⟨rfl, rfl⟩
  exact Ends.pure ⟨hok, rfl⟩

theorem runCrc32cE2fs_spec (crc : BitVec 32) (p : List UInt8) {len : Nat} {s : Crc32c} (h : s.Ok)
    (hlen : len ≤ p.length) :
    Ends (runCrc32cE2fs crc p len) s fun r s' =>
      s'.Ok ∧ r = divide crc32cPoly crc (byteBits (p.take len)) := by
  apply Ends.bind (runExt4Crc32c_spec (~~~crc) p h hlen)
  rintro r s' ⟨hok, rfl⟩
  refine Ends.pure ⟨hok, ?_⟩
  rw [BitVec.not_not, BitVec.not_not]

/-- The statics make no difference. -/
theorem runCrc32cE2fs_pure (crc : BitVec 32) (p : List UInt8) {s : Crc32c} (h : s.Ok) :
    Ends (runCrc32cE2fs crc p p.length) s fun r _ => r = crc32cE2fs crc p := by
  refine (runCrc32cE2fs_spec crc p h (Nat.le_refl _)).mono ?_
  rintro r s' ⟨-, hr⟩
  rw [hr, List.take_length, crc32cE2fs_divide]

/-- CRC-32 bit by bit: the register is inverted before and after. -/
def crc32Serial (crc : BitVec 32) (data : List UInt8) : BitVec 32 :=
  ~~~ divide Compress.crcPoly (~~~crc) (byteBits data)

/-- CRC-32C bit by bit, as ext4 has it: the register is the checksum. -/
def crc32cSerial (crc : BitVec 32) (data : List UInt8) : BitVec 32 :=
  divide crc32cPoly crc (byteBits data)

theorem crc32Serial_append (crc : BitVec 32) (a b : List UInt8) :
    crc32Serial crc (a ++ b) = crc32Serial (crc32Serial crc a) b := by
  unfold crc32Serial
  rw [byteBits_append, divide_append, BitVec.not_not]

theorem crc32cSerial_append (crc : BitVec 32) (a b : List UInt8) :
    crc32cSerial crc (a ++ b) = crc32cSerial (crc32cSerial crc a) b := by
  unfold crc32cSerial
  rw [byteBits_append, divide_append]

/-- On all statics with `ok`, `update` is the checksum `serial`, whether it is given the
bytes at once or in two parts. -/
structure Computes {σ : Type} (ok : σ → Prop)
    (update : BitVec 32 → List UInt8 → Nat → Exec σ (BitVec 32))
    (serial : BitVec 32 → List UInt8 → BitVec 32) : Prop where
  whole : ∀ s, ok s → ∀ crc data,
    Ends (update crc data data.length) s fun r s' => ok s' ∧ r = serial crc data
  parts : ∀ s, ok s → ∀ crc a b, Ends (do
    let c ← update crc a a.length
    update c b b.length) s fun r s' => ok s' ∧ r = serial crc (a ++ b)

theorem Computes.of_whole {σ : Type} {ok : σ → Prop}
    {update : BitVec 32 → List UInt8 → Nat → Exec σ (BitVec 32)}
    {serial : BitVec 32 → List UInt8 → BitVec 32}
    (hwhole : ∀ s, ok s → ∀ crc data,
      Ends (update crc data data.length) s fun r s' => ok s' ∧ r = serial crc data)
    (happend : ∀ crc a b, serial crc (a ++ b) = serial (serial crc a) b) :
    Computes ok update serial where
  whole := hwhole
  parts s hs crc a b := by
    apply Ends.bind (hwhole s hs crc a)
    rintro c s' ⟨hs', rfl⟩
    rw [happend]
    exact hwhole s' hs' _ b

/-- The table of `crc32_update` is built. -/
def Crc32Ready (s : Compress.Crc32) : Prop := s.Ok ∧ s.ready = true

/-- From the statics as the program starts, and on all that the calls leave:
after `crc32_init`, `crc32_update` is CRC-32, and `crc32c_e2fs` is CRC-32C from the
first call on. -/
theorem checksums_serial :
    Compress.Crc32.init.Ok ∧ Crc32c.start.Ok ∧
      (∀ s : Compress.Crc32, s.Ok → Ends Compress.crc32Init s fun _ s' => Crc32Ready s') ∧
      Computes Crc32Ready Compress.crc32Update crc32Serial ∧
      Computes Crc32c.Ok runCrc32cE2fs crc32cSerial := by
  refine ⟨Compress.Crc32.init_ok, Crc32c.start_ok, fun s hs => Compress.crc32Init_spec s hs,
    Computes.of_whole (fun s hs crc data => ?_) crc32Serial_append,
    Computes.of_whole (fun s hs crc data => ?_) crc32cSerial_append⟩
  · refine (Compress.crc32Update_spec crc data data.length s hs.1 hs.2 (Nat.le_refl _)).mono ?_
    rintro r s' ⟨rfl, hr⟩
    rw [List.take_length] at hr
    exact ⟨hs, hr⟩
  · refine (runCrc32cE2fs_spec crc data hs (Nat.le_refl _)).mono ?_
    rintro r s' ⟨hok, hr⟩
    rw [List.take_length] at hr
    exact ⟨hok, hr⟩

end Cage.Ext4
