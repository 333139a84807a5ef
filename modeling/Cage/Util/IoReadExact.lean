import Cage.Util.IoRead

/-!
The readers of `io_read.c` are exact however short the reads are.
-/

namespace Cage.Util.FileRead

open Lib.Checked

/-- A host on which the file opens and no read fails. -/
def shortReads (pick : Nat → Nat) (junk : Nat → UInt8) : Host :=
  { opens := true, sched := fun i => some (pick i), junk := junk }

/-- What is in use, and what is left, make up the file. -/
structure Holds (content : List UInt8) (s : Reader) : Prop where
  split : s.buf.bytes ++ s.rest = content
  room : s.buf.len ≤ s.buf.mem.length

theorem FileBuf.length_bytes {b : FileBuf} (h : b.len ≤ b.mem.length) : b.bytes.length = b.len := by
  rw [FileBuf.bytes, List.length_take, Nat.min_eq_left h]

theorem holds_start (content : List UInt8) : Holds content (Reader.start content) :=
  ⟨rfl, Nat.le_refl 0⟩

theorem Holds.length {content : List UInt8} {s : Reader} (h : Holds content s) :
    s.buf.len + s.rest.length = content.length := by
  rw [← h.split, List.length_append, FileBuf.length_bytes h.room]

theorem readCount_le (want chunk left : Nat) : readCount want chunk left ≤ left :=
  Nat.le_trans (Nat.min_le_right ..) (Nat.min_le_right ..)

theorem readCount_le_chunk (want chunk left : Nat) : readCount want chunk left ≤ chunk :=
  Nat.le_trans (Nat.min_le_right ..) (Nat.min_le_left ..)

theorem readCount_eq_zero {want chunk left : Nat} (hchunk : 0 < chunk) :
    readCount want chunk left = 0 ↔ left = 0 := by
  unfold readCount
  omega

theorem overwrite_take {mem data : List UInt8} {off : Nat} (h : off ≤ mem.length) :
    (overwrite mem off data).take (off + data.length) = mem.take off ++ data := by
  have hlen : (mem.take off ++ data).length = off + data.length := by
    rw [List.length_append, List.length_take, Nat.min_eq_left h]
  unfold overwrite
  rw [← hlen, List.take_left]

theorem length_overwrite {mem data : List UInt8} {off : Nat} (h : off + data.length ≤ mem.length) :
    (overwrite mem off data).length = mem.length := by
  unfold overwrite
  rw [List.length_append, List.length_append, List.length_take, List.length_drop]
  omega

variable {pick : Nat → Nat} {junk : Nat → UInt8} {h : Host} {s : Reader}

/-- `buf_grow` makes room and keeps what is there. -/
theorem bufGrow_spec (need : Nat) (hroom : s.buf.len ≤ s.buf.mem.length) :
    Ends (bufGrow h need) s fun r s' => r = 0 ∧ s' = { s with buf := s'.buf } ∧
      s'.buf.len = s.buf.len ∧ s'.buf.bytes = s.buf.bytes ∧
      s.buf.len + need ≤ s'.buf.mem.length := by
  refine Ends.zoom ((Util.bufGrow_spec need s.buf.toBuf).mono ?_)
  rintro r b ⟨hr, -, hcap⟩
  refine ⟨hr, rfl, rfl, List.take_append_of_le_length hroom, ?_⟩
  rw [FileBuf.toBuf, FileBuf.length_bytes hroom] at hcap
  unfold FileBuf.widen
  rw [List.length_append, List.length_map, List.length_range]
  omega

/-- What one read leaves: more in the memory, and less of the file. -/
structure Read (s s' : Reader) (size n : Nat) : Prop where
  rest : s'.rest = s.rest.drop n
  calls : s'.calls = s.calls ++ [(s.buf.len, size)]
  len : s'.buf.len = s.buf.len
  mem : s'.buf.mem.take (s.buf.len + n) = s.buf.bytes ++ s.rest.take n
  room : s.buf.len + n ≤ s'.buf.mem.length

/-- What a round of a loop comes to: its read fails and changes nothing, or it takes a
piece of what is left. -/
inductive Round (h : Host) (s : Reader) (size : Nat) : Int → Reader → Prop
  | fails {s' : Reader} : h.sched s.calls.length = none → s'.rest = s.rest →
      s'.buf.len = s.buf.len → s'.buf.bytes = s.buf.bytes → s.buf.len ≤ s'.buf.mem.length →
      Round h s size (-1) s'
  | reads {s' : Reader} (want : Nat) : h.sched s.calls.length = some want →
      Read s s' size (readCount want size s.rest.length) →
      Round h s size (readCount want size s.rest.length : Nat) s'

theorem sysRead_spec {size : Nat} (hroom : s.buf.len + size ≤ s.buf.mem.length) :
    Ends (sysRead h size) s (Round h s size) := by
  refine Ends.get_bind ?_
  rw [if_pos hroom]
  cases hsched : h.sched s.calls.length with
  | none =>
    exact Ends.set_bind (Ends.pure (.fails hsched rfl rfl rfl (Nat.le_trans (Nat.le_add_right ..) hroom)))
  | some want =>
    have hle := readCount_le want size s.rest.length
    have hsize := readCount_le_chunk want size s.rest.length
    have hdata : (s.rest.take (readCount want size s.rest.length)).length =
        readCount want size s.rest.length := by rw [List.length_take, Nat.min_eq_left hle]
    refine Ends.set_bind (Ends.pure (.reads want hsched ⟨rfl, rfl, rfl, ?_, ?_⟩))
    · have htake := @overwrite_take s.buf.mem
        (s.rest.take (readCount want size s.rest.length)) s.buf.len (by omega)
      rwa [hdata] at htake
    · rw [length_overwrite (by omega)]
      omega

/-- One round of a loop: room is made for the read, which then takes place. -/
theorem round_spec {f : Int → Exec Reader Int} {size : Nat} {post : Int → Reader → Prop}
    (hroom : s.buf.len ≤ s.buf.mem.length)
    (hnext : ∀ n s', Round h s size n s' → Ends (f n) s' post) :
    Ends (do
      let g ← bufGrow h size
      if g ≠ 0 then pure (-1)
      else do
        let n ← sysRead h size
        f n) s post := by
  refine Ends.bind (bufGrow_spec size hroom) ?_
  rintro _ s₁ ⟨rfl, hbuf, hlen, hbytes, hgrown⟩
  have hrest : s₁.rest = s.rest := by rw [hbuf]
  have hcalls : s₁.calls = s.calls := by rw [hbuf]
  rw [if_neg (by decide)]
  refine Ends.bind (sysRead_spec (hlen ▸ hgrown)) fun n s₂ hround => hnext n s₂ ?_
  cases hround with
  | fails hsched hrest' hlen' hbytes' hroom' =>
    exact .fails (hcalls ▸ hsched) (hrest'.trans hrest) (hlen'.trans hlen) (hbytes'.trans hbytes)
      (hlen ▸ hroom')
  | reads want hsched hread =>
    rw [hrest] at hread ⊢
    refine .reads want (hcalls ▸ hsched) ⟨?_, ?_, hread.len.trans hlen, ?_, hlen ▸ hread.room⟩
    · rw [hread.rest, hrest]
    · rw [hread.calls, hcalls, hlen]
    · rw [← hlen, hread.mem, hbytes, hrest]

/-- The reader after the bytes of a read are counted. -/
def Reader.counted (s : Reader) (n : Nat) : Reader :=
  { s with buf := { s.buf with len := s.buf.len + n } }

theorem Holds.counted {content : List UInt8} {s' : Reader} {size n : Nat} (hs : Holds content s)
    (hread : Read s s' size n) : Holds content (s'.counted n) where
  split := by
    have hlen : (s'.counted n).buf.bytes = s'.buf.mem.take (s'.buf.len + n) := rfl
    have hrest : (s'.counted n).rest = s'.rest := rfl
    rw [hlen, hrest, hread.len, hread.mem, hread.rest, List.append_assoc, List.take_append_drop]
    exact hs.split
  room := by
    change s'.buf.len + n ≤ s'.buf.mem.length
    rw [hread.len]
    exact hread.room

/-- A round that reads something leaves less than there was. -/
theorem Read.less {s' : Reader} {size n fuel : Nat} (hread : Read s s' size n) (hn : n ≠ 0)
    (hle : n ≤ s.rest.length) (hfuel : s.rest.length < fuel + 1) :
    (s'.counted n).rest.length < fuel := by
  change s'.rest.length < fuel
  rw [hread.rest, List.length_drop]
  omega

theorem Holds.grown {content : List UInt8} {s' : Reader} {need : Nat} (hs : Holds content s)
    (hbuf : s' = { s with buf := s'.buf }) (hbytes : s'.buf.bytes = s.buf.bytes)
    (hlen : s'.buf.len = s.buf.len) (hroom : s.buf.len + need ≤ s'.buf.mem.length) :
    Holds content s' where
  split := by
    rw [hbytes, hbuf]
    exact hs.split
  room := by
    rw [hlen]
    omega

/-- No read asks for more than one byte over the cap. -/
def InCap (cap : Nat) (calls : List (Nat × Nat)) : Prop :=
  cap = 0 ∨ ∀ c ∈ calls, c.1 + c.2 ≤ cap + 1

/-- What `read_loop` ends with. -/
structure LoopPost (content : List UInt8) (cap : Nat) (r : Int) (s : Reader) : Prop where
  holds : Holds content s
  inCap : InCap cap s.calls
  result : (r = 0 ∧ s.rest = [] ∧ (cap = 0 ∨ content.length ≤ cap)) ∨
    (r = -1 ∧ 0 < cap ∧ cap < content.length ∧ s.buf.len ≤ cap + 1)

theorem readChunkSize_pos (len cap : Nat) : 0 < readChunkSize len cap := by
  unfold readChunkSize
  split
  · decide
  · omega

theorem readChunkSize_le {len cap : Nat} (hcap : 0 < cap) (hlen : len ≤ cap) :
    len + readChunkSize len cap ≤ cap + 1 := by
  unfold readChunkSize
  split
  · rename_i hbig
    rcases hbig with hzero | hover | hfar
    · omega
    · omega
    · omega
  · omega

theorem InCap.snoc {cap : Nat} {calls : List (Nat × Nat)} {c : Nat × Nat} (h : InCap cap calls)
    (hc : cap = 0 ∨ c.1 + c.2 ≤ cap + 1) : InCap cap (calls ++ [c]) := by
  rcases h with hzero | hall
  · exact .inl hzero
  · rcases hc with hzero | hc
    · exact .inl hzero
    · refine .inr fun d hd => ?_
      rcases List.mem_append.mp hd with hd | hd
      · exact hall d hd
      · rw [List.mem_singleton.mp hd]
        exact hc

theorem appendRead_spec (n : Nat) (path : CStr) (quiet : Bool) (cap : Nat) :
    Ends (appendRead n path quiet cap) s fun r s' =>
      (r = 0 ∧ s' = s.counted n ∧ (cap = 0 ∨ s.buf.len + n ≤ cap)) ∨
        (r = -1 ∧ 0 < cap ∧ cap < s.buf.len + n ∧
          s' = { s.counted n with stderr := s'.stderr }) := by
  refine Ends.bind (p := fun _ s' => s' = s.counted n) ⟨(), _, rfl, rfl⟩ ?_
  rintro _ _ rfl
  refine Ends.get_bind ?_
  by_cases hcap : cap = 0 ∨ (s.counted n).buf.len ≤ cap
  · rw [if_pos hcap]
    exact Ends.pure (.inl ⟨rfl, rfl, hcap⟩)
  · have hlen : (s.counted n).buf.len = s.buf.len + n := rfl
    rw [if_neg hcap]
    rw [hlen] at hcap
    cases quiet with
    | true => exact Ends.pure (.inr ⟨rfl, by omega, by omega, rfl⟩)
    | false =>
      refine Ends.bind (p := fun _ s' => s' = { s.counted n with stderr := s'.stderr })
        ⟨(), _, rfl, rfl⟩ fun _ s' hs' => Ends.pure (.inr ⟨rfl, by omega, by omega, hs'⟩)

theorem readLoop_spec (path : CStr) (quiet : Bool) (cap : Nat) {content : List UInt8} (fuel : Nat)
    (hs : Holds content s) (hfuel : s.rest.length < fuel) (hlen : cap = 0 ∨ s.buf.len ≤ cap)
    (hcalls : InCap cap s.calls) :
    Ends (readLoop (shortReads pick junk) path quiet cap fuel) s (LoopPost content cap) := by
  induction fuel generalizing s with
  | zero => cases hfuel
  | succ fuel ih =>
    obtain ⟨size, hsize⟩ : ∃ size, size = readChunkSize s.buf.len cap := ⟨_, rfl⟩
    have hpos : 0 < size := hsize ▸ readChunkSize_pos ..
    refine Ends.get_bind ?_
    dsimp only
    rw [← hsize]
    refine round_spec hs.room ?_
    rintro _ s₂ (⟨hsched⟩ | ⟨want, hsched, hread⟩)
    · cases hsched
    obtain ⟨n, hn⟩ : ∃ n, n = readCount want size s.rest.length := ⟨_, rfl⟩
    rw [← hn] at hread ⊢
    have hinCap : InCap cap s₂.calls := by
      rw [hread.calls]
      refine hcalls.snoc ?_
      rcases hlen with hzero | hle
      · exact .inl hzero
      · rcases Nat.eq_zero_or_pos cap with hzero | hcap
        · exact .inl hzero
        · exact .inr (hsize ▸ readChunkSize_le hcap hle)
    have hcounted := hs.counted hread
    rw [if_neg (by omega)]
    by_cases hzero : n = 0
    · rw [if_pos (by omega)]
      subst hzero
      have hend : s.rest = [] :=
        List.eq_nil_of_length_eq_zero ((readCount_eq_zero hpos).mp hn.symm)
      have hnil : s₂.rest = [] := by rw [hread.rest, hend, List.drop_nil]
      have htotal := hcounted.length
      have hrest : (s₂.counted 0).rest.length = 0 := congrArg List.length hnil
      have hsame : (s₂.counted 0).buf.len = s.buf.len := hread.len
      refine Ends.pure ⟨⟨hcounted.split, hcounted.room⟩, hinCap, .inl ⟨rfl, hnil, ?_⟩⟩
      rcases hlen with hzero | hle
      · exact .inl hzero
      · exact .inr (by omega)
    · rw [if_neg (by omega)]
      have hle : n ≤ s.rest.length := hn ▸ readCount_le ..
      refine Ends.bind (appendRead_spec (s := s₂) n path quiet cap) ?_
      rintro r s₃ (⟨rfl, rfl, hmore⟩ | ⟨rfl, hcap, hover, hs₃⟩)
      · rw [if_neg (by decide)]
        exact ih hcounted (hread.less hzero hle hfuel) hmore hinCap
      · rw [if_pos (by decide)]
        have htotal := hcounted.length
        have hlast : (s₂.counted n).buf.len = s₂.buf.len + n := rfl
        have hchunk : n ≤ size := hn ▸ readCount_le_chunk ..
        have hmost : s.buf.len + size ≤ cap + 1 :=
          hsize ▸ readChunkSize_le hcap (hlen.resolve_left (by omega))
        rw [hs₃]
        refine Ends.pure ⟨⟨hcounted.split, hcounted.room⟩, hinCap, .inr ⟨rfl, hcap, ?_, ?_⟩⟩
        · omega
        · change s₂.buf.len + n ≤ cap + 1
          rw [hread.len]
          omega

/-- The content is there, with a NUL behind it. -/
structure Exact (content : List UInt8) (r : Int) (s : Reader) : Prop where
  result : r = 0
  len : s.buf.len = content.length
  bytes : s.buf.bytes = content
  nul : s.buf.mem[s.buf.len]? = some 0

theorem bufTerminate_spec {content : List UInt8} (hs : Holds content s) (hend : s.rest = []) :
    Ends (bufTerminate h) s fun r s' =>
      Exact content r s' ∧ s'.calls = s.calls := by
  refine Ends.bind (bufGrow_spec 1 hs.room) ?_
  rintro _ s₁ ⟨rfl, hbuf, hlen, hbytes, hroom⟩
  have hs₁ : Holds content s₁ := hs.grown hbuf hbytes hlen hroom
  have hrest : s₁.rest = [] := by rw [hbuf, hend]
  have hcalls : s₁.calls = s.calls := by rw [hbuf]
  have htotal := hs₁.length
  rw [hrest] at htotal
  have hsplit := hs₁.split
  rw [hrest, List.append_nil] at hsplit
  rw [if_neg (by decide)]
  refine Ends.get_bind (Ends.store_bind (by omega) (Ends.set_bind (Ends.pure ⟨⟨rfl, htotal, ?_, ?_⟩,
    hcalls⟩)))
  · change (s₁.buf.mem.set s₁.buf.len 0).take s₁.buf.len = content
    rw [List.take_set_of_le (Nat.le_refl _)]
    exact hsplit
  · exact List.getElem?_set_self (by omega)

theorem Exact.terminated {content : List UInt8} {r : Int} (h : Exact content r s) :
    s.buf.mem.take (s.buf.len + 1) = content ++ [0] := by
  rw [List.take_add_one, h.nul]
  exact congrArg (· ++ [0]) h.bytes

/-- Both buffers are terminated alike. -/
theorem bufTerminate_toBuf (hroom : s.buf.len ≤ s.buf.mem.length) :
    Ends (bufTerminate h) s fun r s' => r = 0 ∧
      Ends Util.bufTerminate s.buf.toBuf fun blob _ => blob = s'.buf.mem.take (s'.buf.len + 1) := by
  refine Ends.bind (bufGrow_spec 1 hroom) ?_
  rintro _ s₁ ⟨rfl, -, hlen, hbytes, hroom₁⟩
  rw [if_neg (by decide)]
  refine Ends.get_bind (Ends.store_bind (by omega) (Ends.set_bind (Ends.pure ⟨rfl, ?_⟩)))
  refine (Util.bufTerminate_spec s.buf.toBuf).mono ?_
  rintro blob - rfl
  show s.buf.bytes ++ [0] = (s₁.buf.mem.set s₁.buf.len 0).take (s₁.buf.len + 1)
  rw [List.take_add_one, List.take_set_of_le (Nat.le_refl _), List.getElem?_set_self (by omega),
    ← hbytes]
  rfl

theorem readFile_spec (pick : Nat → Nat) (junk : Nat → UInt8) (content : List UInt8) (path : CStr)
    (quiet : Bool) (cap : Nat) :
    Ends (readFile (shortReads pick junk) path quiet cap) (Reader.start content) fun r s =>
      ((cap = 0 ∨ content.length ≤ cap) → Exact content r s) ∧
        (0 < cap → cap < content.length → r = -1) ∧ InCap cap s.calls := by
  refine Ends.get_bind ?_
  have hloop := @readLoop_spec pick junk _ path quiet cap content
    (content.length + 1) (holds_start content) (Nat.lt_succ_self _) (.inr (Nat.zero_le _))
    (.inr fun c hc => nomatch hc)
  refine Ends.bind hloop ?_
  rintro r s ⟨hs, hcap, ⟨rfl, hend, hfits⟩ | ⟨rfl, hpos, hover, -⟩⟩
  · rw [if_pos rfl]
    refine (bufTerminate_spec hs hend).mono ?_
    rintro r s' ⟨hexact, hcalls⟩
    exact ⟨fun _ => hexact, fun _ _ => by omega, hcalls ▸ hcap⟩
  · rw [if_neg (by decide)]
    exact Ends.pure ⟨fun hfits => by omega, fun _ _ => rfl, hcap⟩

/-- However short the reads are, the readers give the whole file, and the one with
a cap gives it or fails, without more than a byte over the cap in its buffer. -/
theorem readers_exact (pick : Nat → Nat) (junk : Nat → UInt8) (content : List UInt8)
    (path : CStr) :
    Ends (ioRead (shortReads pick junk) path) (Reader.start content) (Exact content) ∧
      Ends (ioReadQuiet (shortReads pick junk) path) (Reader.start content) (Exact content) ∧
      ∀ cap, 0 < cap → Ends (ioReadCap (shortReads pick junk) path cap) (Reader.start content)
        fun r s => (content.length ≤ cap → Exact content r s) ∧
          (cap < content.length → r = -1) ∧ ∀ c ∈ s.calls, c.1 + c.2 ≤ cap + 1 := by
  refine ⟨?_, ?_, fun cap hcap => ?_⟩
  · exact (readFile_spec pick junk content path false 0).mono fun r s h => h.1 (.inl rfl)
  · exact (readFile_spec pick junk content path true 0).mono fun r s h => h.1 (.inl rfl)
  · refine (readFile_spec pick junk content path false cap).mono fun r s h => ?_
    exact ⟨fun hfits => h.1 (.inr hfits), h.2.1 hcap, h.2.2.resolve_left (Nat.ne_of_gt hcap)⟩

theorem readers_exact_capped :
    Ends (ioReadCap (shortReads (fun _ => 2) fun _ => 0) (lit "f") 3) (Reader.start [1, 2, 3, 4])
      fun r _ => r = -1 := by
  have h := (readers_exact (fun _ => 2) (fun _ => 0) [1, 2, 3, 4] (lit "f")).2.2 3 (by decide)
  exact h.mono fun r s hs => hs.2.1 (by decide)

end Cage.Util.FileRead
