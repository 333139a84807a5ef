import Cage.Pkg.Modules
import Cage.Util.OpenAndRead

/-!
The reader that fills the caches sees of a file the pieces that its reads give. It does
what `io_read` does with the buffer and its memory, whatever those pieces are.
-/

namespace Cage.Pkg

open Lib.Checked Util Util.FileRead

/-- The pieces that the reads give, from the `i`-th on, up to the last or the one that
fails. -/
def pieces (h : FileRead.Host) : Nat → Nat → Bytes → List (Option Bytes)
  | 0, _, _ => []
  | fuel + 1, i, rest =>
      match h.sched i with
      | none => [none]
      | some want =>
          let n := readCount want chunk rest.length
          if n = 0 then [some []] else some (rest.take n) :: pieces h fuel (i + 1) (rest.drop n)

/-- What `open` and the reads of a file give. -/
def openingOf (h : FileRead.Host) (content : Bytes) : Opening :=
  if h.opens = false then .noOpen else .reads (pieces h (content.length + 1) 0 content)

variable {h : FileRead.Host} {s : Reader} {content : Bytes}

/-- Both loops take the same pieces, and stop at the same one. -/
theorem readLoop_pieces (path : CStr) (quiet : Bool) (fuel : Nat) (hs : Holds content s)
    (hfuel : s.rest.length < fuel) :
    Ends (FileRead.readLoop h path quiet 0 fuel) s fun r s' =>
      readLoop s.buf.bytes (pieces h fuel s.calls.length s.rest) = (r, s'.buf.bytes) ∧
        Holds content s' ∧ (r = 0 → s'.rest = []) := by
  induction fuel generalizing s with
  | zero => cases hfuel
  | succ fuel ih =>
    refine Ends.get_bind ?_
    have hsize : readChunkSize s.buf.len 0 = chunk := if_pos (Or.inl rfl)
    dsimp only
    rw [hsize, pieces]
    refine round_spec hs.room ?_
    rintro _ s₂ (⟨hsched, hrest, hlen, hbytes, hroom⟩ | ⟨want, hsched, hread⟩)
    · rw [if_pos (by decide), hsched]
      refine Ends.bind (p := fun _ s₃ => s₃.buf = s₂.buf ∧ s₃.rest = s₂.rest) ?_ ?_
      · cases quiet <;> exact ⟨(), _, rfl, rfl, rfl⟩
      · rintro _ s₃ ⟨hbuf₃, hrest₃⟩
        refine Ends.pure ⟨?_, ⟨?_, ?_⟩, fun h => absurd h (by decide)⟩
        · rw [hbuf₃, hbytes]
          rfl
        · rw [hbuf₃, hrest₃, hbytes, hrest]
          exact hs.split
        · rw [hbuf₃, hlen]
          exact hroom
    · rw [hsched]
      dsimp only
      obtain ⟨n, hn⟩ : ∃ n, n = readCount want chunk s.rest.length := ⟨_, rfl⟩
      rw [← hn] at hread ⊢
      have hcounted := hs.counted hread
      have hdata : (s₂.counted n).buf.bytes = s.buf.bytes ++ s.rest.take n := by
        rw [← hread.mem, ← hread.len]
        rfl
      rw [if_neg (by omega)]
      by_cases hzero : n = 0
      · subst hzero
        have hend : s.rest = [] :=
          List.eq_nil_of_length_eq_zero ((readCount_eq_zero (by decide)).mp hn.symm)
        rw [if_pos Int.natCast_zero, if_pos rfl]
        refine Ends.pure ⟨?_, hcounted, fun _ => ?_⟩
        · rw [List.take_zero, List.append_nil] at hdata
          exact Prod.ext rfl hdata.symm
        · rw [hread.rest, hend, List.drop_nil]
      · rw [if_neg (by omega), if_neg hzero]
        have hle : n ≤ s.rest.length := hn ▸ readCount_le ..
        refine Ends.bind (appendRead_spec (s := s₂) n path quiet 0) ?_
        rintro r s₃ (⟨rfl, rfl, -⟩ | ⟨-, hcap, -⟩)
        · rw [if_neg (by decide)]
          have hne : s.rest.take n ≠ [] :=
            List.ne_nil_of_length_pos (by rw [List.length_take]; omega)
          have hcalls : (s₂.counted n).calls.length = s.calls.length + 1 := by
            change s₂.calls.length = _
            rw [hread.calls, List.length_append, List.length_singleton]
          refine (ih hcounted (hread.less hzero hle hfuel)).mono ?_
          rintro r s' ⟨hloop, hholds, hend⟩
          refine ⟨?_, hholds, hend⟩
          rw [readLoop, if_neg hne, ← hdata, ← hcalls, ← hread.rest]
          exact hloop
        · exact absurd hcap (Nat.lt_irrefl 0)

/-- The readers of a file, with their buffer, leave what the pieces of the file make up,
and a NUL behind it. -/
theorem readFile_pieces (h : FileRead.Host) (path : CStr) (quiet : Bool) (content : Bytes) :
    Ends (readFile h path quiet 0) (Reader.start content) fun r s =>
      ioRead none (openingOf h content) =
          (r, if h.opens = false then none else some s.buf.bytes) ∧
        (r = 0 → s.buf.mem.take (s.buf.len + 1) = s.buf.bytes ++ [0]) := by
  unfold openingOf readFile
  by_cases hopens : h.opens = false
  · rw [if_pos hopens, if_pos hopens]
    refine Ends.bind (p := fun _ _ => True) ?_ fun _ s _ => Ends.pure ⟨?_, fun h => absurd h (by decide)⟩
    · cases quiet <;> exact ⟨(), _, rfl, trivial⟩
    · rw [if_pos hopens]
      rfl
  · rw [if_neg hopens, if_neg hopens]
    refine Ends.get_bind (Ends.bind (readLoop_pieces path quiet (content.length + 1)
      (holds_start content) (Nat.lt_succ_self _)) ?_)
    rintro r s ⟨hloop, hs, hend⟩
    have hpieces : ioRead none (.reads (pieces h (content.length + 1) 0 content)) =
        (r, some s.buf.bytes) := congrArg (fun x => (x.1, some x.2)) hloop
    simp only [if_neg hopens]
    by_cases hzero : r = 0
    · rw [if_pos hzero]
      refine (bufTerminate_spec hs (hend hzero)).mono ?_
      rintro r' s' ⟨hexact, -⟩
      have hsplit := hs.split
      rw [hend hzero, List.append_nil] at hsplit
      refine ⟨?_, fun _ => hexact.bytes.symm ▸ hexact.terminated⟩
      rw [hpieces, hexact.result, hexact.bytes, hsplit, hzero]
    · rw [if_neg hzero]
      exact Ends.pure ⟨hpieces, fun h => absurd h hzero⟩

end Cage.Pkg
