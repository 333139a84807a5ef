import Cage.Core.EnvInherit
import Cage.Pkg.ReadPieces

/-!
The environment of a process is read by the reader of whole files: the chunks that
`env_read_pid_environ` takes are the pieces that the reads of the file give.
-/

namespace Cage.Core

open Lib.Checked Util Util.FileRead Pkg

/-- The pieces of a file as chunks, up to the end of the file or the read that fails. -/
structure Chunked (ps : List (Option Bytes)) (chunks : List Chunk) (failed : Bool) : Prop where
  pieces : ps = chunks.map (fun c => some c.1) ++ [if failed then none else some []]
  nonempty : ∀ c ∈ chunks, c.1 ≠ []

variable {h : FileRead.Host} {ps : List (Option Bytes)} {chunks : List Chunk} {failed : Bool}

theorem exists_chunked (h : FileRead.Host) (fuel i : Nat) (rest : Bytes) (hfuel : rest.length < fuel) :
    ∃ chunks failed, Chunked (pieces h fuel i rest) chunks failed := by
  induction fuel generalizing i rest with
  | zero => cases hfuel
  | succ fuel ih =>
    unfold Pkg.pieces
    cases h.sched i with
    | none => exact ⟨[], true, rfl, List.forall_mem_nil _⟩
    | some want =>
      dsimp only
      split
      · exact ⟨[], false, rfl, List.forall_mem_nil _⟩
      · rename_i hn
        have hle := readCount_le want chunk rest.length
        have hless : (rest.drop (readCount want chunk rest.length)).length < fuel := by
          rw [List.length_drop]
          omega
        obtain ⟨chunks, failed, hps, hne⟩ := ih (i + 1) _ hless
        have hlen : (rest.take (readCount want chunk rest.length)).length =
            readCount want chunk rest.length := by
          rw [List.length_take, Nat.min_eq_left hle]
        refine ⟨⟨_, hlen ▸ readCount_le_chunk want chunk rest.length⟩ :: chunks, failed, ?_, ?_⟩
        · rw [hps]
          rfl
        · refine List.forall_mem_cons.mpr ⟨?_, hne⟩
          exact List.ne_nil_of_length_pos (by rw [hlen]; omega)

theorem Chunked.readLoop (hc : Chunked ps chunks failed) (data : Bytes) :
    readLoop data ps =
      (if failed then -1 else 0, data ++ (chunks.map Subtype.val).flatten) := by
  induction chunks generalizing ps data with
  | nil =>
    rw [hc.pieces]
    cases failed <;> simp [Pkg.readLoop]
  | cons c chunks ih =>
    obtain ⟨hne, hrest⟩ := List.forall_mem_cons.mp hc.nonempty
    rw [hc.pieces, List.map_cons, List.cons_append, Pkg.readLoop, if_neg hne, ih ⟨rfl, hrest⟩,
      List.map_cons, List.flatten_cons, List.append_assoc]

/-- What `env_read_pid_environ` makes of the chunks of a file is what `io_read_quiet`
leaves of the file with its NUL. -/
theorem envReadPidEnviron_pieces (h : FileRead.Host) (path : CStr) (content : Bytes) :
    ∃ chunks failed, Chunked (pieces h (content.length + 1) 0 content) chunks failed ∧
      Ends (ioReadQuiet h path) (Reader.start content) fun r s =>
        Ends (envReadPidEnviron h.opens failed chunks) Buf.init fun blob _ =>
          blob = if r = 0 then some (s.buf.mem.take (s.buf.len + 1)) else none := by
  obtain ⟨chunks, failed, hc⟩ :=
    exists_chunked h (content.length + 1) 0 content (Nat.lt_succ_self _)
  refine ⟨chunks, failed, hc, (readFile_pieces h path true content).mono ?_⟩
  rintro r s ⟨hread, hnul⟩
  unfold openingOf at hread
  unfold envReadPidEnviron
  cases hopens : h.opens with
  | false =>
    rw [if_pos hopens, if_pos hopens] at hread
    obtain rfl : (-1 : Int) = r := (Prod.mk.inj hread).1
    exact Ends.pure (if_neg (by decide)).symm
  | true =>
    rw [if_neg (by rw [hopens]; decide), if_neg (by rw [hopens]; decide)] at hread
    have hloop : ioRead none (.reads (pieces h (content.length + 1) 0 content)) =
        (if failed then -1 else 0, some (chunks.map Subtype.val).flatten) :=
      congrArg (fun x => (x.1, some x.2)) (hc.readLoop [])
    obtain ⟨hr, hbytes⟩ := Prod.mk.inj (hloop.symm.trans hread)
    refine Ends.bind (readAll_ends failed chunks Buf.init) ?_
    rintro _ b ⟨rfl, hdata⟩
    cases failed with
    | true =>
      obtain rfl : (-1 : Int) = r := hr
      exact Ends.pure (if_neg (by decide)).symm
    | false =>
      obtain rfl : (0 : Int) = r := hr
      refine Ends.bind (bufTerminate_spec b) ?_
      rintro blob _ rfl
      refine Ends.pure ?_
      rw [if_pos rfl, hnul rfl, hdata, ← Option.some.inj hbytes]
      rfl

end Cage.Core
