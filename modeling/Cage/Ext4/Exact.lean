import Cage.Ext4.Run

/-!
The writers with calls that fail, or that read or write only a part. A writer
that returns 0 has left just what it leaves when every call succeeds: each
failure is either passed on at once or kept in the result.
-/

namespace Cage.Ext4

open Lib.Buffer Lib.Program Util

variable {A B : Type} {n : Nat}

/-- A call is answered by some choice. -/
def may (k : ImgCall) (f : File) (r : k.Ret) (f' : File) : Prop :=
  ∃ c, ImgCall.answer c k f = (r, f')

/-- When the result is `ok`, the outcome is that of the run in which all succeeds. -/
def Exact (ok : A → Prop) (p : Img A) : Prop :=
  ∀ f, p.Wp may (fun a f' => ok a → run p f = (a, f')) f

/-- No result is `ok`. -/
def Fails (ok : A → Prop) (p : Img A) : Prop := ∀ f, p.Wp may (fun a _ => ¬ ok a) f

/-- The result of a writer that has met no failure. -/
abbrev IsZero (r : Int) : Prop := r = 0

abbrev FstZero (r : Int × A) : Prop := r.1 = 0

theorem Fails.pure {ok : A → Prop} {a : A} (h : ¬ ok a) : Fails ok (Pure.pure a : Img A) := fun _ => h

theorem Fails.bind {ok : B → Prop} {p : Img A} {g : A → Img B} (h : ∀ a, Fails ok (g a)) :
    Fails ok (p >>= g) := by
  intro f
  apply Wp.bind
  induction p generalizing f with
  | done a => exact h a f
  | call k next ih => exact fun r f' _ => ih r f'

theorem Exact.pure (ok : A → Prop) (a : A) : Exact ok (Pure.pure a : Img A) := fun _ _ => rfl

/-- A program that never succeeds is exact. -/
theorem Fails.exact {ok : A → Prop} {p : Img A} (h : Fails ok p) : Exact ok p :=
  fun f => Wp.mono (fun _ _ hnot hok => absurd hok hnot) p (h f)

theorem Exact.bind {ok : A → Prop} {ok' : B → Prop} {p : Img A} {g : A → Img B}
    (hp : Exact ok p) (hg : ∀ a, ok a → Exact ok' (g a)) (hfail : ∀ a, ¬ ok a → Fails ok' (g a)) :
    Exact ok' (p >>= g) := by
  intro f
  apply Wp.bind
  refine Wp.mono ?_ p (hp f)
  intro a f' hrun
  by_cases hok : ok a
  · refine Wp.mono ?_ (g a) (hg a hok f')
    intro b f'' hb hok'
    rw [run_bind, hrun hok]
    exact hb hok'
  · exact Wp.mono (fun b _ hnot hok' => absurd hok' hnot) (g a) (hfail a hok f')

theorem Exact.ite {ok : A → Prop} {c : Prop} [Decidable c] {p q : Img A} (hp : c → Exact ok p)
    (hq : ¬ c → Exact ok q) : Exact ok (if c then p else q) := by
  split
  · rename_i h
    exact hp h
  · rename_i h
    exact hq h

/-- The step of a writer that stops at a failure. -/
theorem Exact.unlessFailed {ok : B → Prop} {p : Img Int} {b : B} {q : Img B} (hp : Exact IsZero p)
    (hb : ¬ ok b) (hq : Exact ok q) :
    Exact ok (p >>= fun r => if r ≠ 0 then Pure.pure b else q) := by
  refine Exact.bind hp ?_ ?_
  · intro r hr
    rw [if_neg (not_not_intro hr)]
    exact hq
  · intro r hr
    rw [if_pos hr]
    exact Fails.pure hb

theorem shortCount_ne (part n : Nat) : shortCount part n ≠ (n : Int) := by
  unfold shortCount
  split
  · omega
  · rename_i h
    have hne : part ≠ n := fun heq => h (Or.inr (Nat.le_of_eq heq.symm))
    exact fun heq => hne (Int.ofNat_inj.mp heq)

theorem exact_pwrite (buf : ByteVec n) (off : Nat) : Exact (fun r => r = (n : Int)) (pwrite buf off) := by
  rintro f r f' ⟨c, hc⟩ hok
  simp only [ImgCall.answer] at hc
  split at hc
  · cases hc
    rw [run_pwrite]
  · cases hc
    exact absurd hok (shortCount_ne _ _)

theorem exact_pread (off : Nat) : Exact (fun r => r.1 = (n : Int)) (pread n off) := by
  rintro f r f' ⟨c, hc⟩ hok
  simp only [ImgCall.answer] at hc
  split at hc
  · cases hc
    rfl
  · cases hc
    exact absurd hok (shortCount_ne _ _)

theorem exact_calloc : Exact (fun r => r = true) (calloc n) := by
  rintro f r f' ⟨c, hc⟩ hok
  cases hc
  rw [run_calloc]
  exact congrArg (·, f) (Eq.symm hok)

theorem exact_writeAt (buf : ByteVec n) (off : Nat) : Exact IsZero (writeAt buf off) := by
  refine Exact.bind (exact_pwrite buf off) (fun r _ => Exact.pure _ _) ?_
  intro r hr
  rw [if_neg hr]
  exact Fails.pure (by decide)

theorem exact_writeZeroesLoop (fuel : Nat) :
    ∀ off len, Exact IsZero (writeZeroesLoop fuel off len) := by
  induction fuel with
  | zero => exact fun _ _ => Exact.pure _ _
  | succ fuel ih =>
    intro off len
    refine Exact.ite (fun _ => Exact.pure _ _) ?_
    intro hlen
    exact Exact.unlessFailed (exact_writeAt _ _) (by decide) (ih _ _)

theorem exact_loopRc {body : Nat → Img Int} (h : ∀ i, Exact IsZero (body i)) (k : Nat) :
    ∀ i, Exact IsZero (loopRc body i k) := by
  induction k with
  | zero => exact fun _ => Exact.pure _ _
  | succ k ih => exact fun i => Exact.unlessFailed (h i) (by decide) (ih (i + 1))

/-- The first component of a result tells whether it is ok. -/
theorem Exact.bindPair {ok : B → Prop} {v : Int} {p : Img (Int × A)} {g : Int × A → Img B}
    (hp : Exact (fun r => r.1 = v) p) (hg : ∀ a, Exact ok (g (v, a)))
    (hfail : ∀ r a, r ≠ v → Fails ok (g (r, a))) : Exact ok (p >>= g) := by
  refine Exact.bind hp ?_ ?_
  · rintro ⟨r, a⟩ rfl
    exact hg a
  · rintro ⟨r, a⟩ hr
    exact hfail r a hr

theorem exact_csumBbOne (d : ByteVec descSize) (bbBlk : Nat) (seed : BitVec 32) :
    Exact FstZero (csumBbOne d bbBlk seed) := by
  refine Exact.bindPair (exact_pread _) ?_ ?_
  · intro bm
    simp only [ne_eq, not_true_eq_false, if_false]
    exact Exact.pure _ _
  · intro r bm hr
    simp only [if_pos hr]
    exact Fails.pure (by simp)

theorem exact_csumIbOne (d : ByteVec descSize) (ibBlk : Nat) (seed : BitVec 32) :
    Exact FstZero (csumIbOne d ibBlk seed) := by
  refine Exact.bindPair (exact_pread _) ?_ ?_
  · intro bm
    simp only [ne_eq, not_true_eq_false, if_false]
    exact Exact.pure _ _
  · intro r bm hr
    simp only [if_pos hr]
    exact Fails.pure (by simp)

theorem exact_csumOneGroup (d : ByteVec descSize) (g : Nat) (seed : BitVec 32) :
    Exact FstZero (csumOneGroup d g seed) := by
  refine Exact.bindPair (exact_csumBbOne _ _ _) ?_ ?_
  · intro d
    simp only [ne_eq, not_true_eq_false, if_false]
    refine Exact.bindPair (exact_csumIbOne _ _ _) ?_ ?_
    · intro d
      simp only [not_true_eq_false, if_false]
      exact Exact.pure _ _
    · intro r d hr
      simp only [hr, not_false_eq_true, if_true]
      exact Fails.pure (by simp)
  · intro r d hr
    simp only [if_pos hr]
    exact Fails.pure (by simp)

theorem exact_csumGroups (seed : BitVec 32) (k : Nat) :
    ∀ g gdt, Exact FstZero (csumGroups seed g k gdt) := by
  induction k with
  | zero => exact fun _ _ => Exact.pure _ _
  | succ k ih =>
    intro g gdt
    refine Exact.bindPair (exact_csumOneGroup _ _ _) ?_ ?_
    · intro d
      simp only [ne_eq, not_true_eq_false, if_false]
      exact ih _ _
    · intro r d hr
      simp only [if_pos hr]
      exact Fails.pure (by simp)

theorem exact_writeOneBackup (sb : ByteVec 1024) (gdt : ByteVec (2 * blkSize)) (g : Nat) :
    Exact IsZero (writeOneBackup sb gdt g) :=
  Exact.unlessFailed (exact_writeAt _ _) (by decide) (exact_writeAt _ _)

theorem exact_writeBackups (gdt : ByteVec (2 * blkSize)) : Exact IsZero (writeBackups gdt) := by
  refine Exact.bindPair (exact_pread _) ?_ ?_
  · intro sb
    simp only [ne_eq, Nat.cast_ofNat, not_true_eq_false, if_false]
    refine exact_loopRc ?_ _ _
    intro g
    exact Exact.ite (fun _ => exact_writeOneBackup _ _ _) fun _ => Exact.pure _ _
  · intro r sb hr
    have hne : r ≠ 1024 := hr
    simp only [if_pos hne]
    exact Fails.pure (by decide)

theorem exact_writeCsumBackups (gdt : ByteVec (2 * blkSize)) (seed : BitVec 32) :
    Exact IsZero (writeCsumBackups gdt seed) := by
  refine Exact.bindPair (exact_csumGroups _ _ _ _) ?_ ?_
  · intro gdt
    simp only [ne_eq, not_true_eq_false, if_false]
    exact Exact.unlessFailed (exact_writeAt _ _) (by decide) (exact_writeBackups _)
  · intro r gdt hr
    simp only [if_pos hr]
    exact Fails.pure (by decide)

theorem exact_writeJournal (jnlStart : Nat) (uuid : ByteVec 16) :
    Exact IsZero (writeJournal jnlStart uuid) :=
  Exact.unlessFailed (exact_writeAt _ _) (by decide) (exact_writeZeroesLoop _ _ _)

theorem exact_resizeLoop (k : Nat) :
    ∀ gdtOff gdtBlk buf, Exact FstZero (resizeLoop k gdtOff gdtBlk buf) := by
  induction k with
  | zero => exact fun _ _ _ => Exact.pure _ _
  | succ k ih =>
    intro gdtOff gdtBlk buf
    exact Exact.unlessFailed (exact_writeAt _ _) (by simp) (ih _ _ _)

theorem exact_writeResizeData (dindirBlk : Nat) : Exact IsZero (writeResizeData dindirBlk) := by
  refine Exact.bindPair (exact_resizeLoop _ _ _ _) ?_ ?_
  · intro buf
    simp only [ne_eq, not_true_eq_false, if_false]
    exact exact_writeAt _ _
  · intro r buf hr
    simp only [if_pos hr]
    exact Fails.pure (by decide)

theorem exact_writeInodeTable (m : Mkfs) (w : Wi) : Exact IsZero (writeInodeTable m w) := by
  refine Exact.bind exact_calloc ?_ ?_
  · intro r hr
    rw [if_pos hr]
    exact exact_writeAt _ _
  · intro r hr
    rw [if_neg hr]
    exact Fails.pure (by decide)

theorem exact_writeSuperblock (m : Mkfs) (usedBlks : Nat) :
    Exact IsZero (writeSuperblock m usedBlks) := by
  refine Exact.bind (exact_writeAt _ _) (fun _ _ => Exact.pure _ _) ?_
  intro r hr
  rw [if_pos hr]
  exact Fails.pure (by decide)

theorem exact_writeGdt (jnlFg journalBlks : Nat) : Exact FstZero (writeGdt jnlFg journalBlks) := by
  refine Exact.bind (exact_writeAt _ _) (fun _ _ => Exact.pure _ _) ?_
  exact fun r hr => Fails.pure hr

theorem orRc_zero {a b : Int} : orRc a b = 0 ↔ a = 0 ∧ b = 0 := by
  unfold orRc
  split
  · rename_i h
    exact ⟨fun _ => h, fun _ => rfl⟩
  · rename_i h
    exact ⟨fun heq => absurd heq (by decide), fun hab => absurd hab h⟩

/-- A failure of any part of `do_writes` is in its result, though the parts after
it are still written. -/
theorem exact_doWrites (m : Mkfs) (w : Wi) : Exact IsZero (doWrites m w) := by
  intro f
  refine Wp.bind _ (Wp.mono ?_ _ (exact_writeSuperblock m computeUsedBlks f))
  intro sb f1 h1
  refine Wp.bind _ (Wp.mono ?_ _ (exact_writeGdt w.jnlFg 16384 f1))
  rintro ⟨gd, gdt⟩ f2 h2
  refine Wp.bind _ (Wp.mono ?_ _ (exact_loopRc (fun _ => exact_writeAt _ _) _ _ f2))
  intro bb f3 h3
  refine Wp.bind _ (Wp.mono ?_ _ (exact_loopRc (fun _ => exact_writeAt _ _) _ _ f3))
  intro ib f4 h4
  refine Wp.bind _ (Wp.mono ?_ _ (exact_writeAt (rootDir m.seed) (w.rootBlk * blkSize) f4))
  intro root f5 h5
  refine Wp.bind _ (Wp.mono ?_ _ (exact_writeJournal w.jnlStart m.uuid f5))
  intro jnl f6 h6
  refine Wp.bind _ (Wp.mono ?_ _ (exact_writeInodeTable m w f6))
  intro it f7 h7
  refine Wp.bind _ (Wp.mono ?_ _ (exact_writeResizeData w.dindirBlk f7))
  intro resize f8 h8
  refine Wp.bind _ (Wp.mono ?_ _ (exact_writeCsumBackups gdt m.seed f8))
  intro backups f9 h9 hzero
  simp only [IsZero, orRc_zero] at hzero
  obtain ⟨⟨⟨⟨⟨⟨⟨⟨z1, z2⟩, z3⟩, z4⟩, z5⟩, z6⟩, z7⟩, z8⟩, z9⟩ := hzero
  have h3' : run (writeBlockBitmaps w) f2 = (bb, f3) := h3 z3
  have h4' : run writeInodeBitmaps f3 = (ib, f4) := h4 z4
  have h5' : run (writeRootDir w.rootBlk m.seed) f4 = (root, f5) := h5 z5
  simp only [doWrites, run_bind, h1 z1, h2 z2, h3', h4', h5', h6 z6, h7 z7, h8 z8, h9 z9, run_pure]

end Cage.Ext4
