import Cage.Sandbox.ImageSafe

/-!
Any number of processes set up one image, in any interleaving of their calls.
-/

namespace Cage.Sandbox

open Lib.Buffer Lib.Program Lib.Runs Util Ext4

section Valid

variable {img : CStr} {s : ImageFs} {i : Nat} {f : File}

theorem exec_imgValid (hnode : s.node i = .file f) :
    (imgValid i).exec (ImageFs.answer 0 allFull) s = (imageLike f, s) := by
  have hfstat : ImageFs.answer 0 allFull (.fstat i) s = (some f.size, s) := by
    simp [ImageFs.answer, allFull, hnode]
  unfold imgValid imageLike
  rw [exec_bind, exec_perform, hfstat]
  by_cases hsize : f.size = blocks * blkSize
  · have hread : ImageFs.answer 0 allFull (.file i (.pread 2 (sbOff + 0x38))) s =
        ((2, f.slice (sbOff + 0x38) 2), s) := by
      have hdata : (ImageFs.answer 0 allFull (.file i (.pread 2 (sbOff + 0x38))) s).1 =
          (2, f.slice (sbOff + 0x38) 2) := by
        have hcount : min 2 (f.size - (sbOff + 0x38)) = 2 := by
          rw [hsize]
          rfl
        simp only [ImageFs.answer]
        rw [onNode_file allFull _ hnode]
        simp only [ImgCall.answer, allFull, if_true]
        rw [hcount]
        rfl
      exact Prod.ext hdata (onNode_pread allFull s i 2 (sbOff + 0x38))
    rw [if_neg (by rw [hsize]; exact fun h => h rfl)]
    simp only [exec_bind, exec_perform, hread, exec_pure, hsize, decide_true, Bool.true_and]
  · rw [if_pos (fun h => hsize (Option.some.inj h))]
    simp [hsize]

theorem alone_valid_none (h : s.opens img = none) : alone (ext4ImageValid img) s = false := by
  have hopen : ImageFs.answer 0 allFull (.openRead img) s = (none, s) := by
    simp [ImageFs.answer, allFull, h]
  unfold alone ext4ImageValid Steps.sys
  simp only [StateT.run_bind, StateT.run_lift, exec_bind]
  simp [hopen]

theorem alone_valid_some (h : s.opens img = some i) (hnode : s.node i = .file f) :
    alone (ext4ImageValid img) s = imageLike f := by
  have hopen : ImageFs.answer 0 allFull (.openRead img) s = (some i, s) := by
    simp [ImageFs.answer, allFull, h]
  unfold alone ext4ImageValid Steps.sys
  simp only [StateT.run_bind, StateT.run_lift, exec_bind]
  simp [hopen, exec_bind, exec_imgValid hnode]

end Valid

/-- `ext4_image_valid` accepts just what looks like an image. -/
theorem accepted_iff (img : CStr) (s : ImageFs) : Accepted img s ↔ Standing img s := by
  unfold Accepted
  cases hopen : s.opens img with
  | none =>
    rw [alone_valid_none hopen]
    refine ⟨Bool.noConfusion, ?_⟩
    rintro ⟨i, f, hentry, hnode, -⟩
    simp [ImageFs.opens, hentry, hnode] at hopen
  | some i =>
    obtain ⟨hentry, f, hnode⟩ := s.opens_some hopen
    rw [alone_valid_some hopen hnode]
    constructor
    · exact fun hlike => ⟨i, f, hentry, hnode, hlike⟩
    · rintro ⟨j, g, hentry', hnode', hlike⟩
      rw [hentry] at hentry'
      cases hentry'
      rw [hnode] at hnode'
      cases hnode'
      exact hlike

/-- Every process is about to call `setup_ext4_img`, with whatever its cache
holds. One that never gets to move has not called it. -/
def starting (img : CStr) (cache : Nat → List Slot) (s : ImageFs) :
    World Nat Call Call.Ret (Int × List Slot) ImageFs where
  shared := s
  prog p := (setupExt4Img p img).run (cache p)
  dead _ := false

variable {img : CStr} {cache : Nat → List Slot} {s : ImageFs}

theorem starting_safe (hs : s.Fresh) :
    AllSafe ImageFs.answer Whatever (building img) (fun p a => SetupPost img p a.1)
      (starting img cache s) := by
  intro p t ht
  refine keeping_setupImg (cache p) t ?_
  refine stable_noneMade s t ?_ ht
  intro i hi
  rw [hs.maker] at hi
  cases hi

/-- What can stand at the path: what was there at first, or a whole image. -/
def OldOrComplete (img : CStr) (s t : ImageFs) : Prop :=
  SameImage img s t ∨ ∃ i, t.entry img = some i ∧ Complete (t.node i)

theorem Guarantee.oldOrComplete {p : Nat} {s t u : ImageFs} (h : Guarantee img p t u)
    (ht : OldOrComplete img s t) : OldOrComplete img s u := by
  rcases h.image with hsame | ⟨i, hentry, -, hnode⟩
  · rcases ht with hsame' | ⟨i, hentry, hnode⟩
    · exact Or.inl (hsame'.trans hsame)
    · refine Or.inr ⟨i, hsame.1.trans hentry, ?_⟩
      rw [hsame.2 i hentry]
      exact hnode
  · exact Or.inr ⟨i, hentry, hnode⟩

/-- In every state that any run of any number of processes reaches, with calls
failing and processes being killed at any point, the file at the path is what
stood there at first or a complete image. A process that has returned 0 finds an
image there that `ext4_image_valid` accepts; one that has returned something else
has left no temporary file of its own unless it was refused to unlink it. -/
theorem setupExt4Img_atomic (hs : s.Fresh) {w : World Nat Call Call.Ret (Int × List Slot) ImageFs}
    (hrun : Run (step ImageFs.answer) Any (starting img cache s) w) :
    OldOrComplete img s w.shared ∧ ∀ p r c, w.prog p = .done (r, c) →
      (r = 0 → Accepted img w.shared) ∧ (r ≠ 0 → Cleared img p w.shared) := by
  have hallowed : Run (step ImageFs.answer) (Allowed Whatever) (starting img cache s) w := by
    exact hrun.weaken fun w a _ => allowed_of_all (fun _ _ _ => trivial) w a
  refine ⟨?_, ?_⟩
  · refine (starting_safe hs).shared (OldOrComplete img s) ?_ (Or.inl SameImage.refl) hallowed
    exact fun p _ _ h ht => Guarantee.oldOrComplete h ht
  · intro p r c hdone
    have hsafe := (starting_safe hs).run hallowed p w.shared Reliance.refl
    rw [hdone] at hsafe
    exact ⟨fun hr => (accepted_iff img _).mpr (hsafe.1 hr), hsafe.2⟩

/-- A directory with nothing in it. -/
def emptyDir : ImageFs where
  entry _ := none
  node _ := .other
  next := 0
  maker _ := none
  refused _ := false
  entry_lt _ _ h := by cases h
  maker_lt _ _ h := by cases h

/-- Two processes make their temporary files, and the first is refused the space for its
image. -/
def fullDisk : List (Act Nat Choice) :=
  List.replicate 3 (.calls 7 allFull) ++ List.replicate 3 (.calls 8 allFull) ++
    .calls 7 { allFull with full := false } :: List.replicate 3 (.calls 7 allFull)

/-- Process 7 has failed, with the temporary file of process 8 beside it. -/
def failedBeside (w : World Nat Call Call.Ret (Int × List Slot) ImageFs) : Bool :=
  match w.prog 7 with
  | .done (r, _) => r = -1 && (w.shared.entry (tmpName (lit "/a-loop.img") 8)).isSome
  | .call _ _ => false

/-- Process 7 has made its temporary file, and fails beside process 8. -/
theorem setupExt4Img_atomic_failed :
    ∃ w c, Run (step ImageFs.answer) Any (starting (lit "/a-loop.img") (fun _ => []) emptyDir) w ∧
      w.prog 7 = .done (-1, c) ∧ (w.shared.entry (tmpName (lit "/a-loop.img") 8)).isSome ∧
        Cleared (lit "/a-loop.img") 7 w.shared := by
  have hfresh : emptyDir.Fresh := ⟨fun _ => rfl, fun _ => rfl⟩
  have hexec : (exec (step ImageFs.answer) (starting (lit "/a-loop.img") (fun _ => []) emptyDir)
      fullDisk).any failedBeside = true := by
    decide +kernel
  obtain ⟨w, hw, hfailed⟩ := (Option.any_eq_true _ _).mp hexec
  have hrun := exec_run fullDisk hw
  unfold failedBeside at hfailed
  split at hfailed
  · rename_i r c hdone
    rw [Bool.and_eq_true, decide_eq_true_eq] at hfailed
    obtain ⟨rfl, htmp⟩ := hfailed
    exact ⟨w, c, hrun, hdone, htmp, ((setupExt4Img_atomic hfresh hrun).2 7 (-1) c hdone).2 (by decide)⟩
  · cases hfailed

end Cage.Sandbox
