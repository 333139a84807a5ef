import Cage.Ext4.Contents
import Cage.Sandbox.LoopRules

/-!
A run at a loop directory that nobody disturbs and all of whose calls succeed.
-/

namespace Cage.Sandbox

open Lib.Buffer Lib.Program Lib.Runs Util Ext4

section Alone

variable {k : Site} {p : Nat} {pick : Call → Choice}

/-- The answers when the surroundings decide by the call. -/
abbrev answers (k : Site) (p : Nat) (pick : Call → Choice) (call : Call) (s : LoopFs) :
    call.Ret × LoopFs :=
  LoopFs.answer k p (pick call) call s

/-- The files with other contents in one of them. -/
def LoopFs.rewrite (s : LoopFs) (fd : Nat) (n : Node) : LoopFs :=
  { s with files := s.files.setNode fd n }

theorem rewrite_twice (s : LoopFs) (fd : Nat) (n n' : Node) :
    (s.rewrite fd n).rewrite fd n' = s.rewrite fd n' := by
  unfold LoopFs.rewrite ImageFs.setNode
  simp only [Function.update_idem]

theorem rewrite_node (s : LoopFs) (fd : Nat) (n : Node) : (s.rewrite fd n).files.node fd = n :=
  Function.update_self _ _ _

/-- The calls on an open file succeed. -/
def Works (pick : Call → Choice) : Prop := ∀ call, OpenFile call → pick call = allFull

theorem exec_onFile {A : Type} (hworks : Works pick) (m : Img A) (fd : Nat) (f : File)
    (s : LoopFs) :
    (onFile fd m).exec (answers k p pick) (s.rewrite fd (.file f)) =
      ((run m f).1, s.rewrite fd (.file (run m f).2)) := by
  induction m generalizing f with
  | done a => rfl
  | call call next ih =>
    have hanswer : answers k p pick (.file fd call) (s.rewrite fd (.file f)) =
        ((ImgCall.answer allFull call f).1,
          s.rewrite fd (.file (ImgCall.answer allFull call f).2)) := by
      have hnode := rewrite_node s fd (.file f)
      unfold answers
      rw [hworks (.file fd call) trivial]
      simp only [LoopFs.answer, ImageFs.answer, ImageFs.onNode, hnode]
      rw [← rewrite_twice s fd (.file f) (.file (ImgCall.answer allFull call f).2)]
      rfl
    show ((onFile fd (next (answers k p pick (.file fd call) _).1)).exec _ _) = _
    rw [hanswer]
    exact ih _ _

theorem exec_genUuid (hworks : Works pick) (s : LoopFs) :
    ∃ uuid, genUuid.exec (answers k p pick) s = (some uuid, s) := by
  have hrandom : answers k p pick (.getrandom 16) s =
      (some (Lib.Buffer.make 16 allFull.random), s) := by
    unfold answers
    rw [hworks (.getrandom 16) trivial]
    rfl
  refine ⟨uuidBits (Lib.Buffer.make 16 allFull.random), ?_⟩
  unfold genUuid
  rw [exec_bind, exec_perform, hrandom]
  rfl

/-- The image is written to the end. -/
theorem exec_fillImg (hworks : Works pick) {fd : Nat} {f : File} {s : LoopFs}
    (hnode : s.files.node fd = .file f) :
    ∃ f', (fillImg fd).exec (answers k p pick) s = (0, s.rewrite fd (.file f')) := by
  have htruncate : answers k p pick (.ftruncate fd (blocks * blkSize)) s =
      (true, s.rewrite fd (.file (f.truncate (blocks * blkSize)))) := by
    unfold answers
    rw [hworks (.ftruncate fd _) trivial]
    simp only [LoopFs.answer, ImageFs.answer, hnode]
    rfl
  obtain ⟨s₁, hs₁⟩ : ∃ s₁, s₁ = s.rewrite fd (.file (f.truncate (blocks * blkSize))) := ⟨_, rfl⟩
  obtain ⟨uuid, huuid⟩ := exec_genUuid (k := k) (p := p) hworks s₁
  have htime : answers k p pick .time s₁ = (allFull.now, s₁) := by
    unfold answers
    rw [hworks .time trivial]
    rfl
  have hwrites := exec_onFile (k := k) (p := p) hworks
    (doCreateWrites (mkfsOf uuid uuid allFull.now)) fd (f.truncate (blocks * blkSize)) s
  have hrun := (run_doCreateWrites (mkfsOf uuid uuid allFull.now) (f.truncate (blocks * blkSize))
    rfl).1
  refine ⟨(run (doCreateWrites (mkfsOf uuid uuid allFull.now))
    (f.truncate (blocks * blkSize))).2, ?_⟩
  unfold fillImg
  rw [exec_bind, exec_perform, htruncate, ← hs₁]
  simp only [Bool.true_eq_false, if_false]
  rw [exec_bind, huuid]
  dsimp only
  rw [exec_bind, huuid]
  dsimp only
  rw [exec_bind, exec_perform, htime, hs₁, hwrites, hrun]

theorem steps_bind {A B : Type} (m : Steps A) (f : A → Steps B) {cache cache' : List Slot}
    {s t : LoopFs} {a : A} (h : (m.run cache).exec (answers k p pick) s = ((a, cache'), t)) :
    ((m >>= f).run cache).exec (answers k p pick) s =
      ((f a).run cache').exec (answers k p pick) t := by
  rw [StateT.run_bind, exec_bind, h]

theorem steps_sys {call : Call} {cache : List Slot} {s t : LoopFs} {r : call.Ret}
    (h : answers k p pick call s = (r, t)) :
    ((Steps.sys call).run cache).exec (answers k p pick) s = ((r, cache), t) := by
  show (((answers k p pick call s).1, cache), (answers k p pick call s).2) = _
  rw [h]

theorem steps_lift {A : Type} {m : Prog Call Call.Ret A} {cache : List Slot} {s t : LoopFs} {a : A}
    (h : m.exec (answers k p pick) s = (a, t)) :
    ((StateT.lift m : Steps A).run cache).exec (answers k p pick) s = ((a, cache), t) := by
  rw [StateT.run_lift, exec_bind, h]
  rfl

/-- The files with a new one at `path`. -/
def LoopFs.made (s : LoopFs) (p : Nat) (path : CStr) (f : File) : LoopFs :=
  { s with files := (s.files.make p path).setNode s.files.next (.file f) }

theorem LoopFs.made_entry (s : LoopFs) (p : Nat) (path : CStr) (f : File) :
    (s.made p path f).files.entry path = some s.files.next := s.files.make_self p

/-- A renaming that succeeds. -/
theorem answer_rename (s : LoopFs) (k : Site) (p : Nat) {old new : CStr} {i : Nat}
    (h : s.files.entry old = some i) : LoopFs.answer k p allFull (.rename old new) s =
      (none, { s with files := s.files.move old new }) := by
  simp [LoopFs.answer, ImageFs.answer, h, allFull]

theorem exec_createImg (hworks : Works pick) {path : CStr} {cache : List Slot} {s : LoopFs}
    (hcreate : ∀ mode, pick (.create path mode) = allFull) (hfree : s.files.entry path = none) :
    ∃ f, ((ext4CreateImg path).run cache).exec (answers k p pick) s =
      ((0, cache), s.made p path f) := by
  obtain ⟨t, ht⟩ : ∃ t : LoopFs, t = { s with files := s.files.make p path } := ⟨_, rfl⟩
  have hmake : answers k p pick (.create path 0o600) s = (some s.files.next, t) := by
    unfold answers
    rw [hcreate, ht]
    simp only [LoopFs.answer, ImageFs.answer, hfree]
    rfl
  have hnode : t.files.node s.files.next = .file .empty := by
    rw [ht]
    exact Function.update_self _ _ _
  obtain ⟨f, hfill⟩ := exec_fillImg (k := k) (p := p) hworks hnode
  refine ⟨f, ?_⟩
  unfold ext4CreateImg
  rw [steps_bind _ _ (steps_sys hmake)]
  dsimp only
  have hclose : answers k p pick (.close s.files.next) (s.made p path f) = ((), s.made p path f) := rfl
  have hmade : t.rewrite s.files.next (.file f) = s.made p path f := by
    rw [ht]
    rfl
  rw [steps_bind _ _ (steps_lift hfill), hmade, steps_bind _ _ (steps_sys hclose)]
  rfl

section Parts

/- The parts of a run, with nothing remembered of what was looked up. -/
variable (k p pick) (stop : Call → Bool) {A B : Type}

/-- `m` comes to its end, with `a`. -/
def Does (m : Steps A) (s : LoopFs) (a : A) (t : LoopFs) : Prop :=
  (m.run []).upTo (answers k p pick) stop s = (.done (a, []), t)

/-- `m` comes to a call to stop at, and goes on with `m'` if the answer is `r`. -/
def Halts (m : Steps A) (s : LoopFs) (call : Call) (t : LoopFs) (r : call.Ret) (m' : Steps A) :
    Prop :=
  ∃ next, (m.run []).upTo (answers k p pick) stop s = (.call call next, t) ∧ next r = m'.run []

variable {k p pick stop} {m m' : Steps A} {f : A → Steps B} {s t u : LoopFs} {a : A} {b : B}
  {call : Call} {r : call.Ret}

theorem Does.pure : Does k p pick stop (Pure.pure a) s a s := rfl

/-- What follows a part that has come to its end. -/
theorem Does.rest (hm : Does k p pick stop m s a t) (f : A → Steps B) :
    ((m >>= f).run []).upTo (answers k p pick) stop s =
      ((f a).run []).upTo (answers k p pick) stop t := by
  unfold Does at hm
  rw [StateT.run_bind, upTo_bind_done _ hm]

theorem Does.bind (hm : Does k p pick stop m s a t) (hf : Does k p pick stop (f a) t b u) :
    Does k p pick stop (m >>= f) s b u :=
  (hm.rest f).trans hf

theorem Halts.bind {n : Steps B} (hm : Does k p pick stop m s a t)
    (hf : Halts k p pick stop (f a) t call u r n) : Halts k p pick stop (m >>= f) s call u r n := by
  obtain ⟨next, hnext, hrest⟩ := hf
  exact ⟨next, (hm.rest f).trans hnext, hrest⟩

theorem Halts.first (hm : Halts k p pick stop m s call t r m') :
    Halts k p pick stop (m >>= f) s call t r (m' >>= f) := by
  obtain ⟨next, hnext, hrest⟩ := hm
  refine ⟨fun r => next r >>= fun a => (f a.1).run a.2, ?_, ?_⟩
  · rw [StateT.run_bind, upTo_bind_call _ hnext]
    rfl
  · show next r >>= _ = _
    rw [StateT.run_bind, hrest]

theorem Does.sys (hstop : stop call = false)
    (h : answers k p pick call s = (r, t)) : Does k p pick stop (Steps.sys call) s r t := by
  unfold Does
  show (if stop call = true then _ else _) = _
  rw [if_neg (by rw [hstop]; exact Bool.false_ne_true)]
  show (Prog.done ((answers k p pick call s).1, []), (answers k p pick call s).2) = _
  rw [h]

theorem Halts.sys (hstop : stop call = true) :
    Halts k p pick stop (Steps.sys call) s call s r (Pure.pure r) :=
  ⟨_, if_pos hstop, rfl⟩

/-- A part without a call to stop at. -/
theorem Does.of_exec (hm : Only (fun call => stop call = false) m)
    (h : (m.run []).exec (answers k p pick) s = ((a, []), t)) : Does k p pick stop m s a t := by
  unfold Does
  rw [upTo_of_all _ (hm []), h]

theorem Does.ioExists {path : CStr} {r : Option Errno} (hstop : stop (.access path) = false)
    (h : answers k p pick (.access path) s = (r, s)) :
    Does k p pick stop (Steps.ioExists path) s (accessResult r) s := by
  refine Does.bind (a := []) rfl (Does.bind (Does.sys hstop h) ?_)
  dsimp only
  split
  · exact Does.bind (a := ()) rfl Does.pure
  · exact Does.pure

theorem Does.ioUnlinkQuiet {path : CStr} (hstop : stop (.unlink path) = false)
    (h : answers k p pick (.unlink path) s = (some .enoent, s)) :
    Does k p pick stop (Steps.ioUnlinkQuiet path) s 0 s := by
  refine Does.bind (Does.sys hstop h) ?_
  exact Does.bind (a := ()) rfl Does.pure

theorem Does.ioMkdir {path : CStr} (hstop : stop (.mkdir path 0o755) = false)
    (h : answers k p pick (.mkdir path 0o755) s = (none, t)) :
    Does k p pick stop (Steps.ioMkdir path) s 0 t := by
  refine Does.bind (Does.sys hstop h) ?_
  exact Does.bind (a := ()) rfl Does.pure

/-- The calls by which a run can get into another's way. -/
def isLate : Call → Bool
  | .rename _ _ => true
  | .loopSet _ _ => true
  | _ => false

/-- The calls on which a first run depends succeed, and nothing stands under its
temporary name. -/
structure Undisturbed (k : Site) (pick : Call → Choice) (pid : Nat) (s : LoopFs) : Prop where
  works : Works pick
  full : ∀ call, pick call = allFull ∨ (∃ path, call = .access path ∧ path ≠ k.img) ∨ call = .loopFree
  short : (tmpName k.img pid).length < bufSize
  image : s.files.entry k.img = none
  tmp : s.files.entry (tmpName k.img pid) = none

variable {pid : Nat}

theorem early_open (call : Call) (h : OpenFile call) : isLate call = false := by
  cases call <;> first | rfl | exact h.elim

theorem Undisturbed.createImg (hs : Undisturbed k pick pid s) :
    ∃ f, Does k p pick isLate (ext4CreateImg (tmpName k.img pid)) s 0
      (s.made p (tmpName k.img pid) f) := by
  have hcreate (mode : Nat) : pick (.create (tmpName k.img pid) mode) = allFull := by
    simpa using hs.full (.create (tmpName k.img pid) mode)
  obtain ⟨f, hexec⟩ := exec_createImg (p := p) (k := k) hs.works hcreate hs.tmp
  exact ⟨f, Does.of_exec (only_createImg early_open (fun _ => rfl) rfl) hexec⟩

/-- `build_ext4_img` up to its `rename`. -/
theorem Undisturbed.built (hs : Undisturbed k pick pid s) :
    Does k p pick isLate (Steps.ioExists k.img) s 1 s ∧
      Does k p pick isLate (Steps.ioUnlinkQuiet (tmpName k.img pid)) s 0 s := by
  have haccess : answers k p pick (.access k.img) s = (some .enoent, s) := by
    have hfull : pick (.access k.img) = allFull := by simpa using hs.full (.access k.img)
    unfold answers
    rw [hfull]
    simp [LoopFs.answer, ImageFs.answer, hs.image, allFull]
  have hunlink : answers k p pick (.unlink (tmpName k.img pid)) s = (some .enoent, s) := by
    have hfull : pick (.unlink (tmpName k.img pid)) = allFull := by
      simpa using hs.full (.unlink (tmpName k.img pid))
    unfold answers
    rw [hfull]
    simp [LoopFs.answer, ImageFs.answer, hs.tmp, allFull]
  exact ⟨Does.ioExists rfl haccess, Does.ioUnlinkQuiet rfl hunlink⟩

/-- A first run comes to the renaming of its image, and is done if that succeeds. -/
theorem Undisturbed.halts (hs : Undisturbed k pick pid s) :
    ∃ f, Halts k p pick isLate (setupExt4Img pid k.img) s (.rename (tmpName k.img pid) k.img)
      (s.made p (tmpName k.img pid) f) none (Pure.pure 0) := by
  obtain ⟨f, hcreate⟩ := hs.createImg (p := p)
  refine ⟨f, Halts.bind hs.built.1 ?_⟩
  rw [if_neg (by decide), if_neg (by decide)]
  unfold buildExt4Img
  rw [if_neg (Nat.not_le.mpr hs.short)]
  refine Halts.bind hs.built.2 (Halts.bind hcreate ?_)
  rw [if_neg (by decide)]
  exact (Halts.sys rfl).first

end Parts

section Among

/- A run that goes on by itself among the others. -/
variable {A : Type} {w : World Nat Call Call.Ret (A × List Slot) LoopFs}
  {allow : Nat → Call → LoopFs → Prop} (hearly : ∀ call s, isLate call = false → allow p call s)
  {m m' : Steps A} {a : A} {s t u : LoopFs} {call : Call} {r : call.Ret}
  (hshared : w.shared = s) (hdead : w.dead p = false)

include hearly hshared hdead in
theorem Does.run (h : Does k p pick isLate m s a t) (hprog : w.prog p = m.run []) :
    Run (step (LoopFs.answer k)) (Allowed allow) w (w.reach p (.done (a, [])) t) :=
  Run.upTo_allowed pick isLate hdead hearly hprog (hshared ▸ h)

include hearly hshared hdead in
theorem Halts.run (h : Halts k p pick isLate m s call t r m') (hprog : w.prog p = m.run []) :
    ∃ next, next r = m'.run [] ∧
      Run (step (LoopFs.answer k)) (Allowed allow) w (w.reach p (.call call next) t) := by
  obtain ⟨next, hnext, hrest⟩ := h
  exact ⟨next, hrest, Run.upTo_allowed pick isLate hdead hearly hprog (hshared ▸ hnext)⟩

include hshared hdead in
/-- The call that it stops at is made. -/
theorem run_call {next : call.Ret → Prog Call Call.Ret (A × List Slot)}
    (hprog : w.prog p = .call call next) (hallow : allow p call s)
    (hanswer : LoopFs.answer k p allFull call s = (r, u)) :
    Run (step (LoopFs.answer k)) (Allowed allow) w (w.reach p (next r) u) := by
  have hallowed : Allowed allow w (.calls p allFull) := by
    simp only [Allowed, hprog, hshared]
    exact hallow
  have hstep : step (LoopFs.answer k) w (.calls p allFull) = _ := step_reach allFull hdead hprog
  rw [hshared, hanswer] at hstep
  exact Run.tail _ _ _ Run.refl hallowed hstep

include hearly hshared hdead in
theorem Halts.goes (h : Halts k p pick isLate m s call t r m') (hprog : w.prog p = m.run [])
    (hallow : allow p call t) (hanswer : LoopFs.answer k p allFull call t = (r, u)) :
    Run (step (LoopFs.answer k)) (Allowed allow) w (w.reach p (m'.run []) u) := by
  obtain ⟨next, hrest, hrun⟩ := h.run hearly hshared hdead hprog
  have hcall := run_call (w := w.reach p (.call call next) t) rfl hdead (w.reach_prog _ _ _) hallow
    hanswer
  rw [World.reach_twice, hrest] at hcall
  exact hrun.trans hcall

end Among

end Alone

end Cage.Sandbox
