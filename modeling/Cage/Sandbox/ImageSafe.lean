import Cage.Sandbox.ImageRules

/-!
`setup_ext4_img` among other processes that set up the same image, any of which
can be killed at any of its calls: the image is replaced only as a whole.
-/

namespace Cage.Sandbox

open Lib.Buffer Lib.Program Lib.Runs Util Ext4

/-- Calls are not restricted. -/
def Whatever (_ : Nat) (_ : Call) (_ : ImageFs) : Prop := True

section Process

variable {img : CStr} {p : Nat} {A : Type} {pre : ImageFs → Prop}

variable (img p) in
/-- `m`, as process `p` among the others. -/
abbrev Keeping (pre : ImageFs → Prop) (m : Steps A) (post : A → ImageFs → Prop) : Prop :=
  Triple ImageFs.answer Whatever (building img) p pre m post

/-- `p` has created no file. -/
def NoneMade (p : Nat) (s : ImageFs) : Prop := ∀ i, s.maker i ≠ some p

/-- No file of `p` stands under its temporary name, unless its unlink was refused. -/
def Cleared (img : CStr) (p : Nat) (s : ImageFs) : Prop :=
  ∀ i, s.entry (tmpName img p) = some i → s.maker i = some p → s.refused i = true

theorem stable_noneMade : Stable (building img) p (NoneMade p) :=
  fun _ _ h hr i hi => h i ((hr.maker i).mp hi)

theorem stable_cleared : Stable (building img) p (Cleared img p) := by
  intro s t h hr i hentry hmaker
  rw [hr.tmp] at hentry
  exact hr.refused i (h i hentry ((hr.maker i).mp hmaker))

theorem stable_filling {j : Nat} {f : File} : Stable (building img) p (Filling img p j f) := by
  intro s t h hr
  refine ⟨hr.tmp.trans h.name, (hr.maker j).mpr h.made, ?_, (hr.node j h.made).trans h.content⟩
  rcases hr.image with hsame | ⟨i, hentry, hmaker, -⟩
  · rw [hsame.1]
    exact h.apart
  · rw [hentry]
    rintro ⟨⟩
    exact hmaker ((hr.maker j).mpr h.made)

theorem NoneMade.cleared {s : ImageFs} (h : NoneMade p s) : Cleared img p s :=
  fun i _ hi => absurd hi (h i)

/-- A call that changes nothing. -/
theorem Keeping.look {k : Call} {post : k.Ret → ImageFs → Prop}
    (hsame : ∀ c s, (ImageFs.answer p c k s).2 = s)
    (hpost : ∀ c s, pre s → post (ImageFs.answer p c k s).1 s)
    (hstable : ∀ r, Stable (building img) p (post r)) : Keeping img p pre (Steps.sys k) post := by
  refine Triple.perform ?_ hstable
  intro s hs _ c
  rw [hsame c s]
  exact ⟨Guarantee.same, hpost c s hs⟩

theorem keeping_exists (path : CStr) (hpre : Stable (building img) p pre) :
    Keeping img p pre (Steps.ioExists path) fun _ => pre := by
  refine Triple.bind (Triple.get fun _ _ h => h) ?_
  intro cache
  refine Triple.ite (fun _ => Triple.pure fun _ h => h) fun _ => ?_
  refine Triple.bind (Keeping.look (fun _ _ => rfl) (fun _ _ h => h) fun _ => hpre) ?_
  intro r
  refine Triple.ite (fun _ => ?_) fun _ => Triple.pure fun _ h => h
  exact Triple.bind (Triple.modify _ fun _ h => h) fun _ => Triple.pure fun _ h => h

/-- Whatever the answer to the unlink of the temporary name, it is cleared. -/
theorem unlink_tmp (c : Choice) (s : ImageFs) :
    Guarantee img p s (ImageFs.answer p c (.unlink (tmpName img p)) s).2 ∧
      Cleared img p (ImageFs.answer p c (.unlink (tmpName img p)) s).2 := by
  simp only [ImageFs.answer]
  split
  · split
    · refine ⟨Guarantee.remove, fun i hi => ?_⟩
      rw [s.remove_self] at hi
      cases hi
    · rename_i hnone
      refine ⟨Guarantee.same, fun i hi => absurd ?_ hnone⟩
      rw [hi]
      rfl
  · refine ⟨Guarantee.refuse _, fun i hi _ => ?_⟩
    have hentry : s.entry (tmpName img p) = some i := hi
    simp [ImageFs.refuse, hentry]

theorem unlink_maker (c : Choice) (path : CStr) (s : ImageFs) :
    (ImageFs.answer p c (.unlink path) s).2.maker = s.maker := by
  simp only [ImageFs.answer]
  split
  · split <;> rfl
  · rfl

theorem keeping_unlink : Keeping img p pre (Steps.sys (.unlink (tmpName img p)))
    fun _ => Cleared img p :=
  Triple.perform (fun s _ _ c => unlink_tmp c s) fun _ => stable_cleared

theorem keeping_unlinkQuiet : Keeping img p pre (Steps.ioUnlinkQuiet (tmpName img p))
    fun _ => Cleared img p := by
  refine Triple.bind keeping_unlink fun r => ?_
  refine Triple.ite (fun _ => Triple.pure fun _ h => h) fun _ => ?_
  exact Triple.bind (Triple.modify _ fun _ h => h) fun _ => Triple.pure fun _ h => h

theorem keeping_ioUnlink : Keeping img p pre (Steps.ioUnlink (tmpName img p))
    fun _ => Cleared img p := by
  refine Triple.bind keeping_unlink fun r => ?_
  cases r with
  | some _ => exact Triple.pure fun _ h => h
  | none => exact Triple.bind (Triple.modify _ fun _ h => h) fun _ => Triple.pure fun _ h => h

/-- Before it has created anything, the process removes what an earlier one of its
number may have left. -/
theorem keeping_sweep : Keeping img p (NoneMade p) (Steps.ioUnlinkQuiet (tmpName img p))
    fun _ => NoneMade p := by
  have hunlink : Keeping img p (NoneMade p) (Steps.sys (.unlink (tmpName img p)))
      fun _ => NoneMade p := by
    refine Triple.perform (fun s hs _ c => ⟨(unlink_tmp c s).1, ?_⟩) fun _ => stable_noneMade
    intro i
    rw [unlink_maker]
    exact hs i
  refine Triple.bind hunlink fun r => ?_
  refine Triple.ite (fun _ => Triple.pure fun _ h => h) fun _ => ?_
  exact Triple.bind (Triple.modify _ fun _ h => h) fun _ => Triple.pure fun _ h => h

theorem keeping_create (mode : Nat) :
    Keeping img p (NoneMade p) (Steps.sys (.create (tmpName img p) mode)) fun r s =>
      match r with
      | none => Cleared img p s
      | some j => Filling img p j .empty s := by
  refine Triple.perform ?_ ?_
  · intro s hs _ c
    simp only [ImageFs.answer]
    split
    · rename_i hfree
      refine ⟨Guarantee.make, s.make_self p, Function.update_self _ _ s.maker, ?_,
        Function.update_self _ _ s.node⟩
      rw [s.make_of_ne p (tmpName_ne img p).symm]
      exact fun h => Nat.lt_irrefl _ (s.entry_lt img s.next h)
    · exact ⟨Guarantee.same, hs.cleared⟩
  · intro r
    cases r with
    | none => exact stable_cleared
    | some j => exact stable_filling

theorem Filling.rewritten {j : Nat} {f : File} {s : ImageFs} (h : Filling img p j f s) (f' : File) :
    Filling img p j f' (s.setNode j (.file f')) :=
  ⟨h.name, h.made, h.apart, Function.update_self _ _ s.node⟩

theorem onNode_file {s : ImageFs} {j : Nat} {f : File} (c : Choice) (k : ImgCall)
    (h : s.node j = .file f) :
    s.onNode c j k = ((ImgCall.answer c k f).1, s.setNode j (.file (ImgCall.answer c k f).2)) := by
  unfold ImageFs.onNode
  rw [h]

variable (img p) in
/-- `m`, as a part of process `p` that has no cache to look at. -/
abbrev Goes {A : Type} (m : Prog Call Call.Ret A) (post : A → ImageFs → Prop) (s : ImageFs) : Prop :=
  m.Safe ImageFs.answer Whatever (building img) p post s

/-- What can come of a program on the image, comes of it on the file of `p`. -/
theorem goes_onFile {B : Type} {j : Nat} {Q : B → File → Prop} (m : Img B) {f : File} {s : ImageFs}
    (hm : m.Wp may Q f) (h : Filling img p j f s) :
    Goes img p (onFile j m) (fun b t => ∃ g, Filling img p j g t ∧ Q b g) s := by
  induction m generalizing f s with
  | done b => exact ⟨f, h, hm⟩
  | call k next ih =>
    intro _ c
    have hnode := onNode_file c k h.content
    simp only [ImageFs.answer]
    rw [hnode]
    refine ⟨Guarantee.setNode h, fun t ht => ?_⟩
    exact ih _ (hm _ _ ⟨c, rfl⟩) (stable_filling _ _ (h.rewritten _) ht)

theorem goes_look {k : Call} {Q : ImageFs → Prop} {s : ImageFs}
    (hsame : ∀ c s, (ImageFs.answer p c k s).2 = s) (hstable : Stable (building img) p Q)
    (hs : Q s) : Goes img p (Lib.Program.perform k) (fun _ => Q) s := by
  have hmid : ∀ r : k.Ret, Stable (building img) p ((fun _ => Q) r) := fun _ => hstable
  refine Safe.perform ?_ hmid fun _ _ h => h
  intro _ c
  rw [hsame c s]
  exact ⟨Guarantee.same, hs⟩

theorem goes_genUuid {Q : ImageFs → Prop} {s : ImageFs} (hstable : Stable (building img) p Q)
    (hs : Q s) : Goes img p genUuid (fun _ => Q) s := by
  refine Safe.bind _ (Safe.mono ?_ _ (goes_look (fun _ _ => rfl) hstable hs))
  intro r t ht
  cases r with
  | none => exact ht
  | some uuid => exact ht

theorem goes_truncate {j : Nat} {f : File} {s : ImageFs} (n : Nat) (h : Filling img p j f s) :
    Goes img p (Lib.Program.perform (.ftruncate j n)) (fun (r : Bool) t =>
      if r then Filling img p j (f.truncate n) t else Filling img p j f t) s := by
  have hmid : ∀ r : Bool, Stable (building img) p fun t =>
      if r then Filling img p j (f.truncate n) t else Filling img p j f t := by
    intro r
    cases r with
    | false => exact stable_filling
    | true => exact stable_filling
  refine Safe.perform ?_ hmid fun _ _ h => h
  intro _ c
  simp only [ImageFs.answer, h.content]
  split
  · exact ⟨Guarantee.setNode h, h.rewritten _⟩
  · exact ⟨Guarantee.same, h⟩

/-- The file is filled to the end if the result is 0. -/
theorem goes_fillImg {j : Nat} {s : ImageFs} (h : Filling img p j .empty s) :
    Goes img p (fillImg j) (fun rc t =>
      ∃ f, Filling img p j f t ∧ (rc = 0 → Complete (.file f))) s := by
  have hfail : ∀ (f : File) (t : ImageFs), Filling img p j f t →
      ∃ f, Filling img p j f t ∧ ((-1 : Int) = 0 → Complete (.file f)) :=
    fun f t ht => ⟨f, ht, fun h => absurd h (by decide)⟩
  refine Safe.bind _ (Safe.mono ?_ _ (goes_truncate _ h))
  intro ok t ht
  cases ok with
  | false => exact hfail _ t ht
  | true =>
    have hblank : Filling img p j blank t := ht
    refine Safe.bind _ (Safe.mono ?_ _ (goes_genUuid stable_filling hblank))
    intro uuid t ht
    cases uuid with
    | none => exact hfail _ t ht
    | some uuid =>
      refine Safe.bind _ (Safe.mono ?_ _ (goes_genUuid stable_filling ht))
      intro hashSeed t ht
      cases hashSeed with
      | none => exact hfail _ t ht
      | some hashSeed =>
        refine Safe.bind _ (Safe.mono ?_ _ (goes_look (fun _ _ => rfl) stable_filling ht))
        intro now t ht
        refine Safe.mono ?_ _ (goes_onFile _ (exact_doWrites _ _ blank) ht)
        rintro rc u ⟨f, hf, hrun⟩
        refine ⟨f, hf, fun hzero => ⟨uuid, hashSeed, now, ?_⟩⟩
        have hdone : (run (doCreateWrites (mkfsOf uuid hashSeed now)) blank).2 = f :=
          congrArg Prod.snd (hrun hzero)
        rw [image, after_eq, hdone]

/-- After a failure the temporary file is gone, or it could not be removed. -/
def BuildPost (img : CStr) (p : Nat) (r : Int) (s : ImageFs) : Prop :=
  (r = 0 → ∃ j f, Filling img p j f s ∧ Complete (.file f)) ∧ (r ≠ 0 → Cleared img p s)

theorem keeping_createImg : Keeping img p (NoneMade p) (ext4CreateImg (tmpName img p))
    (BuildPost img p) := by
  have hfail : ∀ s, Cleared img p s → BuildPost img p (-1) s :=
    fun _ hs => ⟨fun h => absurd h (by decide), fun _ => hs⟩
  refine Triple.bind (keeping_create _) fun fd => ?_
  cases fd with
  | none => exact Triple.pure hfail
  | some j =>
    refine Triple.bind (Triple.lift fun s hs => goes_fillImg hs) fun rc => ?_
    have hstable : Stable (building img) p fun s =>
        ∃ f, Filling img p j f s ∧ (rc = 0 → Complete (.file f)) :=
      fun s t ⟨f, hf, hrc⟩ ht => ⟨f, stable_filling s t hf ht, hrc⟩
    refine Triple.bind (Keeping.look (fun _ _ => rfl) (fun _ _ h => h) fun _ => hstable) fun _ => ?_
    refine Triple.ite (fun _ => ?_) fun hrc => Triple.pure ?_
    · exact Triple.bind keeping_ioUnlink fun _ => Triple.pure hfail
    · rintro s ⟨f, hf, hdone⟩
      exact ⟨fun _ => ⟨j, f, hf, hdone (Decidable.not_not.mp hrc)⟩, fun h => absurd rfl h⟩

/-- A file that looks like an image stands at the path. -/
def Standing (img : CStr) (s : ImageFs) : Prop :=
  ∃ i f, s.entry img = some i ∧ s.node i = .file f ∧ imageLike f = true

theorem Complete.imageLike {n : Node} (h : Complete n) : ∃ f, n = .file f ∧ imageLike f = true := by
  obtain ⟨uuid, hashSeed, now, rfl⟩ := h
  exact ⟨_, rfl, imageLike_image _⟩

theorem Reliance.standing {s t : ImageFs} (h : Reliance img p s t) :
    SameImage img s t ∨ Standing img t := by
  rcases h.image with hsame | ⟨i, hentry, -, hnode⟩
  · exact Or.inl hsame
  · obtain ⟨f, hf, hlike⟩ := hnode.imageLike
    exact Or.inr ⟨i, f, hentry, hf, hlike⟩

theorem stable_standing : Stable (building img) p (Standing img) := by
  rintro s t ⟨i, f, hentry, hnode, hlike⟩ hr
  rcases hr.standing with hsame | hnew
  · exact ⟨i, f, hsame.1.trans hentry, (hsame.2 i hentry).trans hnode, hlike⟩
  · exact hnew

theorem keeping_rename (r : Int) (hr : r = 0) :
    Keeping img p (BuildPost img p r) (Steps.sys (.rename (tmpName img p) img)) fun res s =>
      res = none → Standing img s := by
  refine Triple.perform ?_ fun res s t hs ht hnone => stable_standing s t (hs hnone) ht
  rintro s ⟨hfilled, -⟩ _ c
  obtain ⟨j, f, hf, hdone⟩ := hfilled hr
  have hmoved : Standing img (s.move (tmpName img p) img) := by
    obtain ⟨g, hg, hlike⟩ := hdone.imageLike
    refine ⟨j, g, ?_, ?_, hlike⟩
    · rw [s.move_self, hf.name]
    · rw [s.move_node, hf.content, hg]
  simp only [ImageFs.answer]
  split
  · split
    · exact ⟨Guarantee.move hf hdone, fun _ => hmoved⟩
    · exact ⟨Guarantee.same, fun h => by cases h⟩
  · exact ⟨Guarantee.same, fun h => by cases h⟩

/-- What `setup_ext4_img` comes to. -/
def SetupPost (img : CStr) (p : Nat) (r : Int) (s : ImageFs) : Prop :=
  (r = 0 → Standing img s) ∧ (r ≠ 0 → Cleared img p s)

theorem keeping_buildImg : Keeping img p (NoneMade p) (buildExt4Img p img) (SetupPost img p) := by
  have hfail : ∀ s, Cleared img p s → SetupPost img p (-1) s :=
    fun _ hs => ⟨fun h => absurd h (by decide), fun _ => hs⟩
  refine Triple.ite (fun _ => Triple.pure fun s hs => hfail s hs.cleared) fun _ => ?_
  refine Triple.bind keeping_sweep fun _ => ?_
  refine Triple.bind keeping_createImg fun rc => ?_
  refine Triple.ite (fun _ => ?_) fun hrc => ?_
  · exact Triple.bind keeping_unlinkQuiet fun _ => Triple.pure hfail
  · refine Triple.bind (keeping_rename rc (Decidable.not_not.mp hrc)) fun res => ?_
    cases res with
    | some _ => exact Triple.bind keeping_unlinkQuiet fun _ => Triple.pure hfail
    | none => exact Triple.pure fun s hs => ⟨fun _ => hs rfl, fun h => absurd rfl h⟩

/-- The file that `ext4_image_valid` has opened stands there still, or one that
looks like an image does. -/
def Looking (img : CStr) (i : Nat) (good : File → Bool) (s : ImageFs) : Prop :=
  (s.entry img = some i ∧ ∃ f, s.node i = .file f ∧ good f = true) ∨ Standing img s

theorem stable_looking {i : Nat} {good : File → Bool} :
    Stable (building img) p (Looking img i good) := by
  rintro s t (⟨hentry, f, hnode, hgood⟩ | hstanding) hr
  · rcases hr.standing with hsame | hnew
    · refine Or.inl ⟨hsame.1.trans hentry, f, ?_, hgood⟩
      exact (hsame.2 i hentry).trans hnode
    · exact Or.inr hnew
  · exact Or.inr (stable_standing s t hstanding hr)

theorem onNode_pread (c : Choice) (s : ImageFs) (i n off : Nat) :
    (s.onNode c i (.pread n off)).2 = s := by
  unfold ImageFs.onNode
  split
  · rename_i f hnode
    have hkeep : (ImgCall.answer c (.pread n off) f).2 = f := by
      simp only [ImgCall.answer]
      split <;> rfl
    rw [hkeep, ← hnode]
    show { s with node := Function.update s.node i (s.node i) } = s
    rw [Function.update_eq_self]
  · rfl

/-- What `ext4_image_valid` reads tells whether the file looks like an image. -/
theorem imageLike_of_read {c : Choice} {f : File} (hsize : f.size = blocks * blkSize)
    (hread : (ImgCall.answer c (.pread 2 (sbOff + 0x38)) f).1.1 = 2)
    (hmagic : rd16 (ImgCall.answer c (.pread 2 (sbOff + 0x38)) f).1.2 0 = ext4SuperMagic) :
    imageLike f = true := by
  simp only [ImgCall.answer] at hread hmagic
  split at hread
  · rename_i hfull
    rw [if_pos hfull] at hmagic
    unfold imageLike
    rw [decide_eq_true hsize, decide_eq_true hmagic]
    rfl
  · exact absurd hread (shortCount_ne _ _)

theorem goes_magic {i : Nat} {s : ImageFs} (hnone : NoneMade p s)
    (hlook : Looking img i (fun f => f.size = blocks * blkSize) s) :
    Goes img p (Lib.Program.perform (.file i (.pread 2 (sbOff + 0x38)))) (fun (r : Int × ByteVec 2) t =>
      NoneMade p t ∧ ((r.1 = 2 && rd16 r.2 0 = ext4SuperMagic) = true → Standing img t)) s := by
  have hmid : ∀ r : Int × ByteVec 2, Stable (building img) p fun t => NoneMade p t ∧
      ((r.1 = 2 && rd16 r.2 0 = ext4SuperMagic) = true → Standing img t) :=
    fun _ s t hs ht => ⟨stable_noneMade s t hs.1 ht, fun h => stable_standing s t (hs.2 h) ht⟩
  refine Safe.perform ?_ hmid fun _ _ h => h
  intro _ c
  simp only [ImageFs.answer]
  refine ⟨?_, ?_⟩
  · rw [onNode_pread]
    exact Guarantee.same
  · rw [onNode_pread]
    refine ⟨hnone, fun hread => ?_⟩
    rcases hlook with ⟨hentry, f, hnode, hsize⟩ | hstanding
    · rw [Bool.and_eq_true] at hread
      have hcount : (s.onNode c i (.pread 2 (sbOff + 0x38))).1.1 = 2 := of_decide_eq_true hread.1
      have hmagic : rd16 (s.onNode c i (.pread 2 (sbOff + 0x38))).1.2 0 = ext4SuperMagic :=
        of_decide_eq_true hread.2
      rw [onNode_file c _ hnode] at hcount hmagic
      exact ⟨i, f, hentry, hnode, imageLike_of_read (of_decide_eq_true hsize) hcount hmagic⟩
    · exact hstanding

/-- If the test succeeds, an image stands there. -/
theorem goes_imgValid {i : Nat} {s : ImageFs} (hnone : NoneMade p s)
    (hlook : Looking img i (fun _ => true) s) :
    Goes img p (imgValid i) (fun ok t => NoneMade p t ∧ (ok = true → Standing img t)) s := by
  have hfstat : Goes img p (Lib.Program.perform (.fstat i)) (fun (size : Option Nat) t => NoneMade p t ∧
      (size = some (blocks * blkSize) → Looking img i (fun f => f.size = blocks * blkSize) t)) s := by
    have hmid : ∀ size : Option Nat, Stable (building img) p fun t => NoneMade p t ∧
        (size = some (blocks * blkSize) →
          Looking img i (fun f => f.size = blocks * blkSize) t) :=
      fun _ s t hs ht => ⟨stable_noneMade s t hs.1 ht, fun h => stable_looking s t (hs.2 h) ht⟩
    refine Safe.perform ?_ hmid fun _ _ h => h
    intro _ c
    refine ⟨Guarantee.same, hnone, ?_⟩
    rcases hlook with ⟨hentry, f, hnode, -⟩ | hstanding
    · intro hsize
      refine Or.inl ⟨hentry, f, hnode, ?_⟩
      simp only [ImageFs.answer, hnode] at hsize
      split at hsize
      · exact decide_eq_true (Option.some.inj hsize)
      · cases hsize
    · exact fun _ => Or.inr hstanding
  refine Safe.bind _ (Safe.mono ?_ _ hfstat)
  rintro size t ⟨hnone, hlook⟩
  by_cases hsize : size = some (blocks * blkSize)
  · rw [if_neg (not_not_intro hsize)]
    refine Safe.bind _ (Safe.mono (fun _ _ h => h) _ (goes_magic hnone (hlook hsize)))
  · rw [if_pos hsize]
    exact ⟨hnone, fun h => by cases h⟩

theorem keeping_valid : Keeping img p (NoneMade p) (ext4ImageValid img)
    fun ok s => NoneMade p s ∧ (ok = true → Standing img s) := by
  have hopen : Keeping img p (NoneMade p) (Steps.sys (.openRead img)) fun (fd : Option Nat) s =>
      NoneMade p s ∧ ∀ i, fd = some i → Looking img i (fun _ => true) s := by
    refine Keeping.look (fun _ _ => rfl) ?_ ?_
    · intro c s hs
      refine ⟨hs, fun i hi => ?_⟩
      simp only [ImageFs.answer] at hi
      split at hi
      · obtain ⟨hentry, f, hnode⟩ := s.opens_some hi
        exact Or.inl ⟨hentry, f, hnode, rfl⟩
      · cases hi
    · intro fd s t hs ht
      exact ⟨stable_noneMade s t hs.1 ht, fun i hi => stable_looking s t (hs.2 i hi) ht⟩
  have hclosed : ∀ ok : Bool, Stable (building img) p fun s =>
      NoneMade p s ∧ (ok = true → Standing img s) :=
    fun _ s t hs ht => ⟨stable_noneMade s t hs.1 ht, fun h => stable_standing s t (hs.2 h) ht⟩
  refine Triple.bind hopen fun fd => ?_
  cases fd with
  | none => exact Triple.pure fun s hs => ⟨hs.1, fun h => by cases h⟩
  | some i =>
    refine Triple.bind (Triple.lift fun s hs => goes_imgValid hs.1 (hs.2 i rfl)) fun ok => ?_
    exact Triple.bind (Keeping.look (fun _ _ => rfl) (fun _ _ h => h) fun _ => hclosed ok)
      fun _ => Triple.pure fun _ h => h

/-- `setup_ext4_img`, as process `p` among the others. -/
theorem keeping_setupImg : Keeping img p (NoneMade p) (setupExt4Img p img) (SetupPost img p) := by
  refine Triple.bind (keeping_exists _ stable_noneMade) fun e => ?_
  refine Triple.ite (fun _ => Triple.pure ?_) fun _ => ?_
  · exact fun s hs => ⟨fun h => absurd h (by decide), fun _ => hs.cleared⟩
  · refine Triple.ite (fun _ => ?_) fun _ => keeping_buildImg
    refine Triple.bind keeping_valid fun ok => ?_
    refine Triple.ite (fun hok => Triple.pure ?_) fun _ => ?_
    · exact fun s hs => ⟨fun _ => hs.2 hok, fun h => absurd rfl h⟩
    · exact Triple.conseq keeping_buildImg (fun s hs => hs.1) fun _ _ h => h

end Process

end Cage.Sandbox
