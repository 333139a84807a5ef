import Cage.Sandbox.ImageCalls
import Cage.Sandbox.ImageRules
import Cage.Sandbox.LoopFs

/-!
What a run of cage does to a loop directory that it shares with others, and what it
relies on: while no run renames its image over one that another has opened to attach it,
or attaches an image that is attached, the file under the image's name is the one that
the only loop device is bound to, and the run that has bound it is alone in mounting it.
-/

namespace Cage.Sandbox

open Lib.Program Lib.Runs Util Ext4

/-- One run of cage. -/
structure Visit where
  pid : Nat
  cfg : Cfg
  dirs : Dirs
  cache : List Slot

/-- No run has opened the image that stands in the place of one that is renamed there,
and no device is bound to the file that is attached. -/
def Spares (k : Site) (_ : Nat) : Call → LoopFs → Prop
  | .rename _ new, s => new = k.img → ∀ i ∈ s.opened, s.files.entry k.img ≠ some i
  | .loopSet _ fd, s => ∀ id, s.loops id ≠ some fd
  | _, _ => True

/-- What has been opened stands under the image's name, one device at most is bound to
it, and what is mounted is bound and mounted once. -/
structure Intact (k : Site) (s : LoopFs) : Prop where
  opened : ∀ i ∈ s.opened, s.files.entry k.img = some i
  bound : ∀ id i, s.loops id = some i → i ∈ s.opened
  single : ∀ id id' i, s.loops id = some i → s.loops id' = some i → id = id'
  mounted : ∀ id ∈ s.mounts, (s.loops id).isSome
  once : s.mounts.length ≤ 1

/-- Run `p` has bound the device, and nothing is mounted yet. -/
structure Holding (p id : Nat) (s : LoopFs) : Prop where
  keeper : s.keeper id = p
  bound : (s.loops id).isSome
  unmounted : s.mounts = []

/-- What run `p` relies on. -/
structure Relied (p : Nat) (s t : LoopFs) : Prop where
  opened : ∀ i ∈ s.opened, i ∈ t.opened
  mounts : ∀ id ∈ s.mounts, id ∈ t.mounts
  holds : ∀ id, Holding p id s → Holding p id t

/-- What run `p` does at most. -/
structure Forward (k : Site) (p : Nat) (s t : LoopFs) : Prop where
  intact : Intact k s → Intact k t
  others : ∀ q, p ≠ q → Relied q s t

/-- What a call does that attaches and detaches nothing. -/
structure Calm (k : Site) (s t : LoopFs) : Prop where
  intact : Intact k s → Intact k t
  relied : ∀ p, Relied p s t

/-- The calls that leave the image and its devices alone, and those that open the image
or put one there. -/
def Harmless (k : Site) : Call → Prop
  | .unlink path => path ≠ k.img
  | .create path _ => path ≠ k.img
  | .rename old _ => old ≠ k.img
  | .openRw path => path = k.img
  | .loopSet _ _ => False
  | .loopClose _ => False
  | .mountLoop _ _ => False
  | _ => True

section Rules

variable {k : Site} {p id fd : Nat} {s t u : LoopFs}

theorem Relied.refl : Relied p s s := ⟨fun _ => id, fun _ => id, fun _ => id⟩

theorem Relied.trans (hst : Relied p s t) (htu : Relied p t u) : Relied p s u where
  opened i hi := htu.opened i (hst.opened i hi)
  mounts id hid := htu.mounts id (hst.mounts id hid)
  holds id hid := htu.holds id (hst.holds id hid)

variable (k) in
/-- The runs of cage. -/
def sharing : Protocol Nat LoopFs where
  guar := Forward k
  rely := Relied
  refl := fun _ _ => Relied.refl
  trans := fun _ _ _ _ => Relied.trans
  others := fun _ q _ _ hne h => h.others q hne

theorem Calm.refl : Calm k s s := ⟨id, fun _ => Relied.refl⟩

theorem Calm.forward (h : Calm k s t) : Forward k p s t := ⟨h.intact, fun q _ => h.relied q⟩

theorem Forward.refl : Forward k p s s := Calm.refl.forward

/-- Only the files have changed, and not the one at the image. -/
theorem Calm.of_files {f : ImageFs} (h : f.entry k.img = s.files.entry k.img) :
    Calm k s { s with files := f } where
  intact hs := ⟨fun i hi => h.trans (hs.opened i hi), hs.bound, hs.single, hs.mounted, hs.once⟩
  relied _ := ⟨fun _ => id, fun _ => id, fun _ hid => ⟨hid.keeper, hid.bound, hid.unmounted⟩⟩

/-- With no image opened, no device is bound. -/
theorem Calm.of_spared {f : ImageFs} (h : ∀ i ∈ s.opened, s.files.entry k.img ≠ some i) :
    Calm k s { s with files := f } where
  intact hs := ⟨fun i hi => absurd (hs.opened i hi) (h i hi), hs.bound, hs.single, hs.mounted, hs.once⟩
  relied _ := ⟨fun _ => id, fun _ => id, fun _ hid => ⟨hid.keeper, hid.bound, hid.unmounted⟩⟩

/-- The image is opened. -/
theorem Calm.of_opened (h : s.files.entry k.img = some fd) :
    Calm k s { s with opened := fd :: s.opened } where
  intact hs := by
    refine ⟨fun i hi => ?_, fun id i hi => List.mem_cons_of_mem _ (hs.bound id i hi), hs.single,
      hs.mounted, hs.once⟩
    obtain rfl | hold := List.mem_cons.mp hi
    · exact h
    · exact hs.opened i hold
  relied _ := ⟨fun _ hi => List.mem_cons_of_mem _ hi, fun _ => id,
    fun _ hid => ⟨hid.keeper, hid.bound, hid.unmounted⟩⟩

/-- The loop directory is made. -/
theorem Calm.of_plain {kind : Option Kind} : Calm k s { s with plain := kind } where
  intact hs := ⟨hs.opened, hs.bound, hs.single, hs.mounted, hs.once⟩
  relied _ := ⟨fun _ => id, fun _ => id, fun _ hid => ⟨hid.keeper, hid.bound, hid.unmounted⟩⟩

/-- All devices that are bound are one. -/
theorem Intact.one (hs : Intact k s) {id' : Nat} (h : (s.loops id).isSome)
    (h' : (s.loops id').isSome) : id = id' := by
  obtain ⟨i, hi⟩ := Option.isSome_iff_exists.mp h
  obtain ⟨j, hj⟩ := Option.isSome_iff_exists.mp h'
  have hsame : some i = some j :=
    (hs.opened i (hs.bound id i hi)).symm.trans (hs.opened j (hs.bound id' j hj))
  exact hs.single id id' i hi (hj.trans hsame.symm)

/-- With no device bound to the image, none is bound at all. -/
theorem Intact.unbound (hs : Intact k s) (hfd : fd ∈ s.opened) (h : ∀ id, s.loops id ≠ some fd)
    (id : Nat) : s.loops id = none := by
  refine Option.eq_none_iff_forall_not_mem.mpr fun i hi => h id ?_
  have hsame : some i = some fd :=
    (hs.opened i (hs.bound id i hi)).symm.trans (hs.opened fd hfd)
  exact (Option.mem_def.mp hi).trans hsame

theorem Intact.unmounted (hs : Intact k s) (h : ∀ id, s.loops id = none) : s.mounts = [] := by
  refine List.eq_nil_iff_forall_not_mem.mpr fun id hid => ?_
  have hbound := hs.mounted id hid
  rw [h id] at hbound
  cases hbound

/-- The first device is bound. -/
theorem Forward.bind (hs : Intact k s) (hfd : fd ∈ s.opened) (hnone : ∀ id, s.loops id = none) :
    Forward k p s (s.bind p id fd) := by
  have honly (j i : Nat) (hj : (s.bind p id fd).loops j = some i) : j = id ∧ i = fd := by
    by_cases hne : j = id
    · rw [hne, s.bind_self] at hj
      exact ⟨hne, (Option.some.inj hj).symm⟩
    · rw [s.bind_of_ne hne, hnone j] at hj
      cases hj
  refine ⟨fun _ => ⟨hs.opened, fun j i hj => ?_, fun j j' i hj hj' => ?_, fun j hj => ?_, hs.once⟩,
    fun q _ => ⟨fun _ h => h, fun _ h => h, fun j hj => ?_⟩⟩
  · exact (honly j i hj).2 ▸ hfd
  · exact (honly j i hj).1.trans (honly j' i hj').1.symm
  · have hmounted : j ∈ s.mounts := hj
    rw [hs.unmounted hnone] at hmounted
    cases hmounted
  · have hbound := hj.bound
    rw [hnone j] at hbound
    cases hbound

theorem Holding.of_bind (hnone : s.mounts = []) : Holding p id (s.bind p id fd) where
  keeper := s.bind_keeper
  bound := by
    rw [s.bind_self]
    rfl
  unmounted := hnone

/-- A run mounts the device that it holds. -/
theorem Forward.mount (hs : Intact k s) (hid : Holding p id s) :
    Forward k p s { s with mounts := id :: s.mounts } := by
  refine ⟨fun _ => ⟨hs.opened, hs.bound, hs.single, fun j hj => ?_, ?_⟩, fun q hne => ⟨fun _ h => h,
    fun _ h => List.mem_cons_of_mem _ h, fun j hj => ?_⟩⟩
  · obtain rfl | hold := List.mem_cons.mp hj
    · exact hid.bound
    · exact hs.mounted j hold
  · show (id :: s.mounts).length ≤ 1
    rw [hid.unmounted]
    exact Nat.le_refl 1
  · -- the one device that is bound is not another's
    have hsame : id = j := hs.one hid.bound hj.bound
    exact absurd (hid.keeper.symm.trans (hsame ▸ hj.keeper)) hne

/-- A run closes the device that it holds, or one that is mounted. -/
theorem Forward.unbind (h : id ∈ s.mounts ∨ Holding p id s) : Forward k p s (s.unbind id) := by
  by_cases hmounted : id ∈ s.mounts
  · rw [s.unbind_of_mounted hmounted]
    exact Forward.refl
  have hid : Holding p id s := h.resolve_left hmounted
  have hback {j i : Nat} (hj : (s.unbind id).loops j = some i) : s.loops j = some i := by
    have hne : j ≠ id := by
      rintro rfl
      rw [s.unbind_self hmounted] at hj
      cases hj
    rwa [s.unbind_of_ne hne] at hj
  refine ⟨fun hs => ⟨fun i hi => ?_, fun j i hj => ?_, fun j j' i hj hj' => ?_, fun j hj => ?_, ?_⟩,
    fun q hne => ⟨fun i hi => ?_, fun j hj => ?_, fun j hj => ?_⟩⟩
  · rw [s.unbind_opened] at hi
    rw [s.unbind_files]
    exact hs.opened i hi
  · rw [s.unbind_opened]
    exact hs.bound j i (hback hj)
  · exact hs.single j j' i (hback hj) (hback hj')
  · rw [s.unbind_mounts, hid.unmounted] at hj
    cases hj
  · rw [s.unbind_mounts]
    exact hs.once
  · rwa [s.unbind_opened]
  · rwa [s.unbind_mounts]
  · have hother : j ≠ id := by
      rintro rfl
      exact hne (hid.keeper.symm.trans hj.keeper)
    refine ⟨?_, ?_, ?_⟩
    · rw [s.unbind_keeper]
      exact hj.keeper
    · rw [s.unbind_of_ne hother]
      exact hj.bound
    · rw [s.unbind_mounts]
      exact hj.unmounted

/-- A harmless call of a run that finds no opened image in its way. -/
theorem answer_calm {c : Choice} (call : Call) (hcall : Harmless k call)
    (hfree : Spares k p call s) : Calm k s (LoopFs.answer k p c call s).2 := by
  cases call with
  | access path =>
    simp only [LoopFs.answer]
    split <;> exact Calm.refl
  | mkdir path mode =>
    simp only [LoopFs.answer]
    split
    · exact Calm.refl
    · split
      · split
        · exact Calm.of_plain
        · exact Calm.refl
      · exact Calm.refl
  | unlink path =>
    refine Calm.of_files ?_
    simp only [ImageFs.answer]
    split
    · split
      · exact ImageFs.remove_of_ne _ (Ne.symm hcall)
      · rfl
    · rfl
  | create path mode =>
    refine Calm.of_files ?_
    simp only [ImageFs.answer]
    split
    · exact ImageFs.make_of_ne _ p (Ne.symm hcall)
    · rfl
  | rename old new =>
    by_cases hnew : new = k.img
    · exact Calm.of_spared (hfree hnew)
    · refine Calm.of_files ?_
      simp only [ImageFs.answer]
      split
      · split
        · exact ImageFs.move_of_ne _ (Ne.symm hcall) (Ne.symm hnew)
        · rfl
      · rfl
  | openRw path =>
    have himg : path = k.img := hcall
    simp only [LoopFs.answer]
    split
    · rename_i fd hfd
      simp only [ImageFs.answer] at hfd
      split at hfd
      · exact Calm.of_opened (himg ▸ (s.files.opens_some hfd).1)
      · cases hfd
    · exact Calm.refl
  | loopSet id fd => exact hcall.elim
  | loopClose id => exact hcall.elim
  | mountLoop id target => exact hcall.elim
  | ftruncate fd n =>
    refine Calm.of_files ?_
    simp only [ImageFs.answer]
    split
    · split <;> rfl
    · rfl
  | file fd call =>
    refine Calm.of_files ?_
    simp only [ImageFs.answer, ImageFs.onNode]
    split <;> rfl
  | loopFree => exact Calm.refl
  | stat path => exact Calm.refl
  | lstat path => exact Calm.refl
  | statfs path => exact Calm.refl
  | openRead path => exact Calm.refl
  | fstat fd => exact Calm.refl
  | close fd => exact Calm.refl
  | getrandom n => exact Calm.refl
  | time => exact Calm.refl
  | mount source target fstype data => exact Calm.refl

end Rules

section Runs

variable {k : Site} {p : Nat} {A : Type} {pre : LoopFs → Prop}

variable (k) in
/-- What a run may go by when it makes a call. -/
def Orderly (p : Nat) (call : Call) (s : LoopFs) : Prop := Spares k p call s ∧ Intact k s

variable (k p) in
/-- `m`, as run `p` among the others. -/
abbrev Sharing (pre : LoopFs → Prop) (m : Steps A) (post : A → LoopFs → Prop) : Prop :=
  Triple (LoopFs.answer k) (Orderly k) (sharing k) p pre m post

/-- Something is mounted on the loop directory. -/
def Mounted (s : LoopFs) : Prop := s.mounts ≠ []

theorem Relied.mounted {s t : LoopFs} (h : Relied p s t) (hs : Mounted s) : Mounted t := by
  obtain ⟨id, hid⟩ := List.exists_mem_of_ne_nil _ hs
  exact List.ne_nil_of_mem (h.mounts id hid)

theorem stable_true : Stable (sharing k) p fun _ => True := fun _ _ _ _ => trivial

theorem stable_mounted {c : Prop} : Stable (sharing k) p fun s => c → Mounted s :=
  fun _ _ hs ht hc => Relied.mounted ht (hs hc)

theorem Sharing.only {m : Steps A} (hstable : Stable (sharing k) p pre)
    (hm : Only (Harmless k) m) : Sharing k p pre m fun _ => pre := by
  intro cache s hs
  refine AllCalls.safe (hm cache) hstable (fun call t hok ht hallow c => ?_) hs
  have hcalm := answer_calm (c := c) call hok hallow.1
  exact ⟨hcalm.forward, hstable _ _ ht (hcalm.relied p)⟩

theorem Sharing.sys {call : Call} {post : call.Ret → LoopFs → Prop} (hcall : Harmless k call)
    (hpost : ∀ c s, pre s → post (LoopFs.answer k p c call s).1 (LoopFs.answer k p c call s).2)
    (hstable : ∀ r, Stable (sharing k) p (post r)) : Sharing k p pre (Steps.sys call) post :=
  Triple.perform (fun s hs hallow c => ⟨(answer_calm call hcall hallow.1).forward, hpost c s hs⟩)
    hstable

theorem harmless_open (call : Call) (h : OpenFile call) : Harmless k call := by
  cases call <;> trivial

theorem sharing_setupImg (pid : Nat) (hstable : Stable (sharing k) p pre) :
    Sharing k p pre (setupExt4Img pid k.img) fun _ => pre := by
  have htmp := tmpName_ne k.img pid
  exact Sharing.only hstable
    (only_setupImg harmless_open trivial trivial (fun _ => htmp) htmp htmp)

theorem sharing_mkdir (path : CStr) (hstable : Stable (sharing k) p pre) :
    Sharing k p pre (Steps.ioMkdir path) fun _ => pre :=
  Sharing.only hstable (only_mkdirDepth (fun _ _ => trivial) (fun _ => trivial) _ path)

/-- A file is attached only when none is. -/
theorem sharing_loopSet (id fd : Nat) :
    Sharing k p (fun s => fd ∈ s.opened) (Steps.sys (.loopSet id fd))
      fun (ok : Bool) s => ok = true → Holding p id s := by
  refine Triple.perform (fun s hfd hallow c => ?_) fun ok s t hs ht hok => ht.holds id (hs hok)
  have hnone : ∀ j, s.loops j = none := hallow.2.unbound hfd hallow.1
  simp only [LoopFs.answer]
  split
  · exact ⟨Forward.bind hallow.2 hfd hnone, fun _ => Holding.of_bind (hallow.2.unmounted hnone)⟩
  · exact ⟨Forward.refl, fun hok => by cases hok⟩

/-- A device that is found is held. -/
theorem sharing_ioLoop : Sharing k p (fun _ => True) (ioLoop k.img)
    fun r s => ∀ id, r = some id → Holding p id s := by
  refine Triple.bind (Sharing.sys trivial (fun _ _ _ => trivial) fun _ => stable_true) fun id => ?_
  cases id with
  | none => exact Triple.pure fun _ _ _ h => by cases h
  | some id =>
    have hopen : Sharing k p (fun _ => True) (Steps.sys (.openRw k.img)) fun (r : Option Nat) s =>
        ∀ fd, r = some fd → fd ∈ s.opened := by
      refine Sharing.sys rfl (fun c s _ fd hfd => ?_) fun r s t hs ht fd hfd => ?_
      · simp only [LoopFs.answer] at hfd ⊢
        split at hfd
        · cases hfd
          exact List.mem_cons_self
        · cases hfd
      · exact ht.opened fd (hs fd hfd)
    refine Triple.bind hopen fun fd => ?_
    cases fd with
    | none => exact Triple.pure fun _ _ _ h => by cases h
    | some fd =>
      have hset := Triple.conseq (sharing_loopSet (k := k) (p := p) id fd)
        (fun s (hs : ∀ f, some fd = some f → f ∈ s.opened) => hs fd rfl) fun _ _ h => h
      refine Triple.bind hset fun ok => ?_
      have hstable : Stable (sharing k) p fun s => ok = true → Holding p id s :=
        fun _ _ hs ht hok => ht.holds id (hs hok)
      refine Triple.bind (Sharing.only hstable (Only.perform trivial)) fun _ => ?_
      refine Triple.pure fun s hs j hj => ?_
      cases ok with
      | false => cases hj
      | true =>
        cases hj
        exact hs rfl

/-- After the attempt to mount it the device is mounted, or held as before. -/
theorem sharing_mountLoop (id : Nat) (target : CStr) :
    Sharing k p (Holding p id) (Steps.sys (.mountLoop id target)) fun (r : Option Errno) s =>
      (r = none → Mounted s) ∧ (id ∈ s.mounts ∨ Holding p id s) := by
  refine Triple.perform (fun s hid hallow c => ?_) fun r s t hs ht => ?_
  · simp only [LoopFs.answer]
    split
    · exact ⟨Forward.mount hallow.2 hid, fun _ => List.cons_ne_nil _ _, Or.inl List.mem_cons_self⟩
    · exact ⟨Forward.refl, (fun h => by cases h), Or.inr hid⟩
  · exact ⟨fun hr => Relied.mounted ht (hs.1 hr), hs.2.imp (ht.mounts id) (ht.holds id)⟩

theorem sharing_loopClose {c : Prop} (id : Nat) :
    Sharing k p (fun s => (c → Mounted s) ∧ (id ∈ s.mounts ∨ Holding p id s))
      (Steps.sys (.loopClose id)) fun _ s => c → Mounted s := by
  refine Triple.perform (fun s hs _ _ => ⟨Forward.unbind hs.2, fun hc => ?_⟩) fun _ => stable_mounted
  show (s.unbind id).mounts ≠ []
  rw [s.unbind_mounts]
  exact hs.1 hc

/-- What a run that has moved its directories relies on. -/
def MovedTo (r : Option Dirs) (s : LoopFs) : Prop := r.isSome → Mounted s

theorem movedTo_none (s : LoopFs) : MovedTo none s := fun h => by cases h

/-- The loop directory is on a device of its own only when something is mounted there. -/
theorem sharing_lstat (path : CStr) (hstable : Stable (sharing k) p pre) :
    Sharing k p pre (Steps.sys (.lstat path)) fun (r : Except Errno Stat) s =>
      pre s ∧ ∀ st, r = .ok st → st.dev ≠ k.base → Mounted s := by
  refine Sharing.sys trivial (fun c s hs => ⟨hs, fun st hst hdev => ?_⟩) fun r s t hs ht => ?_
  · intro hnone
    simp only [LoopFs.answer] at hst
    split at hst
    · split at hst
      · cases hst
      · cases hst
        have hmounts : s.mounts = [] := hnone
        exact hdev (by simp [Site.dev, hmounts])
    · cases hst
  · exact ⟨hstable _ _ hs.1 ht, fun st hst hdev => Relied.mounted ht (hs.2 st hst hdev)⟩

theorem sharing_requireRealDir (path : CStr) (hstable : Stable (sharing k) p pre) :
    Sharing k p pre (requireRealDir path) fun _ => pre := by
  refine Triple.bind (Sharing.sys trivial (fun c s hs => ?_) fun _ => hstable) fun st => ?_
  · exact hs
  · cases st with
    | error _ => exact Triple.pure fun _ hs => hs
    | ok st => exact Triple.pure fun _ hs => hs

theorem sharing_provisioned (dirs : Dirs) (lp : Loop) (keepWork : Bool) :
    Sharing k p (fun _ => True) (useProvisionedLoopback dirs lp k.base keepWork) MovedTo := by
  refine Triple.bind (sharing_lstat lp.loopdir stable_true) fun st => ?_
  cases st with
  | error _ => exact Triple.pure fun s _ => movedTo_none s
  | ok st =>
    refine Triple.bind (Triple.conseq (sharing_requireRealDir _ stable_mounted)
      (fun s hs => hs.2 st rfl) fun _ _ h => h) fun r => ?_
    refine Triple.ite (fun _ => Triple.pure fun s _ => movedTo_none s) fun _ => ?_
    refine Triple.ite (fun _ => Triple.pure fun s _ => movedTo_none s) fun hdev => ?_
    cases setLoopAppdir dirs lp keepWork with
    | none => exact Triple.pure fun s _ => movedTo_none s
    | some d => exact Triple.pure fun s hs _ => hs hdev

section Moving

variable {lp : Loop} (hdir : lp.loopdir = k.loopdir) (himg : lp.loopImg = k.img)

include hdir himg in
theorem sharing_loopback (pid : Nat) (dirs : Dirs) (keepWork : Bool) :
    Sharing k p (fun _ => True) (setupExt4Loopback pid dirs lp keepWork) MovedTo := by
  unfold setupExt4Loopback
  rw [hdir, himg]
  refine Triple.bind (sharing_setupImg pid stable_true) fun rc => ?_
  refine Triple.ite (fun _ => Triple.pure fun s _ => movedTo_none s) fun _ => ?_
  refine Triple.bind sharing_ioLoop fun id => ?_
  cases id with
  | none => exact Triple.pure fun s _ => movedTo_none s
  | some id =>
    refine Triple.bind (Triple.conseq (sharing_mountLoop id k.loopdir) (fun s hs => hs id rfl)
      fun _ _ h => h) fun r => ?_
    refine Triple.bind (sharing_loopClose id) fun _ => ?_
    cases r with
    | some _ => exact Triple.pure fun s _ => movedTo_none s
    | none =>
      cases setLoopAppdir dirs lp keepWork with
      | none => exact Triple.pure fun s _ => movedTo_none s
      | some d =>
        have hmkdir : Sharing k p (fun s => (none : Option Errno) = none → Mounted s)
            (mkdirChecked d.appdir) fun _ s => (none : Option Errno) = none → Mounted s :=
          Triple.bind (sharing_mkdir d.appdir stable_mounted) fun _ => Triple.pure fun _ hs => hs
        exact Triple.bind hmkdir fun rc => Triple.pure fun s hs _ => hs rfl

include hdir himg in
theorem sharing_mounted (pid : Nat) (dirs : Dirs) (keepWork : Bool) :
    Sharing k p (fun _ => True) (ensureExt4Mounted pid dirs lp k.base keepWork) MovedTo := by
  refine Triple.bind (sharing_lstat lp.loopdir stable_true) fun st => ?_
  cases st with
  | error _ =>
    refine Triple.bind (Triple.conseq (sharing_mkdir lp.loopdir stable_true)
      (fun _ _ => trivial) fun _ _ h => h) fun rc => ?_
    exact Triple.ite (fun _ => Triple.pure fun s _ => movedTo_none s)
      fun _ => sharing_loopback hdir himg pid dirs keepWork
  | ok st =>
    refine Triple.bind (Triple.conseq (sharing_requireRealDir _ stable_mounted)
      (fun s hs => hs.2 st rfl) fun _ _ h => h) fun r => ?_
    refine Triple.ite (fun _ => Triple.pure fun s _ => movedTo_none s) fun _ => ?_
    refine Triple.ite (fun hdev => Triple.pure fun s hs _ => hs hdev) fun _ => ?_
    exact Triple.conseq (sharing_loopback hdir himg pid dirs keepWork) (fun _ _ => trivial)
      fun _ _ h => h

end Moving

section Detection

theorem sharing_look {m : Steps A} (hm : Only (Harmless k) m) :
    Sharing k p (fun _ => True) m fun _ _ => True := Sharing.only stable_true hm

theorem only_onOverlayfs (path : CStr) : Only (Harmless k) (onOverlayfs path) := by
  refine Only.bind (Only.perform trivial) fun r => ?_
  cases r with
  | none => exact Only.pure _
  | some f => exact Only.pure _

/-- A path, or one of those above it. -/
def UpTo (path q : CStr) : Prop := q = path ∨ q ≠ [] ∧ q <+: path

theorem UpTo.trans {path q r : CStr} (hq : UpTo path q) (hr : UpTo q r) : UpTo path r := by
  obtain rfl | ⟨hne, hpre⟩ := hr
  · exact hq
  · obtain rfl | ⟨-, hpre'⟩ := hq
    · exact Or.inr ⟨hne, hpre⟩
    · exact Or.inr ⟨hne, hpre.trans hpre'⟩

theorem sharing_resolveExistingParent (n : Nat) (path : CStr) :
    Sharing k p (fun _ => True) (resolveExistingParent n path)
      fun r _ => ∀ q, r = some q → UpTo path q := by
  have hself : ∀ q, some path = some q → UpTo path q := fun q hq => Or.inl (Option.some.inj hq).symm
  induction n generalizing path with
  | zero => exact Triple.pure fun _ _ => hself
  | succ n ih =>
    refine Triple.bind (sharing_look (only_ioExists trivial)) fun r => ?_
    refine Triple.ite (fun _ => Triple.pure fun _ _ q hq => by cases hq) fun _ => ?_
    refine Triple.ite (fun _ => Triple.pure fun _ _ => hself) fun _ => ?_
    cases hslash : beforeLastSlash path with
    | none => exact Triple.pure fun _ _ => hself
    | some len =>
      have hne : path ≠ [] := by
        rintro rfl
        cases hslash
      cases len with
      | zero =>
        refine Triple.pure fun _ _ q hq => Or.inr ?_
        rw [← Option.some.inj hq]
        exact ⟨by simpa using hne, List.take_prefix _ _⟩
      | succ len =>
        have hup : UpTo path (path.take (len + 1)) := by
          refine Or.inr ⟨?_, List.take_prefix _ _⟩
          simpa using hne
        refine Triple.conseq (ih _ fun q hq => Or.inl (Option.some.inj hq).symm) (fun _ h => h)
          fun r s hr q hq => hup.trans (hr q hq)

/-- The runs that the loop directory is for: their appdirs lead there, and their lower
directories are on the file system that has it. Where an upper directory lies below the
loop directory to begin with, it lies in the lower tree, and on that file system too
unless something is mounted on the loop directory. -/
structure Visits (k : Site) (v : Visit) : Prop where
  loop : deriveLoopdir v.dirs.appdir = some k.loopdir
  lower : ∀ s st, k.stat s v.dirs.lowerdir = .ok st → st.dev = k.base
  inside : pathUnder v.dirs.upperdir k.loopdir = true → ∀ q, UpTo (cutLast v.dirs.upperdir) q →
    isWithin q v.dirs.lowerdir = true ∧
      ∀ s st, k.stat s q = .ok st → st.dev = k.base ∨ Mounted s

/-- A conflict is reported with the device of the lower directory; with no conflict, an
upper directory below the loop directory is on what is mounted there. -/
structure Detects (k : Site) (v : Visit) (r : Int × Nat) (s : LoopFs) : Prop where
  conflict : r.1 > 0 → r.2 = k.base
  apart : r.1 = 0 → pathUnder v.dirs.upperdir k.loopdir = true → Mounted s

theorem detects_failed (v : Visit) (s : LoopFs) : Detects k v (-1, 0) s :=
  ⟨fun h => absurd h (by decide), fun h => absurd h (by decide)⟩

variable {v : Visit} (hv : Visits k v)

include hv in
theorem sharing_statLower : Sharing k p (fun _ => True) (Steps.sys (.stat v.dirs.lowerdir))
    fun (r : Except Errno Stat) _ => ∀ st, r = .ok st → st.dev = k.base := by
  refine Sharing.sys trivial (fun c s _ st hst => ?_) fun _ _ _ hs _ => hs
  simp only [LoopFs.answer] at hst
  split at hst
  · exact hv.lower s st hst
  · cases hst

include hv in
/-- Another device than that of the lower directory shows that something is mounted. -/
theorem sharing_statDev {ap : CStr} (hap : UpTo (cutLast v.dirs.upperdir) ap) :
    Sharing k p (fun _ => True) (statDev v.dirs.lowerdir ap) fun r s =>
      r = 0 → pathUnder v.dirs.upperdir k.loopdir = true → Mounted s := by
  refine Triple.bind (sharing_statLower hv) fun sa => ?_
  cases sa with
  | error _ => exact Triple.pure fun _ _ h => absurd h (by decide)
  | ok sa =>
    have hstat : Sharing k p (fun _ => True) (Steps.sys (.stat ap))
        fun (r : Except Errno Stat) s => ∀ st, r = .ok st → st.dev ≠ k.base →
          pathUnder v.dirs.upperdir k.loopdir = true → Mounted s := by
      refine Sharing.sys trivial (fun c s _ st hst hdev hpath => ?_)
        fun r s t hs ht st hst hdev hpath => Relied.mounted ht (hs st hst hdev hpath)
      simp only [LoopFs.answer] at hst
      split at hst
      · exact ((hv.inside hpath ap hap).2 s st hst).resolve_left hdev
      · cases hst
    by_cases hsa : sa.dev = k.base
    · refine Triple.bind (Triple.conseq hstat (fun _ _ => trivial) fun _ _ h => h) fun sb => ?_
      cases sb with
      | error _ => exact Triple.pure fun _ _ h => absurd h (by decide)
      | ok sb =>
        refine Triple.pure fun s hs hr => hs sb rfl fun hsb => ?_
        rw [hsa, hsb, if_pos rfl] at hr
        cases hr
    · exact fun cache s hs => absurd (hs sa rfl) hsa

include hv in
theorem sharing_needsLoopback {ap : CStr} (hap : UpTo (cutLast v.dirs.upperdir) ap) :
    Sharing k p (fun _ => True) (needsLoopback ap v.dirs.lowerdir) (Detects k v) := by
  refine Triple.bind (sharing_statLower hv) fun st => ?_
  cases st with
  | error _ => exact Triple.pure fun s _ => detects_failed v s
  | ok st =>
    by_cases hdev : st.dev = k.base
    · refine Triple.ite (fun _ => ?_) fun hout => ?_
      · refine Triple.bind (Triple.conseq (sharing_statDev hv hap) (fun _ _ => trivial)
          fun _ _ h => h) fun r => ?_
        exact Triple.pure fun _ hs => ⟨fun _ => hdev, hs⟩
      · have hpath : ¬pathUnder v.dirs.upperdir k.loopdir = true :=
          fun hpath => hout (hv.inside hpath ap hap).1
        refine Triple.bind (Triple.conseq (sharing_look (only_onOverlayfs ap)) (fun _ _ => trivial)
          fun _ _ h => h) fun r => ?_
        exact Triple.pure fun _ _ => ⟨fun _ => hdev, fun _ h => absurd h hpath⟩
    · exact fun cache s hs => absurd (hs st rfl) hdev

include hv in
theorem sharing_detect : Sharing k p (fun _ => True) (sameFsDetect v.dirs.lowerdir v.dirs.upperdir)
    (Detects k v) := by
  refine Triple.bind (sharing_resolveExistingParent _ _) fun ap => ?_
  cases ap with
  | none => exact Triple.pure fun s _ => detects_failed v s
  | some ap =>
    by_cases hap : UpTo (cutLast v.dirs.upperdir) ap
    · exact Triple.conseq (sharing_needsLoopback hv hap) (fun _ _ => trivial) fun _ _ h => h
    · exact fun cache s hs => absurd (hs ap rfl) hap

end Detection

theorem loopFill_site {v : Visit} (hv : Visits k v) {lp : Loop}
    (h : loopFill v.dirs.appdir = some lp) : lp.loopdir = k.loopdir ∧ lp.loopImg = k.img := by
  unfold loopFill at h
  rw [hv.loop] at h
  change loopBuild k.loopdir (appdirLeaf v.dirs.appdir) = some lp at h
  unfold loopBuild at h
  dsimp only at h
  split at h
  · cases h
  · cases h
    exact ⟨rfl, rfl⟩

/-- The run goes on with an upper directory below the loop directory. -/
def Lands (k : Site) (r : Option Dirs) : Prop :=
  ∃ d, r = some d ∧ pathUnder d.upperdir k.loopdir = true

theorem sharing_handleSameFs {v : Visit} (hv : Visits k v) :
    Sharing k p (fun _ => True) (handleSameFs v.pid v.cfg v.dirs)
      fun r s => Lands k r → Mounted s := by
  have hnone (s : LoopFs) : Lands k none → Mounted s := fun ⟨_, h, _⟩ => by cases h
  have hmoved {m : Steps (Option Dirs)} (hm : Sharing k p (fun _ => True) m MovedTo) :
      Sharing k p (fun _ => True) m fun r s => Lands k r → Mounted s := by
    refine Triple.conseq hm (fun _ h => h) fun r s hr hlands => hr ?_
    obtain ⟨d, rfl, -⟩ := hlands
    rfl
  refine Triple.bind (sharing_detect hv) fun r => ?_
  refine Triple.ite (fun _ => Triple.pure fun s _ => hnone s) fun hneg => ?_
  refine Triple.ite (fun hzero => Triple.pure fun s hs => ?_) fun hzero => ?_
  · rintro ⟨d, hd, hpath⟩
    cases hd
    exact hs.apart hzero hpath
  · refine Triple.ite (fun _ => Triple.pure fun s _ => hnone s) fun _ => ?_
    cases hfill : loopFill v.dirs.appdir with
    | none => exact Triple.pure fun s _ => hnone s
    | some lp =>
      obtain ⟨hdir, himg⟩ := loopFill_site hv hfill
      dsimp only
      cases loopDirsSet v.dirs v.cfg lp with
      | none => exact Triple.pure fun s _ => hnone s
      | some d =>
        by_cases hbase : r.2 = k.base
        · rw [hbase]
          refine Triple.bind (Triple.conseq (sharing_look (only_ioExists trivial))
            (fun _ _ => trivial) fun _ _ h => h) fun e => ?_
          refine Triple.ite (fun _ => hmoved ?_) fun _ => hmoved ?_
          · exact sharing_provisioned d lp _
          · exact sharing_mounted hdir himg _ d _
        · exact fun cache s hs => absurd (hs.conflict (by omega)) hbase

end Runs

end Cage.Sandbox
