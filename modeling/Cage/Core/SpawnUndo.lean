import Mathlib.Logic.Function.Basic
import Cage.Core.Spawn

/-!
What a failed `spawn_cage` leaves behind. The calls are answered in any way; the
pidfiles and the directories, the descriptors of the pidfile and the memory are
followed through them.
-/

namespace Cage.Core.Spawn

open Lib.Program Util

/-- `entry` has the pidfiles and the directories, each with a number of its own; `made`
are those of the pidfile, the cgroup leaf and the root that this spawn made. `twice`
tells that something was freed which was not allocated. -/
structure World where
  entry : CStr → Option Nat
  made : List Nat
  fds : List Fd
  live : List Ptr
  twice : Bool

def World.start (entry : CStr → Option Nat) : World :=
  { entry := entry, made := [], fds := [], live := [], twice := false }

def Below (p q : CStr) : Prop := q = p ∨ p ++ [slash] <+: q

instance (p q : CStr) : Decidable (Below p q) := inferInstanceAs (Decidable (_ ∨ _))

def World.Fresh (s : World) (i : Nat) : Prop := i ∉ s.made ∧ ∀ p, s.entry p ≠ some i

def World.add (s : World) (p : CStr) (i : Nat) : World :=
  { s with entry := Function.update s.entry p (some i), made := i :: s.made }

def World.unlink (s : World) (p : CStr) : World :=
  { s with entry := Function.update s.entry p none }

/-- With all that is in it. -/
def World.remove (s : World) (p : CStr) : World :=
  { s with entry := fun q => if Below p q then none else s.entry q }

def World.free (s : World) (p : Ptr) : World :=
  if p ∈ s.live then { s with live := s.live.erase p } else { s with twice := true }

/-- Directories have come, or have come to be seen; none of them is one that this
spawn has to remove. -/
def Grown (s t : World) : Prop :=
  ∃ entry, t = { s with entry := entry } ∧ (∀ p i, s.entry p = some i → entry p = some i) ∧
    ∀ p i, entry p = some i → s.entry p = some i ∨ i ∉ s.made

/-- Some of what is at the path or below it has gone. -/
def Thinned (p : CStr) (s t : World) : Prop :=
  ∃ entry, t = { s with entry := entry } ∧
    ∀ q, entry q = s.entry q ∨ Below p q ∧ entry q = none

def Allocated (s : World) (r : Option Ptr) (t : World) : Prop :=
  r = none ∧ t = s ∨ ∃ p, r = some p ∧ p ∉ s.live ∧ t = { s with live := p :: s.live }

/-- What the calls may answer and do. -/
def Answered : (k : SpawnCall) → World → k.Ret → World → Prop
  | .proc (.create path), s, r, t => r = none ∧ t = s ∨
      ∃ fd i, r = some fd ∧ fd ∉ s.fds ∧ s.entry path = none ∧ s.Fresh i ∧
        t = { s.add path i with fds := fd :: s.fds }
  | .proc (.close fd), s, _, t => t = { s with fds := s.fds.erase fd }
  | .proc (.mkdir _), s, _, t => Grown s t
  | .proc (.unlink path), s, _, t => t = s ∨ t = s.unlink path
  | .alloc, s, p, t => Allocated s (some p) t
  | .mmap, s, r, t => Allocated s r t
  | .ioRead _, s, b, t => Allocated s b.data t
  | .free p, s, _, t => t = s.free p
  | .munmap p, s, _, t => t = s.free p
  | .setupAppdir, s, _, t => Grown s t
  | .mountCgroup2, s, _, t => Grown s t
  | .mkdir path, s, r, t => r ≠ .ok ∧ t = s ∨
      r = .ok ∧ s.entry path = none ∧ ∃ i, s.Fresh i ∧ t = s.add path i
  | .mkdtemp _, s, r, t => r.1 = false ∧ t = s ∨
      r.1 = true ∧ (∀ q, Below r.2 q → s.entry q = none) ∧ ∃ i, s.Fresh i ∧ t = s.add r.2 i
  | .rmdir path, s, r, t => r = false ∧ t = s ∨ r = true ∧ t = s.remove path
  | .rmtree path, s, r, t => r ≠ 0 ∧ Thinned path s t ∨ r = 0 ∧ t = s.remove path
  | .cgroupRmdir path, s, r, t => r ≠ 0 ∧ Thinned path s t ∨ r = 0 ∧ t = s.remove path
  | _, s, _, t => t = s

/-- The lock of the new pidfile is had; a `mkdtemp` that fails does not leave the path of
something that exists; the cgroup directory that the clean-up removes is of this spawn;
and the calls of the clean-up do not fail. -/
def Meets : (k : SpawnCall) → World → k.Ret → World → Prop
  | .proc (.flock _), _, r, _ => r = true
  | .proc (.access path), s, r, _ => (∃ i ∈ s.made, s.entry path = some i) → r = none
  | .proc (.unlink path), _, _, t => t.entry path = none
  | .mkdtemp _, s, r, _ => r.1 = false → ∀ q, Below r.2 q → s.entry q = none
  | .rmtree _, _, r, _ => r = 0
  | .cgroupRmdir path, s, r, _ =>
      r = 0 ∧ ∀ q, Below path q → ∀ i, s.entry q = some i → i ∈ s.made
  | _, _, _, _ => True

def AnsweredWell (k : SpawnCall) (s : World) (r : k.Ret) (t : World) : Prop :=
  Answered k s r t ∧ Meets k s r t

/-- From `s` to `t` nothing was left: what was there is there, what was made is gone, no
descriptor has stayed open, and nothing was freed twice. -/
structure Undone (s t : World) : Prop where
  kept : ∀ p i, s.entry p = some i → t.entry p = some i
  gone : ∀ p i, t.entry p = some i → i ∉ t.made
  closed : t.fds = s.fds
  once : t.twice = false

section Owing

/-- What has still to be given back: what stands at the paths `own`, the memory and the
descriptors. -/
structure Owing (s0 : World) (own : List CStr) (ptrs : List Ptr) (fds : List Fd) (s : World) :
    Prop where
  kept : ∀ p i, s0.entry p = some i → s.entry p = some i
  other : ∀ p i, s0.entry p = some i → i ∉ s.made
  own : ∀ p i, s.entry p = some i → i ∈ s.made → p ∈ own
  fds : s.fds = fds
  once : s.twice = false
  nodup : ptrs.Nodup
  live : ∀ p ∈ ptrs, p ∈ s.live

variable {s0 s t : World} {own own' : List CStr} {ptrs ptrs' : List Ptr} {fds : List Fd}

theorem Owing.start (entry : CStr → Option Nat) :
    Owing (World.start entry) [] [] [] (World.start entry) where
  kept _ _ h := h
  other _ _ _ h := nomatch h
  own _ _ _ h := nomatch h
  fds := rfl
  once := rfl
  nodup := List.nodup_nil
  live _ h := nomatch h

theorem Owing.undone (h : Owing s0 [] ptrs s0.fds s) : Undone s0 s where
  kept := h.kept
  gone p i hp hi := nomatch h.own p i hp hi
  closed := h.fds
  once := h.once

/-- More may be owed than is, and memory may be forgotten. -/
theorem Owing.mono (h : Owing s0 own ptrs fds s) (hown : own ⊆ own') (hptrs : ptrs'.Sublist ptrs) :
    Owing s0 own' ptrs' fds s where
  kept := h.kept
  other := h.other
  own p i hp hi := hown (h.own p i hp hi)
  fds := h.fds
  once := h.once
  nodup := h.nodup.sublist hptrs
  live p hp := h.live p (hptrs.subset hp)

theorem Owing.perm (h : Owing s0 own ptrs fds s) (hptrs : ptrs.Perm ptrs') :
    Owing s0 own ptrs' fds s :=
  { h with
    nodup := hptrs.nodup_iff.mp h.nodup
    live := fun p hp => h.live p (hptrs.mem_iff.mpr hp) }

theorem Owing.grown (h : Owing s0 own ptrs fds s) (ht : Grown s t) : Owing s0 own ptrs fds t := by
  obtain ⟨entry, rfl, hmore, hnew⟩ := ht
  refine { h with kept := fun p i hp => hmore p i (h.kept p i hp), own := fun p i hp hi => ?_ }
  exact h.own p i ((hnew p i hp).resolve_right fun hno => hno hi) hi

theorem Owing.alloc {r : Option Ptr} (h : Owing s0 own ptrs fds s) (ht : Allocated s r t) :
    Owing s0 own (r.toList ++ ptrs) fds t := by
  obtain ⟨rfl, rfl⟩ | ⟨p, rfl, hp, rfl⟩ := ht
  · exact h
  · refine { h with nodup := ?_, live := fun q hq => ?_ }
    · exact List.nodup_cons.mpr ⟨fun hmem => hp (h.live p hmem), h.nodup⟩
    · rcases List.mem_cons.mp hq with rfl | hq
      · exact List.mem_cons_self
      · exact List.mem_cons_of_mem p (h.live q hq)

theorem Owing.free {p : Ptr} (h : Owing s0 own (p :: ptrs) fds s) :
    Owing s0 own ptrs fds (s.free p) := by
  obtain ⟨hp, hnodup⟩ := List.nodup_cons.mp h.nodup
  rw [World.free, if_pos (h.live p List.mem_cons_self)]
  refine { h with nodup := hnodup, live := fun q hq => ?_ }
  refine (List.mem_erase_of_ne ?_).mpr (h.live q (List.mem_cons_of_mem p hq))
  exact fun hqp => hp (hqp ▸ hq)

/-- Something new is made at a path where nothing is. -/
theorem Owing.add {p : CStr} {i : Nat} (h : Owing s0 own ptrs fds s) (hp : s.entry p = none)
    (hi : s.Fresh i) : Owing s0 (p :: own) ptrs fds (s.add p i) where
  kept q j hq := by
    have hne : q ≠ p := by
      rintro rfl
      rw [h.kept q j hq] at hp
      cases hp
    exact (Function.update_of_ne hne _ _).trans (h.kept q j hq)
  other q j hq hj := by
    rcases List.mem_cons.mp hj with rfl | hj
    · exact hi.2 q (h.kept q j hq)
    · exact h.other q j hq hj
  own q j hq hj := by
    by_cases hne : q = p
    · exact hne ▸ List.mem_cons_self
    · have hold : s.entry q = some j := (Function.update_of_ne hne _ _).symm.trans hq
      rcases List.mem_cons.mp hj with rfl | hj
      · exact absurd hold (hi.2 q)
      · exact List.mem_cons_of_mem p (h.own q j hold hj)
  fds := h.fds
  once := h.once
  nodup := h.nodup
  live := h.live

theorem Owing.unlink {p : CStr} (h : Owing s0 (p :: own) ptrs fds s) (hp : s0.entry p = none) :
    Owing s0 own ptrs fds (s.unlink p) := by
  have hnone : (s.unlink p).entry p = none := Function.update_self _ _ _
  refine { h with kept := fun q i hq => ?_, own := fun q i hq hi => ?_ }
  · have hne : q ≠ p := by
      rintro rfl
      rw [hp] at hq
      cases hq
    exact (Function.update_of_ne hne _ _).trans (h.kept q i hq)
  · have hne : q ≠ p := by
      rintro rfl
      rw [hnone] at hq
      cases hq
    have hold : s.entry q = some i := (Function.update_of_ne hne _ _).symm.trans hq
    exact (List.mem_cons.mp (h.own q i hold hi)).resolve_left hne

/-- Where all there is was made by this spawn, it may be removed. -/
theorem Owing.remove {p : CStr} (h : Owing s0 (p :: own) ptrs fds s)
    (hp : ∀ q, Below p q → ∀ i, s.entry q = some i → i ∈ s.made) :
    Owing s0 own ptrs fds (s.remove p) := by
  refine { h with kept := fun q i hq => ?_, own := fun q i hq hi => ?_ }
  · have hno : ¬ Below p q := fun hbelow =>
      h.other q i hq (hp q hbelow i (h.kept q i hq))
    exact (if_neg hno).trans (h.kept q i hq)
  · change (if Below p q then none else s.entry q) = some i at hq
    split at hq
    · cases hq
    · rename_i hno
      refine (List.mem_cons.mp (h.own q i hq hi)).resolve_left fun hqp => hno ?_
      exact Or.inl hqp

end Owing

section Calls

variable (s0 : World)

/-- The fields that the clean-up reads are these. -/
structure Agrees (st c : SpawnSt) : Prop where
  hostXdg : c.hostXdg = st.hostXdg
  pidfile : c.pidfile = st.pidfile
  freePidfile : c.freePidfile = st.freePidfile
  root : c.root = st.root
  pidfd : c.pidfd = st.pidfd
  cgFsType : c.cgFsType = st.cgFsType
  cgPid : c.cgPid = st.cgPid
  netFutex : c.netFutex = st.netFutex
  rootFutex : c.rootFutex = st.rootFutex

def Frame (st : SpawnSt) (own : List CStr) (ptrs : List Ptr) (fds : List Fd) (c : SpawnSt)
    (s : World) : Prop :=
  Agrees st c ∧ Owing s0 own ptrs fds s

/-- What is owed after `m` is what was owed before it. -/
def Balanced {A : Type} (m : SpawnM A) : Prop :=
  ∀ st own ptrs fds, Ends AnsweredWell (Frame s0 st own ptrs fds) m fun _ => Frame s0 st own ptrs fds

variable {s0} {A B : Type} {st : SpawnSt} {own : List CStr} {ptrs : List Ptr} {fds : List Fd}

theorem Balanced.pure (a : A) : Balanced s0 (Pure.pure a : SpawnM A) :=
  fun _ _ _ _ => Ends.pure fun _ _ h => h

theorem Balanced.bind {m : SpawnM A} {f : A → SpawnM B} (hm : Balanced s0 m)
    (hf : ∀ a, Balanced s0 (f a)) : Balanced s0 (m >>= f) :=
  fun st own ptrs fds => Ends.bind (hm st own ptrs fds) fun a => hf a st own ptrs fds

theorem Balanced.ite {c : Prop} [Decidable c] {m n : SpawnM A} (hm : Balanced s0 m)
    (hn : Balanced s0 n) : Balanced s0 (if c then m else n) :=
  fun st own ptrs fds => Ends.ite (fun _ => hm st own ptrs fds) fun _ => hn st own ptrs fds

theorem balanced_quiet (k : SpawnCall) (hk : ∀ s r t, Answered k s r t → t = s) :
    Balanced s0 (SpawnM.sys k) :=
  fun _ _ _ _ => Ends.perform fun _ s r t h hmay => ⟨h.1, hk s r t hmay.1 ▸ h.2⟩

theorem balanced_grown (k : SpawnCall) (hk : ∀ s r t, Answered k s r t → Grown s t) :
    Balanced s0 (SpawnM.sys k) :=
  fun _ _ _ _ => Ends.perform fun _ s r t h hmay => ⟨h.1, h.2.grown (hk s r t hmay.1)⟩

theorem ends_alloc : Ends AnsweredWell (Frame s0 st own ptrs fds) (SpawnM.sys .alloc)
    fun p => Frame s0 st own (p :: ptrs) fds :=
  Ends.perform fun _ _ _ _ h hmay => ⟨h.1, h.2.alloc hmay.1⟩

theorem ends_mmap : Ends AnsweredWell (Frame s0 st own ptrs fds) (SpawnM.sys .mmap)
    fun r => Frame s0 st own (r.toList ++ ptrs) fds :=
  Ends.perform fun _ _ _ _ h hmay => ⟨h.1, h.2.alloc hmay.1⟩

theorem ends_ioRead (path : CStr) : Ends AnsweredWell (Frame s0 st own ptrs fds)
    (SpawnM.sys (.ioRead path)) fun b => Frame s0 st own (b.data.toList ++ ptrs) fds :=
  Ends.perform fun _ _ _ _ h hmay => ⟨h.1, h.2.alloc hmay.1⟩

theorem ends_free (p : Ptr) : Ends AnsweredWell (Frame s0 st own (p :: ptrs) fds)
    (SpawnM.sys (.free p)) fun _ => Frame s0 st own ptrs fds :=
  Ends.perform fun _ _ _ _ h hmay => ⟨h.1, hmay.1 ▸ h.2.free⟩

theorem ends_munmap (p : Ptr) : Ends AnsweredWell (Frame s0 st own (p :: ptrs) fds)
    (SpawnM.sys (.munmap p)) fun _ => Frame s0 st own ptrs fds :=
  Ends.perform fun _ _ _ _ h hmay => ⟨h.1, hmay.1 ▸ h.2.free⟩

theorem ends_memFree (p : Option Ptr) : Ends AnsweredWell (Frame s0 st own (p.toList ++ ptrs) fds)
    (memFree p) fun _ => Frame s0 st own ptrs fds := by
  cases p with
  | none => exact Ends.pure fun _ _ h => h
  | some p => exact ends_free p

theorem ends_freeFutex (p : Option Ptr) : Ends AnsweredWell
    (Frame s0 st own (p.toList ++ ptrs) fds) (freeFutex p) fun _ => Frame s0 st own ptrs fds := by
  cases p with
  | none => exact Ends.pure fun _ _ h => h
  | some p => exact ends_munmap p

/-- The memory of a path is freed behind that of the buffer which was read from it. -/
theorem ends_free_under (b : Option Ptr) (p : Ptr) : Ends AnsweredWell
    (Frame s0 st own (b.toList ++ p :: ptrs) fds) (SpawnM.sys (.free p))
    fun _ => Frame s0 st own (b.toList ++ ptrs) fds :=
  (ends_free p).conseq (fun _ _ h => ⟨h.1, h.2.perm List.perm_middle⟩) fun _ _ _ h => h

theorem ends_proc {m : ProcM A} {I : SpawnSt → World → Prop} {Q : A → SpawnSt → World → Prop}
    (h : ∀ c s, I c s → m.Wp (fun k s r t => AnsweredWell (.proc k) s r t) (fun a t => Q a c t) s) :
    Ends AnsweredWell I (SpawnM.proc m) Q := by
  intro c s hs
  have hcall : ∀ (k : ProcCall) (s : World),
      (perform (SpawnCall.proc k) : Prog SpawnCall SpawnCall.Ret k.Ret).Wp AnsweredWell
        (fun r t => AnsweredWell (.proc k) s r t) s :=
    fun k s r t hmay => hmay
  exact Wp.bind _ (Wp.mono (fun a t ha => ha) _ (Wp.within hcall m (h c s hs)))

end Calls

section Cgroup

variable {s0 : World}

theorem balanced_exists (path : CStr) : Balanced s0 (SpawnM.proc (ioExistsOnce path)) :=
  fun _ _ _ _ => ends_proc fun _ _ h _ _ hmay => ⟨h.1, hmay.1 ▸ h.2⟩

theorem balanced_cgroupGetType : Balanced s0 cgroupGetType := by
  intro st own ptrs fds
  refine Ends.bind (ends_ioRead _) fun b => ?_
  cases b.text with
  | none => exact Ends.bind (ends_memFree b.data) fun _ => Ends.pure fun _ _ h => h
  | some text => exact Ends.bind (ends_memFree b.data) fun _ => Ends.pure fun _ _ h => h

theorem balanced_writeSubtree (cg val : CStr) : Balanced s0 (writeSubtree cg val) := by
  intro st own ptrs fds
  refine Ends.bind ends_alloc fun p => ?_
  refine Ends.bind (balanced_quiet (.writeFile _ _) (fun _ _ _ h => h) _ _ _ _) fun r => ?_
  exact Ends.bind (ends_free p) fun _ => Ends.pure fun _ _ h => h

theorem balanced_trySubtree (sub val : CStr) (n : Nat) : Balanced s0 (trySubtree sub val n) := by
  induction n with
  | zero => exact Balanced.pure ()
  | succ n ih =>
    refine Balanced.bind (balanced_quiet (.writeFile _ _) fun _ _ _ h => h) fun r => ?_
    refine Balanced.ite ?_ (Balanced.pure ())
    exact Balanced.bind (balanced_quiet (.proc .nanosleep) fun _ _ _ h => h) fun _ => ih

theorem balanced_writeSubtreeValue (dir val : CStr) : Balanced s0 (writeSubtreeValue dir val) := by
  intro st own ptrs fds
  refine Ends.bind ends_alloc fun sub => ?_
  exact Ends.bind (balanced_trySubtree _ val 4 _ _ _ _) fun _ => ends_free sub

/-- A read of the controllers that fails forgets its buffer. -/
theorem balanced_readControllers {path : CStr} {g : CStr → Option Ptr → SpawnM Int}
    (hg : ∀ val b st own ptrs fds, Ends AnsweredWell (Frame s0 st own (b.toList ++ ptrs) fds) (g val b)
      fun _ => Frame s0 st own ptrs fds) : Balanced s0 (do
      let p ← SpawnM.sys .alloc
      let b ← SpawnM.sys (.ioRead path)
      match b.text with
      | none => do
          SpawnM.sys (.free p)
          pure 0
      | some text => do
          SpawnM.sys (.free p)
          match buildSubtreeValue (trimNewline (cstring text)) 256 with
          | none => do
              memFree b.data
              pure 0
          | some val => g val b.data) := by
  intro st own ptrs fds
  refine Ends.bind ends_alloc fun p => Ends.bind (ends_ioRead _) fun b => ?_
  cases b.text with
  | none =>
    refine Ends.bind (ends_free_under b.data p) fun _ => Ends.pure fun _ _ h => ?_
    exact ⟨h.1, h.2.mono (List.Subset.refl _) (List.sublist_append_right _ _)⟩
  | some text =>
    refine Ends.bind (ends_free_under b.data p) fun _ => ?_
    cases buildSubtreeValue (trimNewline (cstring text)) 256 with
    | none => exact Ends.bind (ends_memFree b.data) fun _ => Ends.pure fun _ _ h => h
    | some val => exact hg val b.data st own ptrs fds

theorem balanced_enableCgroupControllers (cg : CStr) : Balanced s0 (enableCgroupControllers cg) := by
  unfold enableCgroupControllers
  refine balanced_readControllers (g := fun val b => do
    let r ← writeSubtree cg val
    memFree b
    pure r) fun val b st own ptrs fds => ?_
  refine Ends.bind (balanced_writeSubtree cg val _ _ _ _) fun r => ?_
  exact Ends.bind (ends_memFree b) fun _ => Ends.pure fun _ _ h => h

theorem balanced_writeEnableControllers (dir : CStr) : Balanced s0 (writeEnableControllers dir) := by
  unfold writeEnableControllers
  refine balanced_readControllers (g := fun val b => do
    writeSubtreeValue dir val
    memFree b
    pure 0) fun val b st own ptrs fds => ?_
  refine Ends.bind (balanced_writeSubtreeValue dir val _ _ _ _) fun _ => ?_
  exact Ends.bind (ends_memFree b) fun _ => Ends.pure fun _ _ h => h

theorem balanced_checkCgroupMount : Balanced s0 checkCgroupMount := by
  intro st own ptrs fds
  refine Ends.bind ends_alloc fun ctrl => ?_
  refine Ends.bind (balanced_exists _ _ _ _ _) fun e => Ends.bind (ends_free ctrl) fun _ => ?_
  refine Balanced.ite (Balanced.pure _) (Balanced.ite (Balanced.pure _) ?_) st own ptrs fds
  refine Balanced.bind (balanced_exists _) fun e => ?_
  exact Balanced.ite (Balanced.pure _) (Balanced.ite (Balanced.pure _) (Balanced.pure _))

theorem balanced_cgroupDetectMount : Balanced s0 cgroupDetectMount := by
  refine Balanced.bind balanced_checkCgroupMount fun r => Balanced.ite (Balanced.pure _) ?_
  refine Balanced.bind (balanced_quiet .unshareMounts fun _ _ _ h => h) fun ns => ?_
  refine Balanced.ite (Balanced.pure _) ?_
  refine Balanced.bind (balanced_quiet .makePrivate fun _ _ _ h => h) fun ok => ?_
  refine Balanced.ite (Balanced.pure _) ?_
  refine Balanced.bind ?_ fun _ => ?_
  · intro st own ptrs fds
    exact Ends.modify _ fun c s h => ⟨{ h.1 with root := h.1.root }, h.2⟩
  · exact Balanced.bind (balanced_grown .mountCgroup2 fun _ _ _ h => h) fun r => Balanced.pure _

theorem balanced_writeProcs (dir : CStr) (pid : Nat) : Balanced s0 (writeProcs dir pid) := by
  intro st own ptrs fds
  refine Ends.bind ends_alloc fun procs => ?_
  refine Ends.bind (balanced_quiet (.writePid _ _) (fun _ _ _ h => h) _ _ _ _) fun r => ?_
  exact Ends.bind (ends_free procs) fun _ => Ends.pure fun _ _ h => h

/-- The leaf that the clean-up looks for. -/
def leaves (fsType : Int) (pid : Nat) : List CStr :=
  if fsType = 2 ∧ (cgdir pid).length < pathMax then [cgdir pid] else []

variable {st : SpawnSt} {own : List CStr} {ptrs : List Ptr} {fds : List Fd}

theorem Frame.more {more : List CStr} {c : SpawnSt} {s : World} (h : Frame s0 st own ptrs fds c s) :
    Frame s0 st (more ++ own) ptrs fds c s :=
  ⟨h.1, h.2.mono (List.subset_append_right _ _) (List.Sublist.refl _)⟩

theorem ends_makeCgroupDir (pid : Nat) : Ends AnsweredWell (Frame s0 st own ptrs fds)
    (makeCgroupDir pid) fun _ => Frame s0 st (leaves 2 pid ++ own) ptrs fds := by
  refine Ends.ite (fun _ => Ends.pure fun _ _ h => h.more) fun hlen => ?_
  have hleaf : leaves 2 pid = [cgdir pid] := if_pos ⟨rfl, by omega⟩
  rw [hleaf]
  refine Ends.bind (Q := fun _ => Frame s0 st ([cgdir pid] ++ own) ptrs fds) (Ends.perform ?_)
    fun r => Ends.pure fun _ _ h => h
  rintro c s r t h ⟨⟨-, rfl⟩ | ⟨-, hnone, i, hfresh, rfl⟩, -⟩
  · exact h.more
  · exact ⟨h.1, h.2.add hnone hfresh⟩

theorem ends_cgroupPreUnshare (fsType : Int) (pid : Nat) :
    Ends AnsweredWell (Frame s0 st own ptrs fds) (cgroupPreUnshare fsType pid)
      fun _ => Frame s0 st (leaves fsType pid ++ own) ptrs fds := by
  refine Ends.ite (fun _ => Ends.pure fun _ _ h => h.more) fun htype => ?_
  obtain rfl : fsType = 2 := not_not.mp htype
  refine Ends.bind (balanced_enableCgroupControllers _ _ _ _ _) fun r => ?_
  refine Ends.ite (fun _ => Ends.pure fun _ _ h => h.more) fun _ => ?_
  refine Ends.bind (ends_makeCgroupDir pid) fun r => ?_
  refine Ends.ite (fun _ => Ends.pure fun _ _ h => h) fun _ => ?_
  refine Ends.bind (balanced_writeProcs _ _ _ _ _ _) fun r => ?_
  exact Ends.ite (fun _ => Ends.pure fun _ _ h => h) fun _ =>
    balanced_writeEnableControllers _ _ _ _ _

/-- The leaf is gone afterwards, if it was this spawn's. -/
theorem ends_cgroupCleanup (fsType : Int) (pid : Nat) :
    Ends AnsweredWell (Frame s0 st (leaves fsType pid ++ own) ptrs fds) (cgroupCleanup pid fsType)
      fun _ => Frame s0 st own ptrs fds := by
  refine Ends.ite (fun htype => Ends.pure fun _ _ h => ?_) fun htype => ?_
  · rwa [leaves, if_neg fun hno => htype hno.1] at h
  refine Ends.ite (fun hlen => Ends.pure fun _ _ h => ?_) fun hlen => ?_
  · rwa [leaves, if_neg fun hno => by omega] at h
  have hleaf : leaves fsType pid = [cgdir pid] := if_pos ⟨not_not.mp htype, by omega⟩
  rw [hleaf]
  refine Ends.bind (Q := fun e c s => Frame s0 st ([cgdir pid] ++ own) ptrs fds c s ∧
    (e ≠ 0 → Frame s0 st own ptrs fds c s)) (ends_proc ?_) fun e => ?_
  · rintro c s h r t ⟨rfl, hmeets⟩
    refine ⟨h, fun hfound => ⟨h.1, { h.2 with own := fun p i hp hi => ?_ }⟩⟩
    refine (List.mem_cons.mp (h.2.own p i hp hi)).resolve_left ?_
    rintro rfl
    rw [hmeets ⟨i, hi, hp⟩] at hfound
    exact hfound rfl
  · refine Ends.ite (fun hfound => Ends.pure fun _ _ h => h.2 hfound) fun _ => ?_
    have hquiet : Balanced s0 (SpawnM.sys (.writePid (cgroupRoot ++ lit "/cgroup.procs") pid)) :=
      balanced_quiet _ fun _ _ _ h => h
    refine Ends.bind ((hquiet st _ ptrs fds).conseq (fun _ _ h => h.1) fun _ _ _ h => h) fun _ => ?_
    refine Ends.bind (Q := fun _ => Frame s0 st own ptrs fds) (Ends.perform ?_) fun _ =>
      Ends.pure fun _ _ h => h
    rintro c s r t h ⟨⟨hfail, -⟩ | ⟨-, rfl⟩, hok, hmade⟩
    · exact absurd hok hfail
    · exact ⟨h.1, h.2.remove hmade⟩

end Cgroup

section Setup

variable {s0 : World} {st : SpawnSt} {own : List CStr} {ptrs : List Ptr} {fds : List Fd}

theorem ends_earlyPrep (fsType : Int) (pid : Nat) :
    Ends AnsweredWell (Frame s0 st own ptrs fds) (earlyPrep fsType pid)
      fun _ => Frame s0 st (leaves fsType pid ++ own) ptrs fds := by
  refine Ends.bind (balanced_grown .setupAppdir (fun _ _ _ h => h) _ _ _ _) fun r => ?_
  refine Ends.ite (fun _ => Ends.pure fun _ _ h => h.more) fun _ => ?_
  refine Ends.ite (fun _ => Ends.pure fun _ _ h => h.more) fun _ => ?_
  refine Ends.bind (balanced_cgroupDetectMount _ _ _ _) fun r => ?_
  refine Ends.ite (fun _ => Ends.pure fun _ _ h => h.more) fun _ => ?_
  exact Ends.bind (ends_cgroupPreUnshare fsType pid) fun r => Ends.pure fun _ _ h => h

/-- Nothing is at the path or below it but what this spawn made. -/
def OwnTree (p : CStr) (s : World) : Prop := ∀ q, Below p q → ∀ i, s.entry q = some i → i ∈ s.made

theorem ownTree_add {p : CStr} {i : Nat} {s : World} (h : ∀ q, Below p q → s.entry q = none) :
    OwnTree p (s.add p i) := by
  intro q hq j hj
  by_cases hne : q = p
  · have hnew : (s.add p i).entry q = some i := by
      rw [hne]
      exact Function.update_self _ _ _
    rw [hnew] at hj
    cases hj
    exact List.mem_cons_self
  · have hold : s.entry q = some j := (Function.update_of_ne hne _ _).symm.trans hj
    rw [h q hq] at hold
    cases hold

/-- Whatever fails, what is to be removed is the root that was made, or nothing. -/
theorem ends_prepareMounts (template : CStr) :
    Ends AnsweredWell (Frame s0 st own ptrs fds) (prepareMounts template)
      fun r c s => Frame s0 st (r.1 :: own) ptrs fds c s ∧ OwnTree r.1 s := by
  refine Ends.bind (Q := fun r c s => Frame s0 st (r.2 :: own) ptrs fds c s ∧ OwnTree r.2 s)
    (Ends.perform ?_) fun r => ?_
  · rintro c s ⟨ok, p⟩ t h ⟨⟨hfail, rfl⟩ | ⟨-, hnone, i, hfresh, rfl⟩, hmeets⟩
    · have hmore : Frame s0 st ([p] ++ own) ptrs fds c t := h.more
      refine ⟨hmore, fun q hq i hi => ?_⟩
      rw [hmeets hfail q hq] at hi
      cases hi
    · exact ⟨⟨h.1, h.2.add (hnone p (Or.inl rfl)) hfresh⟩, ownTree_add hnone⟩
  · have hquiet : ∀ k : SpawnCall, (∀ s r t, Answered k s r t → t = s) →
        Ends AnsweredWell (fun c s => Frame s0 st (r.2 :: own) ptrs fds c s ∧ OwnTree r.2 s)
          (SpawnM.sys k) fun _ c s => Frame s0 st (r.2 :: own) ptrs fds c s ∧ OwnTree r.2 s :=
      fun k hk => Ends.perform fun _ s a t h hmay => hk s a t hmay.1 ▸ h
    refine Ends.ite (fun _ => Ends.pure fun _ _ h => h) fun _ => ?_
    refine Ends.bind (hquiet .unsharePids fun _ _ _ h => h) fun ok => ?_
    refine Ends.ite (fun _ => Ends.pure fun _ _ h => h) fun _ => ?_
    exact Ends.bind (hquiet .fork fun _ _ _ h => h) fun child => Ends.pure fun _ _ h => h

theorem ends_unprepare (root : Ptr) (path : CStr) : Ends AnsweredWell
    (fun c s => Frame s0 st (path :: own) (root :: ptrs) fds c s ∧ OwnTree path s)
    (unprepare (root, path)) fun _ => Frame s0 st own ptrs fds := by
  refine Ends.bind (Q := fun _ => Frame s0 st own (root :: ptrs) fds) (Ends.perform ?_) fun _ =>
    ends_free root
  rintro c s r t ⟨h, hown⟩ ⟨⟨hfail, -⟩ | ⟨-, rfl⟩, hok⟩
  · exact absurd hok hfail
  · exact ⟨h.1, h.2.remove hown⟩

theorem ends_doRootPrep (fsType : Int) (pid : Nat) :
    Ends AnsweredWell (Frame s0 st own ptrs fds) (doRootPrep fsType pid)
      fun r c s => r = none → Frame s0 st (leaves fsType pid ++ own) ptrs fds c s := by
  refine Ends.bind (ends_earlyPrep fsType pid) fun r => ?_
  refine Ends.ite (fun _ => Ends.pure fun _ _ h _ => h) fun _ => ?_
  refine Ends.bind ends_alloc fun root => Ends.bind (ends_prepareMounts _) fun r => ?_
  obtain ⟨path, child⟩ := r
  cases child with
  | none => exact Ends.bind (ends_unprepare root path) fun _ => Ends.pure fun _ _ h _ => h
  | some child => exact Ends.pure fun _ _ _ hr => nomatch hr

theorem ends_setupNetLinks : Ends AnsweredWell (Frame s0 st own ptrs fds) setupNetLinks
    fun r => Frame s0 st own (r.toList ++ ptrs) fds := by
  refine Ends.bind (balanced_quiet .netlinkOpen (fun _ _ _ h => h) _ _ _ _) fun nfd => ?_
  cases nfd with
  | none => exact Ends.pure fun _ _ h => h
  | some nfd =>
    refine Ends.bind (balanced_quiet (.allocVethId _ _) (fun _ _ _ h => h) _ _ _ _) fun id => ?_
    refine Ends.bind (balanced_quiet (.netlinkClose nfd) (fun _ _ _ h => h) _ _ _ _) fun _ => ?_
    cases id with
    | none => exact Ends.pure fun _ _ h => h
    | some id =>
      refine Ends.bind (Q := fun _ => Frame s0 st own ptrs fds) (Ends.modify _ fun c s h => ?_)
        fun _ => ?_
      · exact ⟨{ h.1 with root := h.1.root }, h.2⟩
      refine Ends.bind (balanced_quiet .enableIpForward (fun _ _ _ h => h) _ _ _ _) fun r => ?_
      refine Ends.ite (fun _ => Ends.pure fun _ _ h => h) fun _ => ?_
      refine Ends.bind (balanced_quiet .setupNat (fun _ _ _ h => h) _ _ _ _) fun r => ?_
      refine Ends.ite (fun _ => Ends.pure fun _ _ h => h) fun _ => ?_
      refine Ends.bind (balanced_quiet .enableIp6Forward (fun _ _ _ h => h) _ _ _ _) fun _ => ?_
      exact Ends.bind (balanced_quiet .setupNat6 (fun _ _ _ h => h) _ _ _ _) fun _ => ends_mmap

theorem ends_setupNetOrFail (cfg : SpawnCfg) (hst : st.netFutex = none) :
    Ends AnsweredWell (Frame s0 st own ptrs fds) (setupNetOrFail cfg) fun _ c s =>
      ∃ nf, Frame s0 { st with netFutex := nf } own (nf.toList ++ ptrs) fds c s := by
  have hnone : { st with netFutex := none } = st := by rw [← hst]
  refine Ends.ite (fun _ => Ends.pure fun _ _ h => ⟨none, by rw [hnone]; exact h⟩) fun _ => ?_
  refine Ends.bind (balanced_quiet (.modprobeLoad _) (fun _ _ _ h => h) _ _ _ _) fun r => ?_
  refine Ends.ite (fun _ => Ends.pure fun _ _ h => ⟨none, by rw [hnone]; exact h⟩) fun _ => ?_
  refine Ends.bind ends_setupNetLinks fun futex => ?_
  refine Ends.bind (Q := fun _ c s => ∃ nf, Frame s0 { st with netFutex := nf } own
    (nf.toList ++ ptrs) fds c s) (Ends.modify _ fun c s h => ⟨futex, ?_, h.2⟩) fun _ =>
      Ends.pure fun _ _ h => h
  exact { h.1 with netFutex := rfl }

theorem ends_setupCgroup (cfg : SpawnCfg) :
    Ends AnsweredWell (Frame s0 st own ptrs fds) (setupCgroup cfg) fun _ c s =>
      ∃ fs pid, Frame s0 { st with cgFsType := fs, cgPid := pid } own ptrs fds c s := by
  refine Ends.ite (fun _ => Ends.pure fun _ _ h => ⟨st.cgFsType, st.cgPid, h⟩) fun _ => ?_
  refine Ends.bind (balanced_cgroupGetType _ _ _ _) fun fs => ?_
  refine Ends.bind (Q := fun _ => Frame s0 { st with cgFsType := fs } own ptrs fds)
    (Ends.modify _ fun c s h => ?_) fun _ => ?_
  · exact ⟨{ h.1 with cgFsType := rfl }, h.2⟩
  refine Ends.ite (fun _ => Ends.pure fun _ _ h => ⟨fs, st.cgPid, h⟩) fun _ => ?_
  refine Ends.bind (balanced_quiet .getpid (fun _ _ _ h => h) _ _ _ _) fun pid => ?_
  refine Ends.bind (Q := fun _ => Frame s0 { st with cgFsType := fs, cgPid := pid } own ptrs fds)
    (Ends.modify _ fun c s h => ?_) fun _ => Ends.pure fun _ _ h => ⟨fs, pid, h⟩
  exact ⟨{ h.1 with cgPid := rfl }, h.2⟩

theorem ends_doSetupPrep : Ends AnsweredWell (Frame s0 st own ptrs fds) doSetupPrep fun r c s =>
    r ≠ 0 → ∃ rf, Frame s0 { st with rootFutex := rf } (leaves st.cgFsType st.cgPid ++ own)
      (rf.toList ++ ptrs) fds c s := by
  refine Ends.bind ends_mmap fun futex => ?_
  refine Ends.bind (Q := fun _ => Frame s0 { st with rootFutex := futex } own
    (futex.toList ++ ptrs) fds) (Ends.modify _ fun c s h => ?_) fun _ => ?_
  · exact ⟨{ h.1 with rootFutex := rfl }, h.2⟩
  cases futex with
  | none => exact Ends.pure fun _ _ h _ => ⟨none, h.more⟩
  | some futex =>
    refine Ends.bind (Q := fun c' c s => Frame s0 { st with rootFutex := some futex } own
      (futex :: ptrs) fds c s ∧ c'.cgFsType = st.cgFsType ∧ c'.cgPid = st.cgPid)
      (Ends.get fun c s h => ⟨h, h.1.cgFsType, h.1.cgPid⟩) fun c' => ?_
    have hprep : Ends AnsweredWell (fun c s => Frame s0 { st with rootFutex := some futex } own
        (futex :: ptrs) fds c s ∧ c'.cgFsType = st.cgFsType ∧ c'.cgPid = st.cgPid)
        (doRootPrep c'.cgFsType c'.cgPid) fun r c s => r = none →
          Frame s0 { st with rootFutex := some futex } (leaves st.cgFsType st.cgPid ++ own)
            (futex :: ptrs) fds c s := by
      rintro c s ⟨h, htype, hpid⟩
      rw [htype, hpid]
      exact ends_doRootPrep _ _ c s h
    refine Ends.bind hprep fun pr => ?_
    cases pr with
    | none => exact Ends.pure fun _ _ h _ => ⟨some futex, h rfl⟩
    | some pr => exact Ends.bind (Q := fun _ _ _ => True) (Ends.modify _ fun _ _ _ => trivial) fun _ =>
        Ends.pure fun _ _ _ hr => absurd rfl hr

/-- What `spawn_cleanup` finds. -/
def Acquired (s0 : World) (st : SpawnSt) (path : CStr) (ptrs : List Ptr) (fds : List Fd)
    (c : SpawnSt) (s : World) : Prop :=
  ∃ nf rf fs pid, Frame s0 { st with netFutex := nf, rootFutex := rf, cgFsType := fs, cgPid := pid }
    (leaves fs pid ++ [path]) (nf.toList ++ (rf.toList ++ ptrs)) fds c s

theorem ends_doSetup {path : CStr} (cfg : SpawnCfg) (hnet : st.netFutex = none)
    (hroot : st.rootFutex = none) : Ends AnsweredWell (Frame s0 st [path] ptrs fds) (doSetup cfg)
      fun r c s => r ≠ 0 → Acquired s0 st path ptrs fds c s := by
  have hnone : ∀ nf fs pid, { st with netFutex := nf, rootFutex := none, cgFsType := fs, cgPid := pid } =
      { st with netFutex := nf, cgFsType := fs, cgPid := pid } := fun _ _ _ => by rw [← hroot]
  refine Ends.bind (ends_setupNetOrFail cfg hnet) fun r => Ends.exists fun nf => ?_
  refine Ends.ite (fun _ => Ends.pure fun _ _ h _ => ?_) fun _ => ?_
  · refine ⟨nf, none, st.cgFsType, st.cgPid, ?_⟩
    rw [hnone]
    exact h.more
  refine Ends.bind (ends_setupCgroup cfg) fun r => Ends.exists fun fs => Ends.exists fun pid => ?_
  refine Ends.ite (fun _ => Ends.pure fun _ _ h _ => ?_) fun _ => ?_
  · refine ⟨nf, none, fs, pid, ?_⟩
    rw [hnone]
    exact h.more
  refine ends_doSetupPrep.conseq (fun _ _ h => h) fun r c s h hr => ?_
  obtain ⟨rf, h⟩ := h hr
  exact ⟨nf, rf, fs, pid, h.1, h.2.perm (List.perm_append_comm_assoc _ _ _)⟩

theorem ends_closePidfd (fd : Fd) : Ends AnsweredWell (Frame s0 st own ptrs [fd])
    (closePidfd (some fd)) fun _ => Frame s0 st own ptrs [] := by
  refine ends_proc ?_
  rintro c s ⟨hc, h⟩ - t ⟨rfl, -⟩ - u ⟨rfl, -⟩
  exact ⟨hc, { h with fds := (congrArg (List.erase · fd) h.fds).trans (List.erase_cons_head fd []) }⟩

theorem ends_unlinkPidfile {path : CStr} (hpath : s0.entry path = none) :
    Ends AnsweredWell (Frame s0 st (path :: own) ptrs fds) (unlinkPidfile path)
      fun _ => Frame s0 st own ptrs fds := by
  refine Ends.perform ?_
  rintro c s r t ⟨hc, h⟩ ⟨hans, hgone⟩
  have hunlink : t = s.unlink path := by
    rcases hans with rfl | rfl
    · have hnone : t.entry path = none := hgone
      rw [World.unlink, ← hnone, Function.update_eq_self]
    · rfl
  exact ⟨hc, hunlink ▸ h.unlink hpath⟩

theorem ends_removeRoot (hroot : st.root = none) : Ends AnsweredWell (Frame s0 st own ptrs fds)
    removeRoot fun _ => Frame s0 st own ptrs fds := by
  refine Ends.bind (Q := fun c' c s => Frame s0 st own ptrs fds c s ∧ c'.root = none)
    (Ends.get fun c s h => ⟨h, h.1.root.trans hroot⟩) fun c' => ?_
  rintro c s ⟨h, hc⟩
  rw [hc]
  exact h

/-- The clean-up gives everything back, each thing once. -/
theorem ends_spawnCleanup {path : CStr} {fd : Fd} (hroot : st.root = none)
    (hxdg : st.hostXdg = none) (hfd : st.pidfd = some fd) (hpath : st.pidfile = path)
    (hnew : s0.entry path = none) :
    Ends AnsweredWell (Acquired s0 st path st.freePidfile.toList [fd]) spawnCleanup fun _ c s =>
      Owing s0 [] [] [] s ∧ c.freePidfile = none := by
  refine Ends.exists fun nf => Ends.exists fun rf => Ends.exists fun fs => Ends.exists fun pid => ?_
  refine Ends.bind (Q := fun c' c s => Frame s0
    { st with netFutex := nf, rootFutex := rf, cgFsType := fs, cgPid := pid } (leaves fs pid ++ [path])
    (nf.toList ++ (rf.toList ++ st.freePidfile.toList)) [fd] c s ∧
      Agrees { st with netFutex := nf, rootFutex := rf, cgFsType := fs, cgPid := pid } c')
    (Ends.get fun c s h => ⟨h, h.1⟩) fun c' => ?_
  rintro c s ⟨h, hc⟩
  rw [hc.netFutex, hc.rootFutex, hc.pidfd, hc.pidfile, hc.cgPid, hc.cgFsType, hc.freePidfile,
    hc.hostXdg]
  dsimp only
  rw [hfd, hpath, hxdg]
  have hrest : Ends AnsweredWell (Frame s0
      { st with netFutex := nf, rootFutex := rf, cgFsType := fs, cgPid := pid }
      (leaves fs pid ++ [path]) (nf.toList ++ (rf.toList ++ st.freePidfile.toList)) [fd]) (do
        freeFutex nf
        freeFutex rf
        closePidfd (some fd)
        unlinkPidfile path
        cgroupCleanup pid fs
        removeRoot
        memFree st.freePidfile
        modify fun st => { st with freePidfile := none }
        memFree none
        modify fun st => { st with hostXdg := none })
      fun _ c s => Owing s0 [] [] [] s ∧ c.freePidfile = none := by
    refine Ends.bind (ends_freeFutex nf) fun _ => Ends.bind (ends_freeFutex rf) fun _ => ?_
    refine Ends.bind (ends_closePidfd fd) fun _ => ?_
    have hown : leaves fs pid ++ [path] ⊆ path :: (leaves fs pid ++ []) := by
      intro p hp
      rw [List.append_nil]
      exact List.mem_cons.mpr ((List.mem_append.mp hp).symm.imp List.mem_singleton.mp id)
    refine Ends.bind ((ends_unlinkPidfile hnew).conseq
      (fun _ _ h => ⟨h.1, h.2.mono hown (List.Sublist.refl _)⟩) fun _ _ _ h => h) fun _ => ?_
    refine Ends.bind (ends_cgroupCleanup fs pid) fun _ => Ends.bind (ends_removeRoot hroot) fun _ => ?_
    have hptrs : st.freePidfile.toList = st.freePidfile.toList ++ [] := (List.append_nil _).symm
    rw [hptrs]
    refine Ends.bind (ends_memFree st.freePidfile) fun _ => ?_
    refine Ends.bind (Q := fun _ c s => Owing s0 [] [] [] s ∧ c.freePidfile = none)
      (Ends.modify _ fun c s h => ⟨h.2, rfl⟩) fun _ => ?_
    exact Ends.bind (Ends.pure fun _ _ h => h) fun _ => Ends.modify _ fun _ _ h => h
  exact hrest c s h

end Setup

section Spawn

variable {s0 : World} {ptrs : List Ptr}

/-- How the calls of `createPidfile` are answered among those of the spawn. -/
def AnsweredProc (k : ProcCall) : World → k.Ret → World → Prop := AnsweredWell (.proc k)

theorem wp_ensureDir {s : World} (dir : CStr) (h : Owing s0 [] ptrs [] s) :
    (ensureDir dir).Wp AnsweredProc (fun _ t => Owing s0 [] ptrs [] t) s := by
  refine Wp.bind (ioExistsOnce dir) ?_
  rintro r t ⟨rfl, -⟩
  change Prog.Wp _ _ (if accessResult r = 1 then _ else if accessResult r ≠ 0 then _ else _) t
  split
  · rintro ok u ⟨hgrown, -⟩
    exact h.grown hgrown
  · split
    · exact h
    · rintro ok u ⟨rfl, -⟩
      exact h

theorem Owing.unseen {own : List CStr} {fds : List Fd} {s : World} {p : CStr}
    (h : Owing s0 own ptrs fds s) (hp : s.entry p = none) : s0.entry p = none := by
  by_contra hsome
  obtain ⟨i, hi⟩ := Option.ne_none_iff_exists'.mp hsome
  rw [h.kept p i hi] at hp
  cases hp

/-- What `create_pidfile` leaves. -/
def Created (s0 : World) (path : CStr) (ptrs : List Ptr) : Option Fd → World → Prop
  | none, t => Owing s0 [] ptrs [] t
  | some fd, t => s0.entry path = none ∧ Owing s0 [path] ptrs [fd] t

theorem wp_openAndLock {s : World} (path : CStr) (h : Owing s0 [] ptrs [] s) :
    (openAndLock path).Wp AnsweredProc (Created s0 path ptrs) s := by
  rintro r t ⟨⟨rfl, rfl⟩ | ⟨fd, i, rfl, hfd, hnone, hfresh, rfl⟩, -⟩
  · exact h
  · rintro ok u ⟨rfl, hok⟩
    obtain rfl : ok = true := hok
    refine ⟨h.unseen hnone, { h.add hnone hfresh with fds := ?_ }⟩
    exact congrArg (List.cons fd) h.fds

theorem wp_createPidfile {s : World} (path : CStr) (h : Owing s0 [] ptrs [] s) :
    (createPidfile path).Wp AnsweredProc (Created s0 path ptrs) s := by
  unfold createPidfile
  split
  · exact wp_openAndLock path h
  · split
    · exact h
    · refine Wp.bind _ (Wp.mono (fun r t ht => ?_) _ (wp_ensureDir _ h))
      split
      · exact ht
      · exact wp_openAndLock path ht

theorem ends_doEarlySetup (cfg : SpawnCfg) {st : SpawnSt} :
    Ends AnsweredWell (Frame s0 st [] [] []) (doEarlySetup cfg)
      fun pi => Frame s0 st [] pi.2.toList [] := by
  unfold doEarlySetup
  split
  · exact Ends.pure fun _ _ h => h
  · exact Ends.bind ends_alloc fun p => Ends.pure fun _ _ h => h

/-- The fields once `create_pidfile` has returned. -/
def opened (path : CStr) (fp : Option Ptr) (fd : Option Fd) : SpawnSt :=
  { SpawnSt.init with pidfile := path, freePidfile := fp, pidfd := fd }

/-- What follows on a pidfile that was made. -/
theorem ends_rest (cfg : SpawnCfg) {path : CStr} (fp : Option Ptr) (fd : Fd)
    (hnew : s0.entry path = none) (hs0 : s0.fds = []) :
    Ends AnsweredWell (Frame s0 (opened path fp (some fd)) [path] fp.toList [fd]) (do
      let r ← doSetup cfg
      if r ≠ 0 then do
        spawnCleanup
        pure (-1)
      else pure 0) fun (r : Int) c s => r < 0 → Undone s0 s ∧ c.freePidfile = none := by
  have hsetup : Ends AnsweredWell (Frame s0 (opened path fp (some fd)) [path] fp.toList [fd])
      (doSetup cfg) fun r c s =>
        r ≠ 0 → Acquired s0 (opened path fp (some fd)) path fp.toList [fd] c s :=
    ends_doSetup cfg rfl rfl
  have hclean : Ends AnsweredWell (Acquired s0 (opened path fp (some fd)) path fp.toList [fd])
      spawnCleanup fun _ c s => Owing s0 [] [] [] s ∧ c.freePidfile = none :=
    ends_spawnCleanup rfl rfl rfl rfl hnew
  refine Ends.bind hsetup fun r => Ends.ite (fun hr => ?_) fun _ =>
    Ends.pure fun _ _ _ hneg => absurd hneg (by decide)
  refine Ends.bind (hclean.conseq (fun _ _ h => h hr) fun _ _ _ h => h) fun _ => ?_
  refine Ends.pure fun c s h _ => ⟨?_, h.2⟩
  rw [← hs0] at h
  exact h.1.undone

theorem ends_spawnInit (cfg : SpawnCfg) (entry : CStr → Option Nat) :
    Ends AnsweredWell (fun _ s => s = World.start entry) (spawnInit cfg) fun r c s =>
      r < 0 → Undone (World.start entry) s ∧ c.freePidfile = none := by
  refine Ends.bind (Q := fun _ => Frame (World.start entry) SpawnSt.init [] [] [])
    (Ends.modify _ ?_) fun _ => ?_
  · rintro c s rfl
    exact ⟨⟨rfl, rfl, rfl, rfl, rfl, rfl, rfl, rfl, rfl⟩, Owing.start entry⟩
  refine Ends.bind (ends_doEarlySetup cfg) fun pi => ?_
  obtain ⟨path, fp⟩ := pi
  refine Ends.bind (Q := fun _ => Frame (World.start entry) (opened path fp none) [] fp.toList [])
    (Ends.modify _ fun c s h => ?_) fun _ => ?_
  · exact ⟨{ h.1 with pidfile := rfl, freePidfile := rfl }, h.2⟩
  refine Ends.bind (Q := fun fd c s => Agrees (opened path fp none) c ∧
    Created (World.start entry) path fp.toList fd s) (ends_proc fun c s h => ?_) fun fd => ?_
  · exact Wp.mono (fun fd t ht => ⟨h.1, ht⟩) _ (wp_createPidfile path h.2)
  refine Ends.bind (Q := fun _ c s => Agrees (opened path fp fd) c ∧
    Created (World.start entry) path fp.toList fd s) (Ends.modify _ fun c s h => ?_) fun _ => ?_
  · exact ⟨{ h.1 with pidfd := rfl }, h.2⟩
  cases fd with
  | none =>
    have hfree : Ends AnsweredWell (Frame (World.start entry) (opened path fp none) []
        (fp.toList ++ []) []) (memFree fp)
        fun _ => Frame (World.start entry) (opened path fp none) [] [] [] := ends_memFree fp
    rw [List.append_nil] at hfree
    refine Ends.bind (hfree.conseq (fun _ _ h => h) fun _ _ _ h => h) fun _ => ?_
    exact Ends.bind (Q := fun _ c s => Undone (World.start entry) s ∧ c.freePidfile = none)
      (Ends.modify _ fun c s h => ⟨h.2.undone, rfl⟩) fun _ => Ends.pure fun _ _ h _ => h
  | some fd =>
    rintro c s ⟨hc, hnew, h⟩
    exact ends_rest cfg fp fd hnew rfl c s ⟨hc, h⟩

theorem exitCodeFromStatus_nonneg (status : ExitStatus) : 0 ≤ exitCodeFromStatus status := by
  cases status with
  | exited code => exact Int.natCast_nonneg _
  | signaled sig => exact Int.add_nonneg (by decide) (Int.natCast_nonneg _)
  | other => decide

/-- A spawn that has its child returns what is no failure. -/
theorem ends_spawnExec {I : SpawnSt → World → Prop} (fd : Fd) (child : Nat) :
    Ends AnsweredWell I (spawnExec fd child) fun r _ _ => r ≠ -1 := by
  have hfinish : Ends AnsweredWell (fun _ _ => True) (finishChild child) fun r _ _ => r ≠ -1 := by
    refine Ends.bind Ends.trivial fun r => Ends.bind Ends.trivial fun st => ?_
    refine Ends.bind Ends.trivial fun _ => Ends.bind Ends.trivial fun _ => ?_
    refine Ends.bind Ends.trivial fun _ => Ends.pure fun _ _ _ => ?_
    have hstatus := exitCodeFromStatus_nonneg r.2
    split <;> omega
  refine Ends.bind Ends.trivial fun _ => Ends.bind Ends.trivial fun _ => ?_
  refine Ends.bind Ends.trivial fun _ => Ends.bind Ends.trivial fun st => ?_
  have hlast : Ends AnsweredWell (fun _ _ => True) (do
      freeFutex st.rootFutex
      finishChild child) fun r _ _ => r ≠ -1 :=
    Ends.bind Ends.trivial fun _ => hfinish
  have hready : Ends AnsweredWell (fun _ _ => True) (do
      freeFutex st.netFutex
      let ready ← SpawnM.sys (.rootReady child)
      if ready then removeRoot else pure ()
      freeFutex st.rootFutex
      finishChild child) fun r _ _ => r ≠ -1 := by
    refine Ends.bind Ends.trivial fun _ => Ends.bind Ends.trivial fun ready => ?_
    exact Ends.ite (fun _ => Ends.bind Ends.trivial fun _ => hlast) fun _ => hlast
  cases st.netId with
  | none => exact hready
  | some id => exact Ends.bind Ends.trivial fun _ => hready

/-- A failed spawn undoes itself: in every run of the calls that meets the conditions. -/
theorem spawnCage_undone (cfg : SpawnCfg) (entry : CStr → Option Nat) (st : SpawnSt) :
    ((spawnCage cfg).run st).Wp AnsweredWell
      (fun r t => r.1 = -1 → Undone (World.start entry) t) (World.start entry) := by
  have hrun : Ends AnsweredWell (fun _ s => s = World.start entry) (spawnCage cfg) fun r _ t =>
      r = -1 → Undone (World.start entry) t := by
    refine Ends.bind (ends_spawnInit cfg entry) fun r => ?_
    refine Ends.bind (Q := fun c' c s => (r < 0 → Undone (World.start entry) s) ∧
      (r < 0 → c'.freePidfile = none)) (Ends.get fun c s h => ⟨fun hr => (h hr).1, fun hr => (h hr).2⟩)
      fun c' => ?_
    refine Ends.ite (fun hr => ?_) fun _ => ?_
    · rintro c s ⟨hundone, hnone⟩
      rw [hnone hr]
      exact fun _ => hundone hr
    · refine Ends.bind (ends_spawnExec _ _) fun r => ?_
      have hrest : r ≠ -1 → Ends AnsweredWell (fun _ _ => True) (do
          let st ← get
          memFree st.freePidfile
          memFree st.hostXdg
          pure r) fun r _ t => r = -1 → Undone (World.start entry) t := by
        intro hr
        refine Ends.bind Ends.trivial fun st => Ends.bind Ends.trivial fun _ => ?_
        exact Ends.bind Ends.trivial fun _ => Ends.pure fun _ _ _ h => absurd h hr
      exact fun c s hr => hrest hr c s trivial
  exact hrun st (World.start entry) rfl

def plainCfg : SpawnCfg :=
  { name := none, pidfile := some (lit "p"), unshareNet := false, unshareCgroup := false }

/-- The lock of the new pidfile is refused, and the file stays. -/
theorem spawnCage_leaves_pidfile :
    ¬ ((spawnCage plainCfg).run SpawnSt.init).Wp Answered
      (fun r t => r.1 = -1 → Undone (World.start fun _ => none) t) (World.start fun _ => none) := by
  intro h
  have hfresh : (World.start fun _ => none).Fresh 0 := ⟨List.not_mem_nil, fun _ => nofun⟩
  have hend := h (some 3) _ (Or.inr ⟨3, 0, rfl, List.not_mem_nil, rfl, hfresh, rfl⟩) false _ rfl () _
    rfl rfl
  have hstays : ((World.start fun _ => none).add (lit "p") 0).entry (lit "p") = some 0 := by
    rw [World.add]
    exact Function.update_self (lit "p") (some 0) fun _ => none
  exact hend.gone (lit "p") 0 hstays List.mem_cons_self

end Spawn

end Cage.Core.Spawn
