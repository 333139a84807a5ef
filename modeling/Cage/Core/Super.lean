import Mathlib.Control.Basic
import Mathlib.Tactic.ByContra

/-!
The repair of the executable's owner and mode: `src/core/super.c`. The state is
the inode behind `/proc/self/exe`.
-/

namespace Cage.Core

/-- The part of `struct stat` that `super.c` looks at. -/
structure Inode where
  uid : Nat
  gid : Nat
  mode : BitVec 32
  deriving DecidableEq, Repr

/-- What the kernel refuses, and whether a `chown` of the file clears its setgid
bit, which depends on the group's execute bit. -/
structure InodeKernel where
  stat : Bool
  chown : Bool
  chmod : Bool
  clearsSetgid : Bool

/-- The kernel that refuses nothing. -/
def InodeKernel.willing : InodeKernel :=
  { stat := false, chown := false, chmod := false, clearsSetgid := true }

def sIsuid : BitVec 32 := 0o4000
def sIsgid : BitVec 32 := 0o2000

/-- The twelve bits that `chmod` sets. -/
def permBits : BitVec 32 := 0o7777

section

variable (k : InodeKernel)

def sysStat : StateM Inode (Option Inode) := do
  if k.stat then pure none else pure (some (← get))

/-- `chown` of a regular file: a successful one clears the setuid bit, also for
root and also when the owner stays what it was. -/
def sysChown (uid gid : Nat) : StateM Inode Int := do
  if k.chown then
    pure (-1)
  else do
    modify fun f =>
      { uid, gid
        mode := f.mode &&& ~~~sIsuid &&& (if k.clearsSetgid then ~~~sIsgid else ~~~0) }
    pure 0

def ioChown (uid gid : Nat) : StateM Inode Int := do
  if (← sysChown k uid gid) ≠ 0 then pure (-1) else pure 0

def superChmod (mode : BitVec 32) : StateM Inode Int := do
  if k.chmod then
    pure (-1)
  else do
    modify fun f => { f with mode := (f.mode &&& ~~~permBits) ||| (mode &&& permBits) }
    pure 0

def fixOwner (st : Inode) : StateM Inode Int := do
  if st.uid = 0 ∧ st.gid = 0 then
    pure 0
  else if (← ioChown k 0 0) ≠ 0 then
    pure (-1)
  else
    pure 0

def fixMode (st : Inode) : StateM Inode Int := do
  if st.mode &&& permBits = 0o4755 then
    pure 0
  else if (← superChmod k 0o4755) ≠ 0 then
    pure (-1)
  else
    pure 0

def superFix : StateM Inode Int := do
  match ← sysStat k with
  | none => pure (-1)
  | some st =>
    if (← fixOwner k st) ≠ 0 then pure (-1) else fixMode k st

def isSuidBinary : StateM Inode Bool := do
  match ← sysStat k with
  | none => pure false
  | some st => pure (st.uid = 0 ∧ st.gid = 0 ∧ st.mode &&& sIsuid ≠ 0)

end

/-- Owned by root:root with the permission bits 04755. -/
def Inode.Repaired (f : Inode) : Prop :=
  f.uid = 0 ∧ f.gid = 0 ∧ f.mode &&& permBits = 0o4755

instance (f : Inode) : Decidable f.Repaired := inferInstanceAs (Decidable (_ ∧ _ ∧ _))

theorem chmod_bits (m : BitVec 32) :
    ((m &&& ~~~permBits) ||| (0o4755 &&& permBits)) &&& permBits = 0o4755 := by
  have hkept : m &&& ~~~permBits &&& permBits = 0 := by
    rw [BitVec.and_assoc, show ~~~permBits &&& permBits = 0#32 by decide, BitVec.and_zero]
    rfl
  rw [BitVec.and_comm _ permBits, BitVec.and_or_distrib_left, BitVec.and_comm permBits, hkept]
  decide

/-- Without the setuid bit the permission bits are not 04755. -/
theorem bits_ne_of_cleared {m : BitVec 32} (h : m &&& sIsuid = 0) : m &&& permBits ≠ 0o4755 := by
  intro hbits
  have hand : m &&& permBits &&& sIsuid = m &&& sIsuid := by
    rw [BitVec.and_assoc, show permBits &&& sIsuid = sIsuid by decide]
  rw [hbits, h] at hand
  exact absurd hand (by decide)

theorem chown_cleared (m x : BitVec 32) : m &&& ~~~sIsuid &&& x &&& sIsuid = 0 := by
  rw [BitVec.and_assoc, BitVec.and_comm x, ← BitVec.and_assoc, BitVec.and_assoc m,
    show ~~~sIsuid &&& sIsuid = 0#32 by decide, BitVec.and_zero, BitVec.zero_and]
  rfl

section

variable (k : InodeKernel)

/-- What `fix_owner` leaves when it succeeds. -/
def chowned (f : Inode) : Inode :=
  if f.uid = 0 ∧ f.gid = 0 then f
  else
    { uid := 0, gid := 0
      mode := f.mode &&& ~~~sIsuid &&& (if k.clearsSetgid then ~~~sIsgid else ~~~0) }

/-- What `fix_mode` leaves when it succeeds on `f` and has seen the mode of `st`. -/
def chmodded (st f : Inode) : Inode :=
  if st.mode &&& permBits = 0o4755 then f
  else { f with mode := (f.mode &&& ~~~permBits) ||| (0o4755 &&& permBits) }

theorem fixOwner_run (f : Inode) :
    (fixOwner k f).run f = (0, chowned k f) ∨ (fixOwner k f).run f = (-1, f) := by
  unfold fixOwner ioChown sysChown chowned
  by_cases hown : f.uid = 0 ∧ f.gid = 0
  · rw [if_pos hown, if_pos hown]
    exact .inl rfl
  · rw [if_neg hown, if_neg hown]
    cases k.chown with
    | true => exact .inr rfl
    | false => exact .inl rfl

theorem fixMode_run (st f : Inode) :
    (fixMode k st).run f = (0, chmodded st f) ∨ (fixMode k st).run f = (-1, f) := by
  unfold fixMode superChmod chmodded
  by_cases hmode : st.mode &&& permBits = 0o4755
  · rw [if_pos hmode, if_pos hmode]
    exact .inl rfl
  · rw [if_neg hmode, if_neg hmode]
    cases k.chmod with
    | true => exact .inr rfl
    | false => exact .inl rfl

/-- Both steps are decided by the one `stat` before them. -/
theorem superFix_seen (f : Inode) (hstat : k.stat = false) :
    (superFix k).run f =
      if ((fixOwner k f).run f).1 ≠ 0 then (-1, ((fixOwner k f).run f).2)
      else (fixMode k f).run ((fixOwner k f).run f).2 := by
  unfold superFix sysStat
  rw [hstat]
  show StateT.run (if ((fixOwner k f).run f).1 ≠ 0 then pure (-1) else fixMode k f) _ = _
  split <;> rfl

theorem superFix_run (f : Inode) :
    (superFix k).run f = (0, chmodded f (chowned k f)) ∨ ((superFix k).run f).1 = -1 := by
  cases hstat : k.stat with
  | true =>
    unfold superFix sysStat
    rw [hstat]
    exact .inr rfl
  | false =>
    rw [superFix_seen k f hstat]
    rcases fixOwner_run k f with howner | howner
    · rw [howner, if_neg (not_not.mpr rfl)]
      rcases fixMode_run k f (chowned k f) with hmode | hmode
      · exact .inl hmode
      · exact .inr (by rw [hmode])
    · rw [howner, if_pos (show (-1 : Int) ≠ 0 by decide)]
      exact .inr rfl

theorem superFix_ok {f : Inode} (hret : ((superFix k).run f).1 = 0) :
    (superFix k).run f = (0, chmodded f (chowned k f)) := by
  rcases superFix_run k f with hrun | hrun
  · exact hrun
  · rw [hrun] at hret
    exact absurd hret (by decide)

/-- A file that needs no other owner gets its bits, and so does one whose owner is
changed, unless its bits looked right before the `chown`. -/
theorem repaired_of_bits {f : Inode}
    (h : (f.uid = 0 ∧ f.gid = 0) ∨ f.mode &&& permBits ≠ 0o4755) :
    (chmodded f (chowned k f)).Repaired := by
  have howned : (chowned k f).uid = 0 ∧ (chowned k f).gid = 0 := by
    unfold chowned
    split
    · assumption
    · exact ⟨rfl, rfl⟩
  unfold chmodded
  by_cases hmode : f.mode &&& permBits = 0o4755
  · have hown := h.resolve_right (not_not.mpr hmode)
    rw [if_pos hmode]
    refine ⟨howned.1, howned.2, ?_⟩
    unfold chowned
    rw [if_pos hown, hmode]
  · rw [if_neg hmode]
    exact ⟨howned.1, howned.2, chmod_bits _⟩

/-- With another owner and the right bits, what the `chown` leaves of the bits stays. -/
theorem not_repaired_of_bits {f : Inode} (hown : ¬(f.uid = 0 ∧ f.gid = 0))
    (hmode : f.mode &&& permBits = 0o4755) : ¬ (chmodded f (chowned k f)).Repaired := by
  intro hrep
  unfold chmodded chowned at hrep
  rw [if_pos hmode, if_neg hown] at hrep
  exact bits_ne_of_cleared (chown_cleared _ _) hrep.2.2

theorem willing_run (f : Inode) : ((superFix InodeKernel.willing).run f).1 = 0 := by
  have howner : (fixOwner InodeKernel.willing f).run f = (0, chowned InodeKernel.willing f) := by
    unfold fixOwner chowned
    split <;> rfl
  rw [superFix_seen _ f rfl, howner, if_neg (not_not.mpr rfl)]
  unfold fixMode
  split <;> rfl

end

/-- Whenever the repair reports success the file is repaired, exactly if not both
its owner was wrong and its bits were right. -/
theorem superFix_repairs_iff (f : Inode) :
    (∀ k : InodeKernel, ((superFix k).run f).1 = 0 → (((superFix k).run f).2).Repaired) ↔
      (f.uid = 0 ∧ f.gid = 0) ∨ f.mode &&& permBits ≠ 0o4755 := by
  constructor
  · intro h
    by_contra hnot
    obtain ⟨hown, hmode⟩ := not_or.mp hnot
    have hret := willing_run f
    have hrep := h _ hret
    rw [superFix_ok _ hret] at hrep
    exact not_repaired_of_bits _ hown (not_not.mp hmode) hrep
  · intro h k hret
    rw [superFix_ok k hret]
    exact repaired_of_bits k h

/-- A setuid executable of a user and group of its own becomes root's with 0755. -/
theorem superFix_drops_setuid :
    (superFix InodeKernel.willing).run { uid := 1000, gid := 1000, mode := 0o104755 } =
        (0, { uid := 0, gid := 0, mode := 0o100755 }) ∧
      ¬ ∀ (f : Inode) (k : InodeKernel),
        ((superFix k).run f).1 = 0 → (((superFix k).run f).2).Repaired := by
  refine ⟨rfl, fun h => ?_⟩
  have hrep := h { uid := 1000, gid := 1000, mode := 0o104755 } InodeKernel.willing rfl
  exact absurd hrep (by decide)

/-- The check that guards the re-execution accepts a repaired file. -/
theorem isSuidBinary_repaired {k : InodeKernel} {f : Inode} (hstat : k.stat = false)
    (h : f.Repaired) : ((isSuidBinary k).run f).1 = true := by
  have hsetuid : f.mode &&& sIsuid ≠ 0 := fun hzero => bits_ne_of_cleared hzero h.2.2
  unfold isSuidBinary sysStat
  rw [hstat]
  exact decide_eq_true ⟨h.1, h.2.1, hsetuid⟩

/-- What a first repair leaves behind, a second one makes good: its owner is right. -/
theorem superFix_twice (k k' : InodeKernel) (f : Inode)
    (hfirst : ((superFix k).run f).1 = 0)
    (hsecond : ((superFix k').run ((superFix k).run f).2).1 = 0) :
    (((superFix k').run ((superFix k).run f).2).2).Repaired := by
  rw [superFix_ok k' hsecond]
  refine repaired_of_bits k' (.inl ?_)
  rw [superFix_ok k hfirst]
  unfold chmodded chowned
  constructor <;> (repeat' split) <;> simp_all

end Cage.Core
