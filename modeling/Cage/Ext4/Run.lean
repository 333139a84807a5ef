import Cage.Ext4.Image

/-!
The writers alone on an image, with every call doing all that it is asked. What
a program may change is given as a set of blocks, so that what one part writes
is still there after the parts that keep away from it.
-/

namespace Cage.Ext4

open Lib.Buffer Lib.Program Util

variable {A B : Type} {n : Nat}

def allFull : Choice :=
  { full := true, part := 0, errno := .other, random := fun _ => 0, now := 0 }

def run (p : Img A) (f : File) : A × File := p.exec (ImgCall.answer allFull) f

@[simp] theorem run_pure (a : A) (f : File) : run (pure a) f = (a, f) := rfl

@[simp] theorem run_bind (p : Img A) (g : A → Img B) (f : File) :
    run (p >>= g) f = run (g (run p f).1) (run p f).2 :=
  exec_bind (ImgCall.answer allFull) p g f

@[simp] theorem run_pwrite (buf : ByteVec n) (off : Nat) (f : File) :
    run (pwrite buf off) f = ((n : Int), f.write off buf n) := rfl

@[simp] theorem run_writeAt (buf : ByteVec n) (off : Nat) (f : File) :
    run (writeAt buf off) f = (0, f.write off buf n) := by
  unfold writeAt
  rw [run_bind, run_pwrite, run_pure, if_pos rfl]

theorem run_pread {off : Nat} {f : File} (h : off + n ≤ f.size) :
    run (pread n off) f = (((n : Int), f.slice off n), f) := by
  have hmin : min n (f.size - off) = n := by omega
  have hrun : run (pread n off) f = ((((min n (f.size - off) : Nat) : Int), f.slice off n), f) := rfl
  rw [hrun, hmin]

@[simp] theorem run_calloc (f : File) : run (calloc n) f = (true, f) := rfl

theorem byte_file_slice (f : File) (off i : Nat) :
    byte (f.slice off n) i = if i < n then f.byte (off + i) else 0 :=
  byte_make _ _

theorem slice_write_self (f : File) (off : Nat) (d : ByteVec n) :
    (f.write off d n).slice off n = d := by
  apply buf_ext
  intro i hi
  rw [byte_file_slice, if_pos hi]
  show (if off ≤ off + i ∧ off + i < off + n then byte d (off + i - off) else _) = _
  rw [if_pos (by omega), Nat.add_sub_cancel_left]

theorem slice_file_slice (f : File) (o p k m : Nat) (h : p + m ≤ k) :
    slice (f.slice o k) p m = f.slice (o + p) m := by
  apply buf_ext
  intro i hi
  rw [byte_slice, byte_file_slice, byte_file_slice, if_pos hi, if_pos hi, if_pos (by omega),
    Nat.add_assoc]

/-- The size of a whole image. -/
abbrev imageBytes : Nat := blocks * blkSize

/-- Only bytes in the blocks of `R` differ. -/
structure Touches (R : Nat → Prop) (f f' : File) : Prop where
  size : f'.size = f.size
  same : ∀ i, ¬ R (i / blkSize) → f'.byte i = f.byte i

theorem Touches.refl (R : Nat → Prop) (f : File) : Touches R f f := ⟨rfl, fun _ _ => rfl⟩

theorem Touches.trans {R R' : Nat → Prop} {f g h : File} (hfg : Touches R f g)
    (hgh : Touches R' g h) : Touches (fun b => R b ∨ R' b) f h where
  size := hgh.size.trans hfg.size
  same i hi :=
    (hgh.same i fun hr => hi (Or.inr hr)).trans (hfg.same i fun hr => hi (Or.inl hr))

theorem Touches.mono {R R' : Nat → Prop} {f g : File} (h : Touches R f g)
    (hsub : ∀ b, R b → R' b) : Touches R' f g :=
  ⟨h.size, fun i hi => h.same i fun hr => hi (hsub _ hr)⟩

theorem Touches.slice {R : Nat → Prop} {f g : File} (h : Touches R f g) {o m : Nat}
    (hfar : ∀ i, o ≤ i → i < o + m → ¬ R (i / blkSize)) : g.slice o m = f.slice o m := by
  apply buf_ext
  intro i hi
  rw [byte_file_slice, byte_file_slice, if_pos hi, if_pos hi]
  exact h.same (o + i) (hfar (o + i) (by omega) (by omega))

theorem Touches.write {R : Nat → Prop} {f : File} {off : Nat} (d : ByteVec n)
    (hin : ∀ i, off ≤ i → i < off + n → R (i / blkSize)) (hsize : off + n ≤ f.size) :
    Touches R f (f.write off d n) where
  size := by
    show (if n = 0 then f.size else max f.size (off + n)) = f.size
    split <;> omega
  same i hi := by
    show (if off ≤ i ∧ i < off + n then _ else f.byte i) = f.byte i
    rw [if_neg fun h => hi (hin i h.1 h.2)]

/-- On every whole image `p` succeeds, touches the blocks of `R` only and leaves
the image as `post` says. -/
def Writes (R : Nat → Prop) (p : Img Int) (post : File → Prop) : Prop :=
  ∀ f, f.size = imageBytes → (run p f).1 = 0 ∧ Touches R f (run p f).2 ∧ post (run p f).2

/-- What `R` touches does not matter to `post`. -/
def Keeps (R : Nat → Prop) (post : File → Prop) : Prop := ∀ f f', Touches R f f' → post f → post f'

theorem Keeps.slice {R : Nat → Prop} {o m : Nat} {d : ByteVec m}
    (hfar : ∀ i, o ≤ i → i < o + m → ¬ R (i / blkSize)) : Keeps R fun f => f.slice o m = d :=
  fun _ _ ht h => (ht.slice hfar).trans h

theorem Keeps.and {R : Nat → Prop} {P Q : File → Prop} (hp : Keeps R P) (hq : Keeps R Q) :
    Keeps R fun f => P f ∧ Q f :=
  fun f f' ht h => ⟨hp f f' ht h.1, hq f f' ht h.2⟩

theorem Keeps.forall {I : Type} {R : Nat → Prop} {P : I → File → Prop}
    (h : ∀ i, Keeps R (P i)) : Keeps R fun f => ∀ i, P i f :=
  fun f f' ht hp i => h i f f' ht (hp i)

theorem Writes.mono {R R' : Nat → Prop} {p : Img Int} {P Q : File → Prop} (h : Writes R p P)
    (hsub : ∀ b, R b → R' b) (hpost : ∀ f, P f → Q f) : Writes R' p Q :=
  fun f hf => ⟨(h f hf).1, (h f hf).2.1.mono hsub, hpost _ (h f hf).2.2⟩

theorem Writes.bytes {R : Nat → Prop} (buf : ByteVec n) {off : Nat}
    (hin : ∀ i, off ≤ i → i < off + n → R (i / blkSize)) (hsize : off + n ≤ imageBytes) :
    Writes R (writeAt buf off) fun f => f.slice off n = buf := by
  intro f hf
  rw [run_writeAt]
  exact ⟨rfl, Touches.write buf hin (hf ▸ hsize), slice_write_self f off buf⟩

/-- Whole blocks from block `b` on. -/
theorem Writes.span {k : Nat} (buf : ByteVec (k * blkSize)) (b : Nat) (hb : b + k ≤ blocks) :
    Writes (fun x => b ≤ x ∧ x < b + k) (writeAt buf (b * blkSize))
      fun f => f.slice (b * blkSize) (k * blkSize) = buf := by
  refine Writes.bytes buf ?_ ?_
  · intro i h1 h2
    have hlt : i / blkSize < b + k := by
      apply Nat.div_lt_of_lt_mul
      rw [Nat.mul_comm, Nat.add_mul]
      exact h2
    exact ⟨(Nat.le_div_iff_mul_le (by decide)).mpr h1, hlt⟩
  · rw [← Nat.add_mul]
    exact Nat.mul_le_mul_right blkSize hb

/-- `if (p) return -1; return q;` -/
theorem Writes.seq {R R' : Nat → Prop} {p q : Img Int} {P Q : File → Prop} (hp : Writes R p P)
    (hq : Writes R' q Q) (hkeep : Keeps R' P) :
    Writes (fun b => R b ∨ R' b) (do let r ← p; if r ≠ 0 then pure (-1) else q)
      fun f => P f ∧ Q f := by
  intro f hf
  obtain ⟨hrp, htp, hpost⟩ := hp f hf
  obtain ⟨hrq, htq, hqost⟩ := hq (run p f).2 (htp.size.trans hf)
  rw [run_bind, hrp, if_neg (fun h => h rfl)]
  exact ⟨hrq, htp.trans htq, hkeep _ _ htq hpost, hqost⟩

/-- A loop each of whose rounds keeps what the others have written. -/
theorem Writes.loop {R : Nat → Nat → Prop} {p : Nat → Img Int} {P : Nat → File → Prop}
    {a k : Nat} (hround : ∀ i, a ≤ i → i < a + k → Writes (R i) (p i) (P i))
    (hkeep : ∀ i, a ≤ i → Keeps (fun b => ∃ j, i + 1 ≤ j ∧ j < a + k ∧ R j b) (P i)) :
    Writes (fun b => ∃ i, a ≤ i ∧ i < a + k ∧ R i b) (loopRc p a k)
      fun f => ∀ i, a ≤ i → i < a + k → P i f := by
  induction k generalizing a with
  | zero => exact fun f _ => ⟨rfl, Touches.refl _ f, fun i h1 h2 => by omega⟩
  | succ k ih =>
    have hlen : a + 1 + k = a + (k + 1) := by omega
    have htail := ih (a := a + 1) (fun i h1 h2 => hround i (by omega) (by omega)) (by
      intro i hi
      rw [hlen]
      exact hkeep i (by omega))
    rw [hlen] at htail
    refine ((hround a (by omega) (by omega)).seq htail (hkeep a (Nat.le_refl a))).mono ?_ ?_
    · rintro b (hb | ⟨i, h1, h2, hb⟩)
      · exact ⟨a, by omega, by omega, hb⟩
      · exact ⟨i, by omega, by omega, hb⟩
    · rintro f ⟨h1, h2⟩ i hi hik
      by_cases hia : i = a
      · exact hia ▸ h1
      · exact h2 i (by omega) (by omega)

end Cage.Ext4
