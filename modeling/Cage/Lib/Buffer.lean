import Mathlib.Data.Nat.Bitwise
import Mathlib.Data.Vector.Basic

/-!
Byte buffers of a fixed size. Reading beyond the end gives zero and writing
there does nothing, so a buffer is determined by its bytes, and every update is
described by what it makes of each of them.
-/

namespace Cage.Lib.Buffer

abbrev ByteVec (n : Nat) := Vector UInt8 n

variable {n k m : Nat}

def byte (b : ByteVec n) (i : Nat) : UInt8 := b[i]?.getD 0

def make (n : Nat) (f : Nat → UInt8) : ByteVec n := Vector.ofFn fun i : Fin n => f i

/-- `memset(b, 0, n)`. -/
def zeros (n : Nat) : ByteVec n := make n fun _ => 0

/-- `b[i] = v`. -/
def poke (b : ByteVec n) (i : Nat) (v : UInt8) : ByteVec n :=
  make n fun j => if j = i then v else byte b j

/-- `memcpy(b + off, d, k)`. -/
def put (b : ByteVec n) (off : Nat) (d : ByteVec k) : ByteVec n :=
  make n fun j => if off ≤ j ∧ j < off + k then byte d (j - off) else byte b j

/-- The `k` bytes at `b + off`. -/
def slice (b : ByteVec n) (off k : Nat) : ByteVec k := make k fun j => byte b (off + j)

/-- What a function that is given `b + off` makes of the `k` bytes there. -/
def patch (b : ByteVec n) (off k : Nat) (f : ByteVec k → ByteVec k) : ByteVec n := put b off (f (slice b off k))

theorem byte_make (f : Nat → UInt8) (i : Nat) : byte (make n f) i = if i < n then f i else 0 := by
  unfold byte make
  by_cases h : i < n <;> simp [h]

theorem byte_beyond (b : ByteVec n) {i : Nat} (h : n ≤ i) : byte b i = 0 := by
  unfold byte
  rw [Vector.getElem?_eq_none h]
  rfl

theorem buf_ext {a b : ByteVec n} (h : ∀ i, i < n → byte a i = byte b i) : a = b := by
  ext i hi
  have hbyte := h i hi
  unfold byte at hbyte
  rw [Vector.getElem?_eq_getElem hi, Vector.getElem?_eq_getElem hi] at hbyte
  exact congrArg UInt8.toNat hbyte

@[simp] theorem byte_zeros (i : Nat) : byte (zeros n) i = 0 := by
  unfold zeros
  rw [byte_make, ite_self]

theorem byte_poke (b : ByteVec n) (i : Nat) (v : UInt8) (j : Nat) :
    byte (poke b i v) j = if j = i ∧ j < n then v else byte b j := by
  unfold poke
  rw [byte_make]
  by_cases hj : j < n
  · simp [hj]
  · simp [hj, byte_beyond b (Nat.le_of_not_lt hj)]

theorem byte_put (b : ByteVec n) (off : Nat) (d : ByteVec k) (j : Nat) :
    byte (put b off d) j =
      if off ≤ j ∧ j < off + k ∧ j < n then byte d (j - off) else byte b j := by
  unfold put
  rw [byte_make]
  by_cases hj : j < n
  · simp [hj]
  · simp [hj, byte_beyond b (Nat.le_of_not_lt hj)]

theorem byte_slice (b : ByteVec n) (off k j : Nat) :
    byte (slice b off k) j = if j < k then byte b (off + j) else 0 :=
  byte_make _ _

@[simp] theorem slice_zeros (off k : Nat) : slice (zeros n) off k = zeros k := by
  apply buf_ext
  intro i _
  rw [byte_slice, byte_zeros, byte_zeros, ite_self]

@[simp] theorem slice_all (b : ByteVec n) : slice b 0 n = b := by
  apply buf_ext
  intro i hi
  rw [byte_slice, if_pos hi, Nat.zero_add]

theorem slice_put_self (b : ByteVec n) (off : Nat) (d : ByteVec k) (h : off + k ≤ n) :
    slice (put b off d) off k = d := by
  apply buf_ext
  intro i hi
  rw [byte_slice, if_pos hi, byte_put, if_pos (by omega), Nat.add_sub_cancel_left]

theorem slice_put_of_disjoint (b : ByteVec n) (off : Nat) (d : ByteVec k) {o m : Nat}
    (h : o + m ≤ off ∨ off + k ≤ o) : slice (put b off d) o m = slice b o m := by
  apply buf_ext
  intro i hi
  rw [byte_slice, byte_slice, if_pos hi, if_pos hi, byte_put, if_neg (by omega)]

theorem slice_patch_self (b : ByteVec n) (off : Nat) (f : ByteVec k → ByteVec k) (h : off + k ≤ n) :
    slice (patch b off k f) off k = f (slice b off k) :=
  slice_put_self b off _ h

theorem slice_patch_of_disjoint (b : ByteVec n) (off : Nat) (f : ByteVec k → ByteVec k) {o m : Nat}
    (h : o + m ≤ off ∨ off + k ≤ o) : slice (patch b off k f) o m = slice b o m :=
  slice_put_of_disjoint b off _ h

/-- `f` applied to each of the first `c` records of size `k`. -/
def patchAll (k : Nat) (f : Nat → ByteVec k → ByteVec k) : Nat → ByteVec n → ByteVec n
  | 0, b => b
  | c + 1, b => patch (patchAll k f c b) (c * k) k (f c)

theorem slice_patchAll_of_ge (f : Nat → ByteVec k → ByteVec k) (b : ByteVec n) {c o m : Nat} (h : c * k ≤ o) :
    slice (patchAll k f c b) o m = slice b o m := by
  induction c with
  | zero => rfl
  | succ c ih =>
    rw [Nat.succ_mul] at h
    unfold patchAll
    rw [slice_patch_of_disjoint _ _ _ (Or.inr h), ih (by omega)]

/-- Each record is what `f` makes of it, and nothing else is touched. -/
theorem slice_patchAll (f : Nat → ByteVec k → ByteVec k) (b : ByteVec n) {c i : Nat} (hc : c * k ≤ n)
    (hi : i < c) : slice (patchAll k f c b) (i * k) k = f i (slice b (i * k) k) := by
  induction c with
  | zero => exact absurd hi (Nat.not_lt_zero i)
  | succ c ih =>
    rw [Nat.succ_mul] at hc
    unfold patchAll
    by_cases hic : i = c
    · subst hic
      rw [slice_patch_self _ _ _ hc, slice_patchAll_of_ge f b (Nat.le_refl _)]
    · have hlt : i < c := by omega
      have hle : i * k + k ≤ c * k := by
        rw [← Nat.succ_mul]
        exact Nat.mul_le_mul_right k hlt
      rw [slice_patch_of_disjoint _ _ _ (Or.inl hle), ih (by omega) hlt]

/-- The bit `i` of the buffer, lowest bit of a byte first. -/
def bit (b : ByteVec n) (i : Nat) : Bool := (byte b (i / 8)).toNat.testBit (i % 8)

theorem bit_zeros (i : Nat) : bit (zeros n) i = false := by
  unfold bit
  rw [byte_zeros]
  exact Nat.zero_testBit _

/-- `b[i / 8] |= 1 << i % 8`. -/
def setBit (b : ByteVec n) (i : Nat) : ByteVec n :=
  poke b (i / 8) (byte b (i / 8) ||| UInt8.ofNat (1 <<< (i % 8)))

theorem bit_setBit (b : ByteVec n) {i : Nat} (j : Nat) (h : i < 8 * n) :
    bit (setBit b i) j = (bit b j || j == i) := by
  have hin : i / 8 < n := by omega
  unfold bit setBit
  rw [byte_poke]
  by_cases hj : j / 8 = i / 8
  · have hone : 1 <<< (i % 8) < 2 ^ 8 := by
      rw [Nat.one_shiftLeft]
      exact Nat.pow_lt_pow_right (by decide) (Nat.mod_lt _ (by decide))
    rw [if_pos ⟨hj, by omega⟩, UInt8.toNat_or, UInt8.toNat_ofNat', Nat.mod_eq_of_lt hone,
      Nat.testBit_or, Nat.one_shiftLeft, Nat.testBit_two_pow, hj]
    congr 1
    by_cases hji : j = i
    · simp [hji]
    · have hmod : ¬ i % 8 = j % 8 := by omega
      simp [hji, hmod]
  · have hji : j ≠ i := fun heq => hj (by rw [heq])
    simp [hj, hji]

/-- `setBit` for `k` bits from `i` on. -/
def setBits (i : Nat) : Nat → ByteVec n → ByteVec n
  | 0, b => b
  | k + 1, b => setBits (i + 1) k (setBit b i)

theorem bit_setBits (b : ByteVec n) {i k : Nat} (j : Nat) (h : i + k ≤ 8 * n) :
    bit (setBits i k b) j = (bit b j || decide (i ≤ j ∧ j < i + k)) := by
  induction k generalizing i b with
  | zero =>
    have hnone : ¬ (i ≤ j ∧ j < i) := by omega
    simp [setBits, hnone]
  | succ k ih =>
    unfold setBits
    rw [ih _ (by omega), bit_setBit _ _ (by omega), Bool.or_assoc]
    congr 1
    rw [Bool.eq_iff_iff]
    simp only [Bool.or_eq_true, beq_iff_eq, decide_eq_true_eq]
    omega

end Cage.Lib.Buffer
