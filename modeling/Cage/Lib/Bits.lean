import Mathlib.Data.Nat.Bitwise
import Mathlib.Data.List.Basic
import Mathlib.Tactic.Ring

/-!
Numbers as bit lists. `field` and `value` write and read a fixed-width field
least significant bit first, `msb` reads a codeword most significant bit
first, and `byteBits` is the bit list of a byte string.
-/

namespace Cage.Lib.Bits

/-- The low `n` bits of `v`, least significant bit first. -/
def field : Nat → Nat → List Bool
  | 0, _ => []
  | n + 1, v => (v % 2 == 1) :: field n (v / 2)

/-- The number a bit list denotes, least significant bit first. -/
def value : List Bool → Nat
  | [] => 0
  | b :: bs => b.toNat + 2 * value bs

/-- The number a bit list denotes, most significant bit first, continuing
from the bits already read in `acc`. -/
def msbFrom (acc : Nat) (bs : List Bool) : Nat :=
  bs.foldl (fun c b => 2 * c + b.toNat) acc

def msb (bs : List Bool) : Nat := msbFrom 0 bs

def byteBits (bytes : List UInt8) : List Bool :=
  bytes.flatMap fun b => field 8 b.toNat

/-- The `k` low bytes of `v`, least significant byte first. -/
def leBytes : Nat → Nat → List UInt8
  | 0, _ => []
  | k + 1, v => UInt8.ofNat v :: leBytes k (v / 256)

@[simp] theorem field_zero (v : Nat) : field 0 v = [] := rfl

@[simp] theorem field_length (n v : Nat) : (field n v).length = n := by
  induction n generalizing v with
  | zero => rfl
  | succ n ih => simp [field, ih]

@[simp] theorem byteBits_nil : byteBits [] = [] := rfl

@[simp] theorem byteBits_cons (b : UInt8) (bytes : List UInt8) :
    byteBits (b :: bytes) = field 8 b.toNat ++ byteBits bytes := rfl

@[simp] theorem byteBits_append (xs ys : List UInt8) :
    byteBits (xs ++ ys) = byteBits xs ++ byteBits ys := by
  simp [byteBits]

@[simp] theorem byteBits_length (bytes : List UInt8) :
    (byteBits bytes).length = 8 * bytes.length := by
  induction bytes with
  | nil => rfl
  | cons b rest ih => simp [ih]; omega

theorem toNat_eq_mod (v : Nat) : (v % 2 == 1).toNat = v % 2 := by
  rcases Nat.mod_two_eq_zero_or_one v with h | h <;> simp [h]

theorem value_field (n v : Nat) : value (field n v) = v % 2 ^ n := by
  induction n generalizing v with
  | zero => simp [value, Nat.mod_one]
  | succ n ih =>
    simp only [field, value, ih, toNat_eq_mod]
    rw [Nat.pow_succ', Nat.mod_mul]

theorem field_value (bs : List Bool) : field bs.length (value bs) = bs := by
  induction bs with
  | nil => rfl
  | cons b rest ih =>
    have hhead : (b.toNat + 2 * value rest) % 2 = b.toNat := by
      cases b <;> simp
    have htail : (b.toNat + 2 * value rest) / 2 = value rest := by
      cases b
      · simp
      · simp
        omega
    simp only [List.length_cons, field, value, hhead, htail, ih]
    cases b <;> rfl

theorem value_lt (bs : List Bool) : value bs < 2 ^ bs.length := by
  rw [← field_value bs, value_field, field_length]
  exact Nat.mod_lt _ (Nat.two_pow_pos _)

theorem value_append (xs ys : List Bool) :
    value (xs ++ ys) = value xs + 2 ^ xs.length * value ys := by
  induction xs with
  | nil => simp [value]
  | cons b xs ih =>
    simp only [List.cons_append, value, ih, List.length_cons, Nat.pow_succ]
    ring

/-- Joining a field of `m` bits above one of `n` bits appends the lists. -/
theorem field_add (n m a b : Nat) (ha : a < 2 ^ n) :
    field (n + m) (a + 2 ^ n * b) = field n a ++ field m b := by
  induction n generalizing a with
  | zero =>
    have : a = 0 := by simpa using ha
    simp [this]
  | succ n ih =>
    have hhalf : a / 2 < 2 ^ n := by
      rw [Nat.pow_succ] at ha
      omega
    have hmul : 2 ^ (n + 1) * b = 2 * (2 ^ n * b) := by ring
    have hmod : (a + 2 * (2 ^ n * b)) % 2 = a % 2 := by omega
    have hdiv : (a + 2 * (2 ^ n * b)) / 2 = a / 2 + 2 ^ n * b := by omega
    rw [Nat.add_right_comm]
    simp only [field, hmul, hmod, hdiv, ih (a / 2) hhalf, List.cons_append]

theorem field_take (n m v : Nat) (h : n ≤ m) : (field m v).take n = field n v := by
  induction n generalizing m v with
  | zero => simp
  | succ n ih =>
    obtain ⟨k, rfl⟩ : ∃ k, m = k + 1 := ⟨m - 1, by omega⟩
    simp only [field, List.take_succ_cons]
    rw [ih k (v / 2) (by omega)]

theorem field_drop (n m v : Nat) : (field m v).drop n = field (m - n) (v / 2 ^ n) := by
  induction n generalizing m v with
  | zero => simp
  | succ n ih =>
    cases m with
    | zero => simp
    | succ m =>
      simp only [field, List.drop_succ_cons, ih]
      rw [Nat.pow_succ', Nat.div_div_eq_div_mul, Nat.add_sub_add_right]

theorem field_mod (n v : Nat) : field n (v % 2 ^ n) = field n v := by
  have h := field_value (field n v)
  rwa [field_length, value_field] at h

theorem fields_length (k : Nat) (xs : List Nat) :
    (xs.flatMap (field k)).length = k * xs.length := by
  induction xs with
  | nil => rfl
  | cons x xs ih =>
    rw [List.flatMap_cons, List.length_append, field_length, ih, List.length_cons]
    ring

/-- Fields of one width determine the numbers that fit in them. -/
theorem fields_inj (k : Nat) (xs ys : List Nat) (hxs : ∀ x ∈ xs, x < 2 ^ k)
    (hys : ∀ y ∈ ys, y < 2 ^ k) (hlen : xs.length = ys.length)
    (h : xs.flatMap (field k) = ys.flatMap (field k)) : xs = ys := by
  induction xs generalizing ys with
  | nil => exact (List.eq_nil_of_length_eq_zero hlen.symm).symm
  | cons x xs ih =>
    obtain ⟨y, ys, rfl⟩ := List.exists_cons_of_length_pos (l := ys) (by rw [← hlen]; simp)
    obtain ⟨hhead, htail⟩ := List.append_inj h (by simp)
    have hvalue := congrArg value hhead
    rw [value_field, value_field, Nat.mod_eq_of_lt (hxs x (by simp)),
      Nat.mod_eq_of_lt (hys y (by simp))] at hvalue
    rw [hvalue, ih ys (fun z hz => hxs z (by simp [hz])) (fun z hz => hys z (by simp [hz]))
      (by simpa using hlen) htail]

theorem byteBits_inj {xs ys : List UInt8} (h : byteBits xs = byteBits ys) : xs = ys := by
  have hlen := congrArg List.length h
  simp only [byteBits_length] at hlen
  have hlt : ∀ (bytes : List UInt8), ∀ n ∈ bytes.map UInt8.toNat, n < 2 ^ 8 := by
    intro bytes n hn
    obtain ⟨b, -, rfl⟩ := List.mem_map.mp hn
    exact b.toNat_lt
  have hmap := fields_inj 8 (xs.map UInt8.toNat) (ys.map UInt8.toNat) (hlt xs) (hlt ys)
    (by simp only [List.length_map]; omega) (by simpa [byteBits, List.flatMap_map] using h)
  exact List.map_injective_iff.mpr (fun _ _ => UInt8.toNat_inj.mp) hmap

@[simp] theorem leBytes_length (k v : Nat) : (leBytes k v).length = k := by
  induction k generalizing v with
  | zero => rfl
  | succ k ih => simp [leBytes, ih]

theorem byteBits_leBytes (k v : Nat) : byteBits (leBytes k v) = field (8 * k) v := by
  induction k generalizing v with
  | zero => rfl
  | succ k ih =>
    have hbyte : field 8 (UInt8.ofNat v).toNat = field 8 v := by
      rw [UInt8.toNat_ofNat', field_mod]
    have htake := field_take 8 (8 * (k + 1)) v (by omega)
    have hdrop := field_drop 8 (8 * (k + 1)) v
    rw [show 8 * (k + 1) - 8 = 8 * k by omega, show 2 ^ 8 = 256 by rfl] at hdrop
    rw [leBytes, byteBits_cons, hbyte, ih, ← List.take_append_drop 8 (field (8 * (k + 1)) v), htake,
      hdrop]

/-- Bytes are the little-endian form of the number they denote. -/
theorem leBytes_value (bytes : List UInt8) (k v : Nat) (hk : bytes.length = k)
    (hv : v % 2 ^ (8 * k) = value (byteBits bytes)) : leBytes k v = bytes := by
  apply byteBits_inj
  rw [byteBits_leBytes, ← field_mod, hv, ← hk, ← byteBits_length, field_value]

@[simp] theorem msbFrom_nil (acc : Nat) : msbFrom acc [] = acc := rfl

@[simp] theorem msbFrom_cons (acc : Nat) (b : Bool) (bs : List Bool) :
    msbFrom acc (b :: bs) = msbFrom (2 * acc + b.toNat) bs := rfl

theorem msbFrom_append (acc : Nat) (xs ys : List Bool) :
    msbFrom acc (xs ++ ys) = msbFrom (msbFrom acc xs) ys := by
  simp [msbFrom, List.foldl_append]

/-- Reading `bs` after `acc` shifts `acc` left by the number of bits. -/
theorem msbFrom_eq (acc : Nat) (bs : List Bool) :
    msbFrom acc bs = acc * 2 ^ bs.length + msb bs := by
  induction bs generalizing acc with
  | nil => simp [msb]
  | cons b rest ih =>
    simp only [msb, msbFrom_cons, List.length_cons]
    rw [ih, ih (2 * 0 + b.toNat)]
    ring

theorem msb_lt (bs : List Bool) : msb bs < 2 ^ bs.length := by
  induction bs with
  | nil => simp [msb]
  | cons b rest ih =>
    have hmsb : msb (b :: rest) = b.toNat * 2 ^ rest.length + msb rest := by
      rw [msb, msbFrom_cons, msbFrom_eq]
      simp
    rw [hmsb, List.length_cons, Nat.pow_succ]
    cases b <;> simp <;> omega

/-- The two readings of a bit list. -/
theorem msb_reverse (bs : List Bool) : msb bs.reverse = value bs := by
  induction bs with
  | nil => rfl
  | cons b rest ih =>
    rw [List.reverse_cons, msb, msbFrom_append, ← msb, ih, msbFrom_cons, msbFrom_nil, value]
    exact Nat.add_comm _ _

end Cage.Lib.Bits
