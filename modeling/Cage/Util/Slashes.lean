import Mathlib.Data.List.TakeWhile
import Cage.Util.MemPath

/-!
Paths up to repeated slashes.
-/

namespace Cage.Util

/-- `c` in front of `s`, unless both are slashes. -/
def pushByte (c : UInt8) (s : CStr) : CStr := if c = slash ∧ s.head? = some slash then s else c :: s

/-- The path with one slash for every run of them. -/
def squeeze (s : CStr) : CStr := s.foldr pushByte []

/-- Two spellings of one path. -/
def SamePath (p q : CStr) : Prop := squeeze p = squeeze q

instance (p q : CStr) : Decidable (SamePath p q) := inferInstanceAs (Decidable (_ = _))

@[refl] theorem SamePath.refl (p : CStr) : SamePath p p := rfl

theorem SamePath.symm {p q : CStr} (h : SamePath p q) : SamePath q p := Eq.symm h

theorem SamePath.trans {p q r : CStr} (h : SamePath p q) (h' : SamePath q r) : SamePath p r :=
  Eq.trans h h'

theorem squeeze_cons (c : UInt8) (s : CStr) : squeeze (c :: s) = pushByte c (squeeze s) := rfl

theorem head_pushByte (c : UInt8) (s : CStr) : (pushByte c s).head? = some c := by
  unfold pushByte
  split
  · rename_i h
    rw [h.2, h.1]
  · rfl

theorem head_squeeze (s : CStr) : (squeeze s).head? = s.head? := by
  cases s with
  | nil => rfl
  | cons c s => exact head_pushByte c _

theorem pushByte_same {c : UInt8} {s : CStr} (hc : c = slash) (hs : s.head? = some slash) :
    pushByte c s = s := if_pos ⟨hc, hs⟩

theorem pushByte_other {c : UInt8} {s : CStr} (h : ¬(c = slash ∧ s.head? = some slash)) :
    pushByte c s = c :: s := if_neg h

/-- Squeezing the front first makes no difference. -/
theorem squeeze_append_left (p q : CStr) : squeeze (squeeze p ++ q) = squeeze (p ++ q) := by
  induction p with
  | nil => rfl
  | cons c p ih =>
    rw [squeeze_cons, List.cons_append, squeeze_cons, ← ih]
    by_cases h : c = slash ∧ (squeeze p).head? = some slash
    · rw [pushByte_same h.1 h.2, pushByte_same h.1]
      rw [head_squeeze, List.head?_append, h.2]
      rfl
    · rw [pushByte_other h]
      rfl

theorem squeeze_squeeze (p : CStr) : squeeze (squeeze p) = squeeze p := by
  have h := squeeze_append_left p []
  rwa [List.append_nil, List.append_nil] at h

theorem squeeze_append_right (p q : CStr) : squeeze (p ++ squeeze q) = squeeze (p ++ q) := by
  induction p with
  | nil => exact squeeze_squeeze q
  | cons c p ih => rw [List.cons_append, List.cons_append, squeeze_cons, squeeze_cons, ih]

/-- Behind another byte than a slash, nothing is joined. -/
theorem squeeze_append_of_last {p : CStr} (h : p.getLast? ≠ some slash) (q : CStr) :
    squeeze (p ++ q) = squeeze p ++ squeeze q := by
  induction p with
  | nil => rfl
  | cons c p ih =>
    rw [List.cons_append, squeeze_cons, squeeze_cons]
    cases p with
    | nil =>
      have hc : c ≠ slash := fun hc => h (congrArg some hc)
      rw [pushByte_other fun hboth => hc hboth.1, pushByte_other fun hboth => hc hboth.1]
      rfl
    | cons d p =>
      have hne : squeeze (d :: p) ≠ [] := fun hnil => by
        have hhead := head_squeeze (d :: p)
        rw [hnil] at hhead
        cases hhead
      rw [List.getLast?_cons_cons] at h
      rw [ih h]
      unfold pushByte
      rw [List.head?_append_of_ne_nil _ hne]
      split
      · rfl
      · rfl

theorem SamePath.append {p p' q q' : CStr} (hp : SamePath p p') (hq : SamePath q q') :
    SamePath (p ++ q) (p' ++ q') := by
  unfold SamePath at *
  rw [← squeeze_append_left, hp, squeeze_append_left, ← squeeze_append_right, hq,
    squeeze_append_right]

/-- Slashes in front of a slash do not count. -/
theorem samePath_slashes {s : CStr} (h : ∀ c ∈ s, c = slash) (t : CStr) :
    SamePath (s ++ slash :: t) (slash :: t) := by
  induction s with
  | nil => rfl
  | cons c s ih =>
    have hrest := ih fun d hd => h d (List.mem_cons_of_mem c hd)
    unfold SamePath at *
    rw [List.cons_append, squeeze_cons, hrest]
    refine pushByte_same (h c (List.mem_cons_self ..)) ?_
    rw [head_squeeze]
    rfl

theorem samePath_slashes_behind {s : CStr} (h : ∀ c ∈ s, c = slash) (t : CStr) :
    SamePath (slash :: (s ++ t)) (slash :: t) := by
  induction s with
  | nil => rfl
  | cons c s ih =>
    obtain rfl := h c (List.mem_cons_self ..)
    have hrest := ih fun d hd => h d (List.mem_cons_of_mem slash hd)
    refine SamePath.trans ?_ hrest
    unfold SamePath
    rw [squeeze_cons]
    refine pushByte_same rfl ?_
    rw [head_squeeze]
    rfl

/-- `mem_path` joins with a slash, up to the slashes at the joint. -/
theorem samePath_memPath (base append : CStr) :
    SamePath (memPath base append) (base ++ slash :: append) := by
  have hbase : base = (base.reverse.dropWhile (· = slash)).reverse ++
      (base.reverse.takeWhile (· = slash)).reverse := by
    rw [← List.reverse_append, List.takeWhile_append_dropWhile, List.reverse_reverse]
  have htail : ∀ c ∈ (base.reverse.takeWhile (· = slash)).reverse, c = slash := fun c hc => by
    simpa using List.mem_takeWhile_imp (List.mem_reverse.mp hc)
  have hfront : ∀ c ∈ append.takeWhile (· = slash), c = slash := fun c hc => by
    simpa using List.mem_takeWhile_imp hc
  unfold memPath
  conv_rhs => rw [hbase, List.append_assoc]
  refine SamePath.append rfl ?_
  refine SamePath.symm (SamePath.trans (samePath_slashes htail append) ?_)
  conv_lhs => rw [← List.takeWhile_append_dropWhile (p := (· = slash)) (l := append)]
  exact samePath_slashes_behind hfront _

/-- The other bytes are the same in every spelling. -/
theorem SamePath.filter {p q : CStr} (h : SamePath p q) :
    p.filter (· ≠ slash) = q.filter (· ≠ slash) := by
  have hkeep : ∀ s : CStr, (squeeze s).filter (· ≠ slash) = s.filter (· ≠ slash) := by
    intro s
    induction s with
    | nil => rfl
    | cons c s ih =>
      rw [squeeze_cons, List.filter_cons, ← ih]
      unfold pushByte
      split
      · rename_i hc
        rw [if_neg (by simp [hc.1])]
      · rw [List.filter_cons]
  unfold SamePath at h
  rw [← hkeep p, h, hkeep q]

theorem SamePath.mem_slash {p q : CStr} (h : SamePath p q) (hp : slash ∈ p) : slash ∈ q := by
  have hkeep : ∀ s : CStr, slash ∈ squeeze s ↔ slash ∈ s := by
    intro s
    induction s with
    | nil => exact Iff.rfl
    | cons c s ih =>
      rw [squeeze_cons, List.mem_cons, ← ih]
      unfold pushByte
      split
      · rename_i hc
        exact ⟨.inr, fun hmem => hmem.elim (fun _ => List.mem_of_mem_head? hc.2) id⟩
      · rw [List.mem_cons]
  exact (hkeep q).mp (h ▸ (hkeep p).mpr hp)

end Cage.Util
