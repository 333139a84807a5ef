import Cage.User.Grammar
import Cage.User.ParseMem
import Mathlib.Algebra.Order.Group.Multiset
import Mathlib.Data.Multiset.Range

/-!
`user_new` on memory that may run out. It refines the parser that has all the memory
it asks for, so it accepts the grammar and nothing else; no store leaves the slots
that `count_tokens` reserved; and a run that fails has freed each block once.
-/

namespace Cage.User

open Cage.Util Cage.Lib.Checked

/-- The blocks that there are: those that are held, and the freed ones, each once. -/
def Held (m : Memory) (ids : Multiset Nat) : Prop :=
  ids + (m.freed : Multiset Nat) = Multiset.range m.next

def owned (s : Option Str) : Multiset Nat := ((s.map Str.id).toList : Multiset Nat)

def namesOf (ts : List TokenMem) : Multiset Nat := (ts.map fun t => owned t.name).sum

@[simp] theorem owned_none : owned none = 0 := rfl

@[simp] theorem owned_some (s : Str) : owned (some s) = {s.id} := rfl

@[simp] theorem namesOf_nil : namesOf [] = 0 := rfl

@[simp] theorem namesOf_cons (t : TokenMem) (ts : List TokenMem) :
    namesOf (t :: ts) = owned t.name + namesOf ts := rfl

@[simp] theorem namesOf_concat (ts : List TokenMem) (t : TokenMem) :
    namesOf (ts ++ [t]) = owned t.name + namesOf ts := by
  simp [namesOf, add_comm]

section Allocation

variable {ok : Nat → Bool} {m : Memory} {ids : Multiset Nat}

theorem Held.allocated (h : Held m ids) (asked : Nat) :
    Held { m with asked := asked, next := m.next + 1 } ({m.next} + ids) := by
  unfold Held at h ⊢
  rw [add_assoc, h, Multiset.range_succ, Multiset.singleton_add]

theorem Held.freed {block : Option Nat} (h : Held m ((block.toList : Multiset Nat) + ids)) :
    Held { m with freed := block.toList ++ m.freed } ids := by
  unfold Held at h ⊢
  rw [← h, ← Multiset.coe_add]
  ac_rfl

/-- With nothing held, each block has been freed once. -/
theorem Held.all_freed (h : Held m 0) : m.freed.Perm (List.range m.next) := by
  unfold Held at h
  rw [zero_add] at h
  exact Multiset.coe_eq_coe.mp h

theorem malloc_ends (h : Held m ids) : Ends (malloc ok) m fun r m' => match r with
    | some id => Held m' ({id} + ids)
    | none => Held m' ids ∧ ¬∀ k, ok k = true := by
  refine Ends.get_bind ?_
  by_cases hok : ok m.asked = true
  · rw [if_pos hok]
    exact Ends.set_bind (Ends.pure (h.allocated _))
  · rw [if_neg hok]
    exact Ends.set_bind (Ends.pure ⟨h, fun hall => hok (hall _)⟩)

theorem free_ends {block : Option Nat} (h : Held m ((block.toList : Multiset Nat) + ids)) :
    Ends (free block) m fun _ m' => Held m' ids :=
  Ends.get_bind ⟨⟨⟩, _, rfl, h.freed⟩

theorem memStrdup_ends (s : CStr) (h : Held m ids) :
    Ends (memStrdup s) m fun r m' => r.bytes = s ∧ Held m' ({r.id} + ids) :=
  Ends.get_bind (Ends.set_bind (Ends.pure ⟨rfl, h.allocated _⟩))

theorem reallocTokens_ends {old : Option TokenArray} (n : Nat)
    (h : Held m (((old.map TokenArray.id).toList : Multiset Nat) + ids)) :
    Ends (reallocTokens ok old n) m fun r m' => match r with
      | some t => Held m' ({t.id} + ids) ∧ t.slots.length = n ∧
          ((old.map TokenArray.slots).getD []).take n <+: t.slots
      | none => Held m' (((old.map TokenArray.id).toList : Multiset Nat) + ids) ∧
          ¬∀ k, ok k = true := by
  refine Ends.bind (malloc_ends h) ?_
  rintro (_ | id) m' hm'
  · exact Ends.pure hm'
  · have hold : Held m' (((old.map TokenArray.id).toList : Multiset Nat) + ({id} + ids)) := by
      rw [add_left_comm]
      exact hm'
    refine Ends.bind (free_ends hold) fun _ m'' hm'' => Ends.pure ⟨hm'', ?_, ?_⟩
    · simp
    · exact List.prefix_append _ _

end Allocation

/-- The first slots hold `ts`. -/
def Filled (slots : List (Option TokenMem)) (ts : List TokenMem) : Prop := ts.map some <+: slots

def TokenMem.seen (t : TokenMem) : GroupToken := { name := t.name.map Str.bytes, gid := t.gid }

section Filling

variable {slots : List (Option TokenMem)} {ts : List TokenMem}

theorem Filled.length_le (h : Filled slots ts) : ts.length ≤ slots.length := by
  simpa using List.IsPrefix.length_le h

/-- A store behind the tokens keeps them. -/
theorem Filled.set (h : Filled slots ts) (x : Option TokenMem) :
    Filled (slots.set ts.length x) ts := by
  obtain ⟨rest, rfl⟩ := h
  rw [List.set_append_right _ _ (by simp)]
  exact List.prefix_append _ _

theorem Filled.set_concat (h : Filled slots ts) (hroom : ts.length < slots.length) (t : TokenMem) :
    Filled (slots.set ts.length (some t)) (ts ++ [t]) := by
  obtain ⟨rest, rfl⟩ := h
  rw [List.length_append, List.length_map] at hroom
  obtain ⟨x, rest, rfl⟩ := List.exists_cons_of_length_pos (l := rest) (by omega)
  refine ⟨rest, ?_⟩
  simp

/-- The filling has come to some tokens, those of the parser when it succeeds; it
fails where the parser does, or for want of memory. -/
def Fills (ok : Nat → Bool) (kept : Multiset Nat) (room : Nat)
    (result : Option (List GroupToken)) (r : Filling) (m : Memory) : Prop :=
  ∃ ts, Filled r.slots ts ∧ r.count = ts.length ∧ r.slots.length = room ∧
    Held m (namesOf ts + kept) ∧ (r.ret = 0 ∧ result = some (ts.map TokenMem.seen) ∨
      r.ret = -1 ∧ ((∀ k, ok k = true) → result = none))

variable {ok : Nat → Bool} {m : Memory} {kept : Multiset Nat}

theorem parseOneTokenMem_ends (hfill : Filled slots ts) (hroom : ts.length < slots.length)
    (hheld : Held m (namesOf ts + kept)) (a : CStr) :
    Ends (parseOneTokenMem ok slots ts.length a) m fun r m' => r.2.length = slots.length ∧
      (r.1 = 0 ∧ (∃ t, parseOneToken a = some t.seen ∧ Filled r.2 (ts ++ [t]) ∧
          Held m' (namesOf (ts ++ [t]) + kept)) ∨
        r.1 = -1 ∧ Filled r.2 ts ∧ Held m' (namesOf ts + kept) ∧
          ((∀ k, ok k = true) → parseOneToken a = none)) := by
  have hcleared := hfill.set (some { name := none, gid := 0 })
  have hlen : (slots.set ts.length (some { name := none, gid := 0 })).length = slots.length :=
    List.length_set
  have hroom' := hlen.symm ▸ hroom
  unfold parseOneTokenMem parseOneToken
  refine Ends.store_bind hroom ?_
  by_cases hbad : a.length = 0 ∨ a.length ≥ 256
  · rw [if_pos hbad, if_pos hbad]
    exact Ends.pure ⟨hlen, Or.inr ⟨rfl, hcleared, hheld, fun _ => rfl⟩⟩
  · rw [if_neg hbad, if_neg hbad]
    by_cases hdigits : allDigits a = true
    · rw [if_pos hdigits, if_pos hdigits]
      cases parseId a with
      | none => exact Ends.pure ⟨hlen, Or.inr ⟨rfl, hcleared, hheld, fun _ => rfl⟩⟩
      | some gid =>
        refine Ends.store_bind hroom' (Ends.pure ⟨by simp, Or.inl ⟨rfl, ?_⟩⟩)
        exact ⟨_, rfl, hcleared.set_concat hroom' _, by simpa using hheld⟩
    · rw [if_neg hdigits, if_neg hdigits]
      refine Ends.bind (malloc_ends hheld) ?_
      rintro (_ | id) m' hm'
      · exact Ends.pure ⟨hlen, Or.inr ⟨rfl, hcleared, hm'.1, fun hall => absurd hall hm'.2⟩⟩
      · refine Ends.store_bind hroom' (Ends.pure ⟨by simp, Or.inl ⟨rfl, ?_⟩⟩)
        refine ⟨_, rfl, hcleared.set_concat hroom' _, ?_⟩
        rw [namesOf_concat, owned_some, add_assoc]
        exact hm'

theorem addTokenMem_fills (hfill : Filled slots ts) (hroom : ts.length < slots.length)
    (hheld : Held m (namesOf ts + kept)) (a : CStr) :
    Ends (addTokenMem ok slots ts.length a) m
      (Fills ok kept slots.length (addToken (ts.map TokenMem.seen) a)) := by
  unfold addTokenMem addToken
  by_cases hempty : a.length = 0
  · rw [if_pos hempty, if_pos hempty]
    exact Ends.pure ⟨ts, hfill, rfl, rfl, hheld, Or.inr ⟨rfl, fun _ => rfl⟩⟩
  · rw [if_neg hempty, if_neg hempty]
    refine Ends.bind (parseOneTokenMem_ends hfill hroom hheld a) ?_
    rintro ⟨ret, slots'⟩ m' ⟨hlen, ⟨rfl, t, ht, hfill', hheld'⟩ | ⟨rfl, hfill', hheld', hnone⟩⟩
    · rw [if_neg (fun h => h rfl)]
      refine Ends.pure ⟨ts ++ [t], hfill', by simp, hlen, hheld', Or.inl ⟨rfl, ?_⟩⟩
      rw [ht, List.map_append]
      rfl
    · rw [if_pos (by simp)]
      refine Ends.pure ⟨ts, hfill', rfl, hlen, hheld', Or.inr ⟨rfl, fun hall => ?_⟩⟩
      rw [hnone hall]
      rfl

theorem addToken_length {t t' : List GroupToken} {a : CStr} (h : addToken t a = some t') :
    t'.length = t.length + 1 := by
  unfold addToken at h
  split at h
  · cases h
  · obtain ⟨tok, -, rfl⟩ := Option.map_eq_some_iff.mp h
    simp

/-- By induction on what is left of the string; the slots that are free cover its
colons and one more. -/
theorem fillTokensMem_fills {s : CStr} (hfill : Filled slots ts)
    (hroom : ts.length + 1 + s.count colon ≤ slots.length)
    (hheld : Held m (namesOf ts + kept)) (a : CStr) :
    Ends (fillTokensMem ok slots ts.length a s) m
      (Fills ok kept slots.length (fillTokens (ts.map TokenMem.seen) a s)) := by
  induction s generalizing slots ts a m with
  | nil =>
    rw [fillTokensMem, fillTokens]
    exact addTokenMem_fills hfill (Nat.lt_of_succ_le hroom) hheld a
  | cons c s ih =>
    rw [fillTokensMem, fillTokens]
    by_cases hc : c = colon
    · rw [if_pos hc, if_pos hc]
      rw [hc, List.count_cons_self] at hroom
      refine Ends.bind (addTokenMem_fills hfill (by omega) hheld a) ?_
      rintro ⟨ret, slots', n⟩ m' ⟨ts', hfill', hn, hlen, hheld', hret⟩
      dsimp only at hfill' hn hlen hret
      obtain ⟨rfl, hsome⟩ | ⟨rfl, hnone⟩ := hret
      · have hcount := addToken_length hsome
        simp only [List.length_map] at hcount
        rw [if_neg (fun h => h rfl), hsome, hn, ← hlen]
        exact ih hfill' (by omega) hheld' []
      · rw [if_pos (by simp)]
        refine Ends.pure ⟨ts', hfill', hn, hlen, hheld', Or.inr ⟨rfl, fun hall => ?_⟩⟩
        rw [hnone hall]
    · rw [if_neg hc, if_neg hc]
      rw [List.count_cons_of_ne hc] at hroom
      exact ih hfill hroom hheld (a ++ [c])

end Filling

/-- The slots of a user; it has none before the first token list. -/
def UserMem.slots (u : UserMem) : List (Option TokenMem) :=
  (u.tokens.map TokenArray.slots).getD []

def UserMem.array (u : UserMem) : Option Nat := u.tokens.map TokenArray.id

/-- The blocks of a user with the tokens `ts`. -/
def UserMem.blocks (u : UserMem) (ts : List TokenMem) : Multiset Nat :=
  (u.array.toList : Multiset Nat) + (namesOf ts + (owned u.name + (owned u.rootfs + {u.id})))

/-- The counted tokens of a user are `ts`. -/
structure UserMem.Built (u : UserMem) (ts : List TokenMem) : Prop where
  filled : Filled u.slots ts
  count : u.count = ts.length

/-- The user that the other functions see. -/
def UserMem.seen (u : UserMem) (ts : List TokenMem) : UserT :=
  { UserT.zero with
    uid := u.uid, uidFilled := u.uidFilled, nameGiven := u.nameGiven,
    name := u.name.map Str.bytes, groupTokens := ts.map TokenMem.seen,
    rootfs := u.rootfs.map Str.bytes }

theorem UserMem.seen_groupTokens (u : UserMem) (ts : List TokenMem) :
    (u.seen ts).groupTokens = ts.map TokenMem.seen := rfl

section User

variable (ok : Nat → Bool) {u : UserMem} {ts : List TokenMem} {m : Memory}

/-- A step of the parser: it leaves the user in block `id` with all its blocks, and
the user is the one that the parser makes when it succeeds. -/
def Outcome (ok : Nat → Bool) (id : Nat) (result : Option UserT) (r : Int × UserMem)
    (m : Memory) : Prop :=
  r.2.id = id ∧ ∃ ts, r.2.Built ts ∧ Held m (r.2.blocks ts) ∧
    (r.1 = 0 ∧ result = some (r.2.seen ts) ∨
      r.1 = -1 ∧ ((∀ k, ok k = true) → result = none))

theorem countTokens_of_ne_zero {g : Option CStr} (h : countTokens g ≠ 0) :
    countTokens g = 1 + (g.getD []).count colon := by
  match g with
  | none | some [] => exact absurd rfl h
  | some (c :: s) => rfl

theorem appendTokensMem_outcome (hu : u.Built ts) (hheld : Held m (u.blocks ts))
    (g : Option CStr) : Ends (appendTokensMem ok u g) m
      (Outcome ok u.id ((appendTokens (u.seen ts).groupTokens g).map fun t =>
        { u.seen ts with groupTokens := t })) := by
  unfold appendTokensMem appendTokens
  rw [UserMem.seen_groupTokens]
  dsimp only
  by_cases hzero : countTokens g = 0
  · rw [if_pos hzero, if_pos hzero]
    exact Ends.pure ⟨rfl, ts, hu, hheld, Or.inl ⟨rfl, rfl⟩⟩
  · rw [if_neg hzero, if_neg hzero]
    refine Ends.bind (reallocTokens_ends (u.count + countTokens g) hheld) ?_
    rintro (_ | t) m' hm'
    · exact Ends.pure ⟨rfl, ts, hu, hm'.1, Or.inr ⟨rfl, fun hall => absurd hall hm'.2⟩⟩
    · obtain ⟨hheld', hlen, hkept⟩ := hm'
      have hfill : Filled t.slots ts :=
        (List.prefix_take_iff.mpr ⟨hu.filled, by simp [hu.count]⟩).trans hkept
      have hroom : ts.length + 1 + (g.getD []).count colon ≤ t.slots.length := by
        rw [hlen, hu.count, countTokens_of_ne_zero hzero]
        omega
      rw [add_left_comm] at hheld'
      rw [hu.count]
      refine Ends.bind (fillTokensMem_fills hfill hroom hheld' []) ?_
      rintro ⟨ret, slots', n⟩ m'' ⟨ts', hfill', hn, -, hheld'', hret⟩
      refine Ends.pure ⟨rfl, ts', ⟨hfill', hn⟩, ?_, ?_⟩
      · rw [add_left_comm] at hheld''
        exact hheld''
      · obtain ⟨hzero', hsome⟩ | ⟨hfail, hnone⟩ := hret
        · exact Or.inl ⟨hzero', by rw [hsome]; rfl⟩
        · exact Or.inr ⟨hfail, fun hall => by rw [hnone hall]; rfl⟩

theorem storeIdentityMem_outcome (hu : u.Built ts) (hheld : Held m (u.blocks ts))
    (hname : u.name = none) (ub : CStr) : Ends (storeIdentityMem u ub) m
      (Outcome ok u.id (storeIdentity (u.seen ts) ub)) := by
  unfold storeIdentityMem storeIdentity
  by_cases hdigits : allDigits ub = true
  · rw [if_pos hdigits, if_pos hdigits]
    cases parseId ub with
    | none => exact Ends.pure ⟨rfl, ts, hu, hheld, Or.inr ⟨rfl, fun _ => rfl⟩⟩
    | some uid => exact Ends.pure ⟨rfl, ts, ⟨hu.filled, hu.count⟩, hheld, Or.inl ⟨rfl, rfl⟩⟩
  · rw [if_neg hdigits, if_neg hdigits]
    refine Ends.bind (memStrdup_ends ub hheld) ?_
    rintro ⟨id, bytes⟩ m' ⟨rfl, hheld'⟩
    refine Ends.pure ⟨rfl, ts, ⟨hu.filled, hu.count⟩, ?_, Or.inl ⟨rfl, rfl⟩⟩
    have hblocks : ({ u with name := some ⟨id, bytes⟩, nameGiven := true } : UserMem).blocks ts =
        {id} + u.blocks ts := by
      unfold UserMem.blocks
      rw [hname, owned_none, zero_add]
      show u.array.toList + (namesOf ts + ({id} + (owned u.rootfs + {u.id}))) = _
      ac_rfl
    rw [hblocks]
    exact hheld'

theorem parseUserIdentityMem_outcome (hu : u.Built ts) (hheld : Held m (u.blocks ts))
    (hname : u.name = none) (s : CStr) (c : Option CStr) :
    Ends (parseUserIdentityMem u s c) m (Outcome ok u.id (parseUserIdentity (u.seen ts) s c)) := by
  unfold parseUserIdentityMem parseUserIdentity
  dsimp only
  by_cases hbad : identityLength s c = 0 ∨ identityLength s c ≥ 256
  · rw [if_pos hbad, if_pos hbad]
    exact Ends.pure ⟨rfl, ts, hu, hheld, Or.inr ⟨rfl, fun _ => rfl⟩⟩
  · rw [if_neg hbad, if_neg hbad]
    exact storeIdentityMem_outcome ok hu hheld hname _

theorem parseUserBodyMem_outcome (hu : u.Built ts) (hheld : Held m (u.blocks ts))
    (hname : u.name = none) (s g : Option CStr) :
    Ends (parseUserBodyMem ok u s g) m (Outcome ok u.id (parseUserBody (u.seen ts) s g)) := by
  have hroot : Ends (appendTokensMem ok { u with uidFilled := true, uid := 0 } g) m
      (Outcome ok u.id ((appendTokens (u.seen ts).groupTokens g).map fun t =>
        { u.seen ts with uidFilled := true, uid := 0, groupTokens := t })) :=
    appendTokensMem_outcome ok (u := { u with uidFilled := true, uid := 0 })
      ⟨hu.filled, hu.count⟩ hheld g
  match s with
  | none | some [] => exact hroot
  | some (a :: s) =>
    unfold parseUserBodyMem parseUserBody
    dsimp only
    refine Ends.bind (parseUserIdentityMem_outcome ok hu hheld hname (a :: s) _) ?_
    rintro ⟨ret, v⟩ m₁ ⟨hid₁, ts₁, hv, hheld₁, ⟨rfl, hsome⟩ | ⟨rfl, hnone⟩⟩
    · rw [if_neg (fun h => h rfl), hsome]
      dsimp only
      refine Ends.bind (appendTokensMem_outcome ok hv hheld₁ g) ?_
      rintro ⟨ret, w⟩ m₂ ⟨hid₂, ts₂, hw, hheld₂, ⟨rfl, hsome₂⟩ | ⟨rfl, hnone₂⟩⟩
      · obtain ⟨t, ht, hseen⟩ := Option.map_eq_some_iff.mp hsome₂
        rw [if_neg (fun h => h rfl), ht]
        cases strchr (a :: s) colon with
        | none => exact Ends.pure ⟨hid₂.trans hid₁, ts₂, hw, hheld₂, Or.inl ⟨rfl, by rw [← hseen]⟩⟩
        | some rest =>
          have hsuffix := appendTokensMem_outcome ok hw hheld₂ (some rest.tail)
          rw [← hseen, show w.id = u.id from hid₂.trans hid₁] at hsuffix
          exact hsuffix
      · rw [if_pos (by simp)]
        refine Ends.pure ⟨hid₂.trans hid₁, ts₂, hw, hheld₂, Or.inr ⟨rfl, fun hall => ?_⟩⟩
        rw [Option.map_eq_none_iff.mp (hnone₂ hall)]
    · rw [if_pos (by simp)]
      refine Ends.pure ⟨hid₁, ts₁, hv, hheld₁, Or.inr ⟨rfl, fun hall => ?_⟩⟩
      rw [hnone hall]

/-- The loop frees the names of the tokens from slot `i` on. -/
theorem freeNames_ends {slots : List (Option TokenMem)} {i : Nat} {kept : Multiset Nat}
    (hfill : ts.map some <+: slots.drop i) (hheld : Held m (namesOf ts + kept)) :
    Ends (freeNames slots i ts.length) m fun _ m' => Held m' kept := by
  induction ts generalizing i m with
  | nil => exact Ends.pure (by simpa using hheld)
  | cons t ts ih =>
    rw [List.map_cons] at hfill
    obtain ⟨rest, hrest⟩ := hfill
    have hslot : slots[i]? = some (some t) := by
      rw [← List.head?_drop, ← hrest]
      rfl
    have hnext : ts.map some <+: slots.drop (i + 1) := by
      rw [← List.tail_drop, ← hrest]
      exact List.prefix_append _ _
    rw [namesOf_cons, add_assoc] at hheld
    rw [List.length_cons, freeNames]
    refine Ends.load_bind hslot ?_
    exact Ends.bind (free_ends hheld) fun _ m' hheld' => ih hnext hheld'

theorem userFree_ends (hu : u.Built ts) (hheld : Held m (u.blocks ts)) :
    Ends (userFree u) m fun _ m' => Held m' {u.id} := by
  have hname : Held m (owned u.name + (owned u.rootfs +
      ((u.array.toList : Multiset Nat) + (namesOf ts + {u.id})))) := by
    unfold UserMem.blocks at hheld
    convert hheld using 1
    ac_rfl
  unfold userFree
  refine Ends.bind (free_ends hname) fun _ m₁ hroot => ?_
  refine Ends.bind (free_ends hroot) fun _ m₂ harray => ?_
  have hfill := hu.filled
  unfold UserMem.slots Filled at hfill
  unfold UserMem.array at harray
  cases htokens : u.tokens with
  | none =>
    rw [htokens] at hfill harray
    have hnil : ts = [] := by simpa using hfill
    subst hnil
    exact Ends.pure (by simpa using harray)
  | some t =>
    rw [htokens] at hfill harray
    dsimp only
    rw [add_left_comm] at harray
    rw [hu.count]
    refine Ends.bind (freeNames_ends (by simpa using hfill) harray) fun _ m₃ hrest => ?_
    exact free_ends hrest

theorem dupRootfs_ends {kept : Multiset Nat} (r : Option CStr) (hheld : Held m kept) :
    Ends (dupRootfs r) m fun root m' =>
      root.map Str.bytes = r ∧ Held m' (owned root + kept) := by
  cases r with
  | none => exact Ends.pure ⟨rfl, by simpa using hheld⟩
  | some r =>
    rw [dupRootfs, map_eq_pure_bind]
    refine Ends.bind (memStrdup_ends r hheld) ?_
    rintro str m' ⟨rfl, hheld'⟩
    exact Ends.pure ⟨rfl, hheld'⟩

end User

/-- `user_new` makes the user of the grammar, which holds every block that is not
freed; it fails only outside the grammar or for want of memory, and has then freed
each block once. -/
theorem userNew_grammar (ok : Nat → Bool) (s g r : Option CStr) :
    Ends (userNewMem ok s g r) Memory.start fun res m => match res with
      | some u => ∃ ts, u.Built ts ∧ Parses s g r (u.seen ts) ∧ Held m (u.blocks ts)
      | none => m.freed.Perm (List.range m.next) ∧
          ((∀ k, ok k = true) → ∀ u, ¬Parses s g r u) := by
  have hstart : Held Memory.start 0 := rfl
  unfold userNewMem
  refine Ends.bind (malloc_ends hstart) ?_
  rintro (_ | id) m₁ h₁
  · exact Ends.pure ⟨h₁.1.all_freed, fun hall => absurd hall h₁.2⟩
  · refine Ends.bind (dupRootfs_ends r h₁) ?_
    rintro rootfs m₂ ⟨hrootfs, h₂⟩
    have hbuilt : (UserMem.zero id rootfs).Built [] := ⟨List.nil_prefix, rfl⟩
    have hblocks : Held m₂ ((UserMem.zero id rootfs).blocks []) := by
      unfold UserMem.blocks
      simpa [UserMem.array, UserMem.zero] using h₂
    have hparser : parseUserBody ((UserMem.zero id rootfs).seen []) s g = userNew s g r := by
      rw [← hrootfs]
      rfl
    refine Ends.bind (parseUserBodyMem_outcome ok hbuilt hblocks rfl s g) ?_
    rw [hparser]
    rintro ⟨ret, u⟩ m₃ ⟨hid, ts, hu, h₃, ⟨rfl, hsome⟩ | ⟨rfl, hnone⟩⟩
    · rw [if_neg (fun h => h rfl)]
      exact Ends.pure ⟨ts, hu, (userNew_iff s g r _).mp hsome, h₃⟩
    · rw [if_pos (by simp)]
      refine Ends.bind (userFree_ends hu h₃) fun _ m₄ h₄ => ?_
      rw [show u.id = id from hid] at h₄
      have hlast : Held m₄ (((some id).toList : Multiset Nat) + 0) := by
        rw [add_zero]
        exact h₄
      refine Ends.bind (free_ends hlast) fun _ m₅ h₅ => ?_
      refine Ends.pure ⟨h₅.all_freed, fun hall u hu => ?_⟩
      have hsome := (userNew_iff s g r u).mpr hu
      rw [hnone hall] at hsome
      cases hsome

end Cage.User
