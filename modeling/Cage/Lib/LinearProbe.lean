import Mathlib.Data.List.GetD
import Mathlib.Data.List.Nodup
import Mathlib.Data.List.Perm.Basic
import Mathlib.Tactic.Common

/-!
Open addressing with linear probing, without removal. A table is its list of
slots. An entry lies on the walk that starts at its hash, and no slot of the
walk before it is free; that is what makes the walk find it.
-/

namespace Cage.Lib.LinearProbe

variable {E K : Type}

/-- The entry of a slot. -/
def entryAt (s : List (Option E)) (i : Nat) : Option E := s.getD i none

/-- The entries of a table, slot by slot. -/
def entries (s : List (Option E)) : List E := s.filterMap id

/-- Walk on from slot `i`, over `n` slots at most, to one that is free or whose
entry passes `p`; the flag says which. -/
def probe (s : List (Option E)) (p : E → Bool) : Nat → Nat → Option (Nat × Bool)
  | 0, _ => none
  | n + 1, i =>
      match entryAt s i with
      | none => some (i, false)
      | some e => if p e then some (i, true) else probe s p n ((i + 1) % s.length)

/-- The first `d` slots from `h` hold entries that do not pass. -/
def Passed (s : List (Option E)) (p : E → Bool) (h d : Nat) : Prop :=
  ∀ d' < d, ∃ e, entryAt s ((h + d') % s.length) = some e ∧ p e = false

/-- Each entry can be walked to from its hash, and keys are not repeated. -/
structure Placed (hash : E → Nat) (key : E → K) (s : List (Option E)) : Prop where
  reach : ∀ i e, entryAt s i = some e → ∃ d < s.length, i = (hash e + d) % s.length ∧
    ∀ d' < d, (entryAt s ((hash e + d') % s.length)).isSome = true
  unique : ∀ i j e e', entryAt s i = some e → entryAt s j = some e' → key e = key e' → i = j

theorem entryAt_lt {s : List (Option E)} {i : Nat} {e : E} (h : entryAt s i = some e) :
    i < s.length := by
  by_contra hge
  unfold entryAt at h
  rw [List.getD_eq_default _ _ (by omega)] at h
  cases h

theorem entryAt_set_self {s : List (Option E)} {i : Nat} (hi : i < s.length) (v : Option E) :
    entryAt (s.set i v) i = v := by
  unfold entryAt
  rw [List.getD_eq_getElem _ _ (by simpa using hi), List.getElem_set_self]

theorem entryAt_set_of_ne {s : List (Option E)} {i j : Nat} (h : i ≠ j) (v : Option E) :
    entryAt (s.set i v) j = entryAt s j := by
  unfold entryAt
  rw [List.getD_eq_getElem?_getD, List.getD_eq_getElem?_getD, List.getElem?_set_ne h]

theorem mem_entries {s : List (Option E)} {e : E} :
    e ∈ entries s ↔ ∃ i, entryAt s i = some e := by
  unfold entries entryAt
  rw [List.mem_filterMap]
  constructor
  · rintro ⟨v, hv, rfl⟩
    obtain ⟨i, hi, hget⟩ := List.mem_iff_getElem.mp hv
    exact ⟨i, (List.getD_eq_getElem _ _ hi).trans hget⟩
  · rintro ⟨i, hi⟩
    have hlt : i < s.length := entryAt_lt hi
    rw [List.getD_eq_getElem _ _ hlt] at hi
    exact ⟨s[i], List.getElem_mem hlt, hi⟩

theorem entries_replicate (n : Nat) : entries (List.replicate n (none : Option E)) = [] := by
  induction n with
  | zero => rfl
  | succ n ih => exact ih

theorem entryAt_replicate (n i : Nat) : entryAt (List.replicate n (none : Option E)) i = none := by
  unfold entryAt
  rw [List.getD_eq_getElem?_getD, List.getElem?_replicate]
  split <;> rfl

theorem placed_replicate (hash : E → Nat) (key : E → K) (n : Nat) :
    Placed hash key (List.replicate n (none : Option E)) where
  reach i e h := by
    rw [entryAt_replicate] at h
    cases h
  unique i j e e' h := by
    rw [entryAt_replicate] at h
    cases h

/-- Every slot is on the walk from any start. -/
theorem exists_walk {n i : Nat} (h : Nat) (hi : i < n) : ∃ d < n, (h + d) % n = i := by
  have hr : h % n < n := Nat.mod_lt _ (by omega)
  have hadd (d : Nat) : (h + d) % n = (h % n + d) % n := by rw [Nat.mod_add_mod]
  by_cases hle : h % n ≤ i
  · refine ⟨i - h % n, by omega, ?_⟩
    rw [hadd, Nat.add_sub_cancel' hle, Nat.mod_eq_of_lt hi]
  · refine ⟨i + n - h % n, by omega, ?_⟩
    rw [hadd, show h % n + (i + n - h % n) = i + n by omega, Nat.add_mod_right,
      Nat.mod_eq_of_lt hi]

theorem exists_free {s : List (Option E)} (h : (entries s).length < s.length) :
    ∃ i < s.length, entryAt s i = none := by
  induction s with
  | nil => cases h
  | cons v s ih =>
    cases v with
    | none => exact ⟨0, Nat.succ_pos _, rfl⟩
    | some e =>
      have hlt : (entries s).length < s.length := by
        have hlen : (entries (some e :: s)).length = (entries s).length + 1 := rfl
        rw [hlen, List.length_cons] at h
        omega
      obtain ⟨i, hi, hfree⟩ := ih hlt
      exact ⟨i + 1, Nat.succ_lt_succ hi, hfree⟩

theorem Passed.succ {s : List (Option E)} {p : E → Bool} {h d : Nat} {e : E}
    (hd : Passed s p (h + 1) d) (he : entryAt s (h % s.length) = some e) (hp : p e = false) :
    Passed s p h (d + 1) := by
  intro d' hd'
  cases d' with
  | zero => exact ⟨e, he, hp⟩
  | succ d' =>
    obtain ⟨e', he', hp'⟩ := hd d' (by omega)
    exact ⟨e', by rw [show h + (d' + 1) = h + 1 + d' by omega]; exact he', hp'⟩

/-- What a walk that ends has met. -/
theorem probe_some {s : List (Option E)} {p : E → Bool} {n h i : Nat} {found : Bool}
    (hprobe : probe s p n (h % s.length) = some (i, found)) :
    ∃ d < n, i = (h + d) % s.length ∧ Passed s p h d ∧
      if found then ∃ e, entryAt s i = some e ∧ p e = true else entryAt s i = none := by
  induction n generalizing h with
  | zero => cases hprobe
  | succ n ih =>
    unfold probe at hprobe
    cases he : entryAt s (h % s.length) with
    | none =>
      rw [he] at hprobe
      cases hprobe
      exact ⟨0, Nat.succ_pos n, rfl, fun d' hd' => absurd hd' (Nat.not_lt_zero d'), he⟩
    | some e =>
      rw [he] at hprobe
      dsimp only at hprobe
      cases hp : p e with
      | true =>
        rw [hp, if_pos rfl] at hprobe
        cases hprobe
        exact ⟨0, Nat.succ_pos n, rfl, fun d' hd' => absurd hd' (Nat.not_lt_zero d'), e, he, hp⟩
      | false =>
        rw [hp, if_neg (by simp), Nat.mod_add_mod] at hprobe
        obtain ⟨d, hd, hi, hpassed, hend⟩ := ih hprobe
        exact ⟨d + 1, by omega, by rw [hi, Nat.add_right_comm, Nat.add_assoc],
          hpassed.succ he hp, hend⟩

theorem probe_none {s : List (Option E)} {p : E → Bool} {n h : Nat}
    (hprobe : probe s p n (h % s.length) = none) : Passed s p h n := by
  induction n generalizing h with
  | zero => exact fun d' hd' => absurd hd' (Nat.not_lt_zero d')
  | succ n ih =>
    unfold probe at hprobe
    cases he : entryAt s (h % s.length) with
    | none =>
      rw [he] at hprobe
      cases hprobe
    | some e =>
      rw [he] at hprobe
      dsimp only at hprobe
      cases hp : p e with
      | true =>
        rw [hp, if_pos rfl] at hprobe
        cases hprobe
      | false =>
        rw [hp, if_neg (by simp), Nat.mod_add_mod] at hprobe
        exact (ih hprobe).succ he hp

/-- A walk over all slots that meets no end never meets one. -/
theorem probe_stuck {s : List (Option E)} {p : E → Bool} {h : Nat} (hpos : 0 < s.length)
    (hprobe : probe s p s.length (h % s.length) = none) (n : Nat) :
    probe s p n (h % s.length) = none := by
  cases hn : probe s p n (h % s.length) with
  | none => rfl
  | some r =>
    obtain ⟨i, found⟩ := r
    obtain ⟨d, -, hi, -, hend⟩ := probe_some hn
    obtain ⟨d', hd', hwalk⟩ := exists_walk h (show i < s.length by rw [hi]; exact Nat.mod_lt _ hpos)
    obtain ⟨e, he, hp⟩ := probe_none hprobe d' hd'
    rw [hwalk] at he
    cases found with
    | false =>
      rw [if_neg (by simp), he] at hend
      cases hend
    | true =>
      obtain ⟨e', he', hp'⟩ := hend
      rw [he] at he'
      cases he'
      rw [hp] at hp'
      cases hp'

/-- With a free slot in the table a walk ends. -/
theorem probe_isSome {s : List (Option E)} {p : E → Bool} (h : Nat)
    (hfree : (entries s).length < s.length) :
    (probe s p s.length (h % s.length)).isSome = true := by
  cases hprobe : probe s p s.length (h % s.length) with
  | some r => rfl
  | none =>
    obtain ⟨i, hi, hnone⟩ := exists_free hfree
    obtain ⟨d, hd, hwalk⟩ := exists_walk h hi
    obtain ⟨e, he, -⟩ := probe_none hprobe d hd
    rw [hwalk, hnone] at he
    cases he

section Table

variable {hash : E → Nat} {key : E → K} {s : List (Option E)}

/-- The walk from an entry's hash finds it, when `p` accepts its key only. -/
theorem Placed.probe_found (hs : Placed hash key s) {p : E → Bool} {i : Nat} {e : E}
    (he : entryAt s i = some e) (hp : p e = true)
    (honly : ∀ e', p e' = true → key e' = key e) :
    probe s p s.length (hash e % s.length) = some (i, true) := by
  obtain ⟨d, hd, hi, hused⟩ := hs.reach i e he
  cases hprobe : probe s p s.length (hash e % s.length) with
  | none =>
    obtain ⟨e', he', hp'⟩ := probe_none hprobe d hd
    rw [← hi, he] at he'
    cases he'
    rw [hp] at hp'
    cases hp'
  | some r =>
    obtain ⟨j, found⟩ := r
    obtain ⟨d', -, hj, hpassed, hend⟩ := probe_some hprobe
    cases found with
    | true =>
      obtain ⟨e', he', hp'⟩ := hend
      rw [hs.unique j i e' e he' he (honly e' hp')]
    | false =>
      rw [if_neg (by simp)] at hend
      -- the walk can neither stop before the entry nor go past it
      rcases Nat.lt_trichotomy d' d with hlt | rfl | hgt
      · have husedj := hused d' hlt
        rw [← hj, hend] at husedj
        cases husedj
      · rw [hj, ← hi, he] at hend
        cases hend
      · obtain ⟨e', he', hp'⟩ := hpassed d hgt
        rw [← hi, he] at he'
        cases he'
        rw [hp] at hp'
        cases hp'

/-- The end of the walk for an entry that is not there. -/
structure FreeFor (s : List (Option E)) (h i : Nat) : Prop where
  lt : i < s.length
  free : entryAt s i = none
  walk : ∃ d < s.length, i = (h + d) % s.length ∧
    ∀ d' < d, (entryAt s ((h + d') % s.length)).isSome = true

theorem probe_absent {p : E → Bool} (h : Nat) (hfree : (entries s).length < s.length)
    (hno : ∀ e ∈ entries s, p e = false) :
    ∃ i, probe s p s.length (h % s.length) = some (i, false) ∧ FreeFor s h i := by
  have hsome := probe_isSome (p := p) h hfree
  obtain ⟨⟨i, found⟩, hprobe⟩ := Option.isSome_iff_exists.mp hsome
  obtain ⟨d, hd, hi, hpassed, hend⟩ := probe_some hprobe
  cases found with
  | true =>
    obtain ⟨e, he, hp⟩ := hend
    rw [hno e (mem_entries.mpr ⟨i, he⟩)] at hp
    cases hp
  | false =>
    refine ⟨i, hprobe, ?_, hend, d, hd, hi, fun d' hd' => ?_⟩
    · rw [hi]
      exact Nat.mod_lt _ (by omega)
    · obtain ⟨e, he, -⟩ := hpassed d' hd'
      rw [he]
      rfl

/-- A new entry goes to the end of its own walk. -/
theorem Placed.insert (hs : Placed hash key s) {i : Nat} {e : E} (hi : FreeFor s (hash e) i)
    (hnew : ∀ e' ∈ entries s, key e' ≠ key e) : Placed hash key (s.set i (some e)) where
  reach j e' he' := by
    have hkeep (x : Nat) (hx : (entryAt s x).isSome = true) :
        (entryAt (s.set i (some e)) x).isSome = true := by
      by_cases hix : i = x
      · subst hix
        rw [entryAt_set_self hi.lt]
        rfl
      · rwa [entryAt_set_of_ne hix]
    rw [List.length_set]
    by_cases hij : i = j
    · subst hij
      rw [entryAt_set_self hi.lt] at he'
      cases he'
      obtain ⟨d, hd, hwalk, hused⟩ := hi.walk
      exact ⟨d, hd, hwalk, fun d' hd' => hkeep _ (hused d' hd')⟩
    · rw [entryAt_set_of_ne hij] at he'
      obtain ⟨d, hd, hwalk, hused⟩ := hs.reach j e' he'
      exact ⟨d, hd, hwalk, fun d' hd' => hkeep _ (hused d' hd')⟩
  unique j k e₁ e₂ h₁ h₂ hkey := by
    by_cases hij : i = j
    · subst hij
      rw [entryAt_set_self hi.lt] at h₁
      cases h₁
      by_cases hik : i = k
      · exact hik
      · rw [entryAt_set_of_ne hik] at h₂
        exact absurd hkey.symm (hnew e₂ (mem_entries.mpr ⟨k, h₂⟩))
    · rw [entryAt_set_of_ne hij] at h₁
      by_cases hik : i = k
      · subst hik
        rw [entryAt_set_self hi.lt] at h₂
        cases h₂
        exact absurd hkey (hnew e₁ (mem_entries.mpr ⟨j, h₁⟩))
      · rw [entryAt_set_of_ne hik] at h₂
        exact hs.unique j k e₁ e₂ h₁ h₂ hkey

/-- An entry may change in all but its hash and key. -/
theorem Placed.replace (hs : Placed hash key s) {i : Nat} {e e' : E} (he : entryAt s i = some e)
    (hhash : hash e' = hash e) (hkey : key e' = key e) :
    Placed hash key (s.set i (some e')) := by
  have hlt := entryAt_lt he
  have hold (j : Nat) (x : E) (hx : entryAt (s.set i (some e')) j = some x) :
      ∃ y, entryAt s j = some y ∧ hash x = hash y ∧ key x = key y := by
    by_cases hij : i = j
    · subst hij
      rw [entryAt_set_self hlt] at hx
      cases hx
      exact ⟨e, he, hhash, hkey⟩
    · rw [entryAt_set_of_ne hij] at hx
      exact ⟨x, hx, rfl, rfl⟩
  constructor
  · intro j x hx
    obtain ⟨y, hy, hxy, -⟩ := hold j x hx
    obtain ⟨d, hd, hwalk, hused⟩ := hs.reach j y hy
    rw [List.length_set, hxy]
    refine ⟨d, hd, hwalk, fun d' hd' => ?_⟩
    by_cases hij : i = (hash y + d') % s.length
    · rw [← hij, entryAt_set_self hlt]
      rfl
    · rw [entryAt_set_of_ne hij]
      exact hused d' hd'
  · intro j k x₁ x₂ h₁ h₂ hxkey
    obtain ⟨y₁, hy₁, -, hk₁⟩ := hold j x₁ h₁
    obtain ⟨y₂, hy₂, -, hk₂⟩ := hold k x₂ h₂
    exact hs.unique j k y₁ y₂ hy₁ hy₂ (by rw [← hk₁, hxkey, hk₂])

theorem entries_set_free {i : Nat} {e : E} (hi : i < s.length) (hfree : entryAt s i = none) :
    (entries (s.set i (some e))).Perm (e :: entries s) := by
  induction s generalizing i with
  | nil => cases hi
  | cons v s ih =>
    cases i with
    | zero =>
      obtain rfl : v = none := hfree
      exact List.Perm.refl _
    | succ i =>
      have hrest := ih (Nat.lt_of_succ_lt_succ hi) hfree
      cases v with
      | none => exact hrest
      | some x => exact (hrest.cons x).trans (List.Perm.swap e x (entries s))

/-- A table with a free slot has fewer entries than slots. -/
theorem entries_lt_of_free {i : Nat} (hi : i < s.length) (hfree : entryAt s i = none) :
    (entries s).length < s.length := by
  induction s generalizing i with
  | nil => cases hi
  | cons v s ih =>
    cases i with
    | zero =>
      obtain rfl : v = none := hfree
      exact Nat.lt_succ_of_le (List.length_filterMap_le id s)
    | succ i =>
      have hrest := ih (Nat.lt_of_succ_lt_succ hi) hfree
      cases v with
      | none => exact Nat.lt_succ_of_lt hrest
      | some x => exact Nat.succ_lt_succ hrest

theorem entries_set_used {i : Nat} {e : E} (he : entryAt s i = some e) (e' : E) :
    ∃ rest, (entries s).Perm (e :: rest) ∧ (entries (s.set i (some e'))).Perm (e' :: rest) := by
  induction s generalizing i with
  | nil => cases he
  | cons v s ih =>
    cases i with
    | zero =>
      obtain rfl : v = some e := he
      exact ⟨entries s, List.Perm.refl _, List.Perm.refl _⟩
    | succ i =>
      obtain ⟨rest, hold, hnew⟩ := ih he
      cases v with
      | none => exact ⟨rest, hold, hnew⟩
      | some x =>
        exact ⟨x :: rest, (hold.cons x).trans (List.Perm.swap e x rest),
          (hnew.cons x).trans (List.Perm.swap e' x rest)⟩

theorem Placed.nodup_keys (hs : Placed hash key s) : ((entries s).map key).Nodup := by
  have hgen (t : List (Option E)) (ht : ∀ i j e e', entryAt t i = some e → entryAt t j = some e' →
      key e = key e' → i = j) : ((entries t).map key).Nodup := by
    induction t with
    | nil => exact List.nodup_nil
    | cons v t ih =>
      have hrest := ih fun i j e e' he he' hkey =>
        Nat.succ.inj (ht (i + 1) (j + 1) e e' he he' hkey)
      cases v with
      | none => exact hrest
      | some x =>
        refine List.nodup_cons.mpr ⟨fun hmem => ?_, hrest⟩
        obtain ⟨e, he, hkey⟩ := List.mem_map.mp hmem
        obtain ⟨i, hi⟩ := mem_entries.mp he
        exact absurd (ht 0 (i + 1) x e rfl hi hkey.symm) (by omega)
  exact hgen s hs.unique

end Table

section Rehash

variable (hash : E → Nat)

/-- Put every entry of `src` at the end of its walk in `dst`. -/
def rehash : List (Option E) → List (Option E) → Option (List (Option E))
  | [], dst => some dst
  | none :: src, dst => rehash src dst
  | some e :: src, dst =>
      match probe dst (fun _ => false) dst.length (hash e % dst.length) with
      | none => none
      | some (i, _) => rehash src (dst.set i (some e))

variable {hash} {key : E → K}

/-- A table moves to a larger one as it is. -/
theorem rehash_spec {src dst : List (Option E)} (hdst : Placed hash key dst)
    (hkeys : ((entries dst ++ entries src).map key).Nodup)
    (hroom : (entries dst).length + (entries src).length < dst.length) :
    ∃ dst', rehash hash src dst = some dst' ∧ Placed hash key dst' ∧
      dst'.length = dst.length ∧ (entries dst').Perm (entries dst ++ entries src) := by
  induction src generalizing dst with
  | nil => exact ⟨dst, rfl, hdst, rfl, by rw [show entries ([] : List (Option E)) = [] from rfl,
      List.append_nil]⟩
  | cons v src ih =>
    cases v with
    | none => exact ih hdst hkeys hroom
    | some e =>
      have hcons : entries (some e :: src) = e :: entries src := rfl
      rw [hcons] at hkeys hroom ⊢
      rw [List.length_cons] at hroom
      obtain ⟨i, hprobe, hi⟩ :=
        probe_absent (s := dst) (p := fun _ => false) (hash e) (by omega) fun _ _ => rfl
      have hmiddle : (entries dst ++ e :: entries src).Perm
          (e :: (entries dst ++ entries src)) := List.perm_middle
      have hnodup : ((e :: (entries dst ++ entries src)).map key).Nodup :=
        (hmiddle.map key).nodup_iff.mp hkeys
      have hnew : ∀ e' ∈ entries dst, key e' ≠ key e := by
        intro e' he' hkey
        refine (List.nodup_cons.mp hnodup).1 ?_
        exact List.mem_map.mpr ⟨e', List.mem_append_left _ he', hkey⟩
      have hperm : (entries (dst.set i (some e))).Perm (e :: entries dst) :=
        entries_set_free hi.lt hi.free
      have hperm' : (entries (dst.set i (some e)) ++ entries src).Perm
          (entries dst ++ e :: entries src) :=
        (hperm.append_right (entries src)).trans hmiddle.symm
      obtain ⟨dst', hrehash, hplaced, hlen, hentries⟩ := ih (hdst.insert hi hnew)
        ((hperm'.map key).nodup_iff.mpr hkeys)
        (by rw [hperm.length_eq, List.length_set, List.length_cons]; omega)
      refine ⟨dst', ?_, hplaced, hlen.trans (List.length_set ..), hentries.trans hperm'⟩
      unfold rehash
      rw [hprobe]
      exact hrehash

end Rehash

end Cage.Lib.LinearProbe
