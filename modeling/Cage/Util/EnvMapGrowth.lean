import Cage.Util.EnvMapCorrect

/-!
The environment map when its growth may fail. `maybe_grow` drops what
`map_resize` returns, so a put goes on in the old table, whose last free slot it
may take. From then on the walk of a key that is not there has no end. Each
call comes with a flag that says whether a table it asks for is allocated.
-/

namespace Cage.Util

open Cage.Lib Cage.Lib.LinearProbe

def growCall (m : Option EnvMap) (c : Bool × MapCall) : Reply × Option EnvMap := mapCall c.1 m c.2

def refGrow (f : CStr → Option CStr) (c : Bool × MapCall) : Reply × (CStr → Option CStr) :=
  refCall f c.2

/-- The table has the key. -/
def EnvMap.Has (m : EnvMap) (k : CStr) : Prop := ∃ e ∈ entries m.slots, e.key = k

/-- The walks of a call end: each one is for a key that the table has, or meets
a free slot, which growth provides only where it can allocate. -/
def WalkEnds (alloc : Bool) (m : EnvMap) : MapCall → Prop
  | .put k _ => m.Has k ∨ m.len < m.cap ∨ alloc = true
  | .ensure _ none => True
  | .ensure _ (some []) => True
  | .ensure k (some _) => m.Has k ∨ m.len < m.cap
  | .get k => m.Has k ∨ m.len < m.cap

/-- What a call leaves when its growth may have failed: the table may be full. -/
structure EnvMap.Keeps (m : EnvMap) (f : CStr → Option CStr) : Prop where
  wf : m.Wf
  fits : m.len ≤ m.cap
  table : 0 < m.cap
  lists : Lists (entries m.slots) f

theorem EnvMap.Holds.keeps {m : EnvMap} {f : CStr → Option CStr} (h : m.Holds f) : m.Keeps f :=
  ⟨h.wf, Nat.le_of_lt h.free, Nat.zero_lt_of_lt h.free, h.lists⟩

theorem EnvMap.Keeps.slots_ne {m : EnvMap} {f : CStr → Option CStr} (h : m.Keeps f) :
    m.slots.isEmpty = false := by
  have hpos := h.table
  unfold EnvMap.cap at hpos
  cases hs : m.slots with
  | nil =>
    rw [hs] at hpos
    cases hpos
  | cons v s => rfl

theorem EnvMap.Keeps.has_iff {m : EnvMap} {f : CStr → Option CStr} (h : m.Keeps f) (k : CStr) :
    m.Has k ↔ (f k).isSome = true := by
  constructor
  · rintro ⟨e, he, rfl⟩
    rw [h.lists.get_some he]
    rfl
  · intro hsome
    obtain ⟨v, hv⟩ := Option.isSome_iff_exists.mp hsome
    obtain ⟨e, he, hkey, -⟩ := (h.lists k v).mp hv
    exact ⟨e, he, hkey⟩

/-- In a full table the walk of a key that is not there goes round for ever. -/
theorem mapLookup_full {m : EnvMap} (h : m.Wf) (hfull : m.cap ≤ m.len) {k : CStr} (hk : ¬m.Has k) :
    mapLookup m (fnv1a k) k = none := by
  cases hlookup : mapLookup m (fnv1a k) k with
  | none => rfl
  | some r =>
    exfalso
    obtain ⟨i, found⟩ := r
    obtain ⟨d, hd, hi, -, hend⟩ := probe_some hlookup
    cases found with
    | true =>
      obtain ⟨e, he, hp⟩ := hend
      simp only [Bool.and_eq_true, decide_eq_true_eq] at hp
      exact hk ⟨e, mem_entries.mpr ⟨i, he⟩, hp.2⟩
    | false =>
      have hlt : i < m.slots.length := by
        rw [hi]
        exact Nat.mod_lt _ (Nat.zero_lt_of_lt hd)
      have hroom := entries_lt_of_free hlt hend
      rw [← h.counted] at hroom
      exact absurd hroom (Nat.not_lt.mpr hfull)

/-- The bound of `cap` steps in `mapLookup` loses nothing. -/
theorem mapLookup_forever {m : EnvMap} (hpos : 0 < m.cap) {h : UInt32} {k : CStr}
    (hlookup : mapLookup m h k = none) (n : Nat) :
    probe m.slots (fun e => e.hash = h && e.key = k) n (h.toNat % m.cap) = none :=
  probe_stuck hpos hlookup n

theorem maybeGrow_keeps {m : EnvMap} {f : CStr → Option CStr} (h : m.Keeps f) (alloc : Bool) :
    ∃ m', maybeGrow alloc m = some m' ∧ m'.Keeps f ∧
      (m'.len < m'.cap ↔ m.len < m.cap ∨ alloc = true) := by
  have hfits := h.fits
  have hpos := h.table
  unfold maybeGrow
  by_cases hload : m.len ≥ m.cap * 7 / 10
  · rw [if_pos hload]
    cases alloc with
    | true =>
      obtain ⟨m', hresize, hholds, hlen, hcap⟩ :=
        mapResize_holds h.wf h.lists (show m.len < m.cap + max m.cap 64 by omega)
      exact ⟨m', hresize, hholds.keeps, iff_of_true hholds.free (Or.inr rfl)⟩
    | false => exact ⟨m, rfl, h, by simp⟩
  · rw [if_neg hload]
    have hroom : m.len < m.cap := by omega
    exact ⟨m, rfl, h, iff_of_true hroom (Or.inl hroom)⟩

theorem envMapGet_keeps {m : EnvMap} {f : CStr → Option CStr} (h : m.Keeps f) {k : CStr}
    (hends : m.Has k ∨ m.len < m.cap) : envMapGet m k = some (f k) := by
  unfold envMapGet
  rw [h.slots_ne, if_neg (by simp)]
  by_cases hk : m.Has k
  · obtain ⟨e, hmem, rfl⟩ := hk
    obtain ⟨i, hi⟩ := mem_entries.mp hmem
    rw [mapLookup_found h.wf hi, h.lists.get_some hmem, Option.map_some, if_pos rfl, hi]
    rfl
  · have habsent : ∀ e ∈ entries m.slots, e.key ≠ k := fun e he hkey => hk ⟨e, he, hkey⟩
    obtain ⟨i, hlookup, -⟩ := mapLookup_absent h.wf (hends.resolve_left hk) habsent
    rw [hlookup, h.lists.get_none habsent]
    rfl

theorem envMapGet_full {m : EnvMap} {f : CStr → Option CStr} (h : m.Keeps f) {k : CStr}
    (hfull : ¬(m.Has k ∨ m.len < m.cap)) : envMapGet m k = none := by
  have hk : ¬m.Has k := fun hhas => hfull (Or.inl hhas)
  have hcap : m.cap ≤ m.len := Nat.not_lt.mp fun hroom => hfull (Or.inr hroom)
  unfold envMapGet
  rw [h.slots_ne, if_neg (by simp), mapLookup_full h.wf hcap hk]
  rfl

theorem envMapPut_keeps {m : EnvMap} {f : CStr → Option CStr} (h : m.Keeps f) {alloc : Bool}
    {k : CStr} (hends : m.Has k ∨ m.len < m.cap ∨ alloc = true) (v : CStr) :
    ∃ m', envMapPut alloc m k v = some m' ∧ m'.Keeps (Function.update f k (some v)) := by
  obtain ⟨m₁, hgrow, h₁, hroom⟩ := maybeGrow_keeps h alloc
  have hpos := h₁.table
  have hfits := h₁.fits
  unfold envMapPut
  rw [h.slots_ne, if_neg (by simp), hgrow]
  dsimp only
  by_cases hk : m₁.Has k
  · obtain ⟨e, hmem, rfl⟩ := hk
    obtain ⟨i, hi⟩ := mem_entries.mp hmem
    have hstored := mapStore_found h₁.wf h₁.lists hi v
    rw [mapLookup_found h₁.wf hi]
    exact ⟨_, rfl, hstored.wf, by rw [hstored.len, hstored.cap]; exact hfits,
      by rw [hstored.cap]; exact hpos, hstored.lists⟩
  · have hold : ¬m.Has k := by rwa [h.has_iff, ← h₁.has_iff]
    have hfree : m₁.len < m₁.cap := hroom.mpr (hends.resolve_left hold)
    have habsent : ∀ e ∈ entries m₁.slots, e.key ≠ k := fun e he hkey => hk ⟨e, he, hkey⟩
    obtain ⟨i, hlookup, hi⟩ := mapLookup_absent h₁.wf hfree habsent
    have hstored := mapStore_absent h₁.wf h₁.lists habsent hi v
    rw [hlookup]
    exact ⟨_, rfl, hstored.wf, by rw [hstored.len, hstored.cap]; exact hfree,
      by rw [hstored.cap]; exact hpos, hstored.lists⟩

theorem envMapPut_full {m : EnvMap} {f : CStr → Option CStr} (h : m.Keeps f) {alloc : Bool}
    {k : CStr} (hfull : ¬(m.Has k ∨ m.len < m.cap ∨ alloc = true)) (v : CStr) :
    envMapPut alloc m k v = none := by
  obtain ⟨m₁, hgrow, h₁, hroom⟩ := maybeGrow_keeps h alloc
  have hk : ¬m₁.Has k := by
    rw [h₁.has_iff, ← h.has_iff]
    exact fun hhas => hfull (Or.inl hhas)
  have hcap : m₁.cap ≤ m₁.len := Nat.not_lt.mp fun hlt => hfull (Or.inr (hroom.mp hlt))
  unfold envMapPut
  rw [h.slots_ne, if_neg (by simp), hgrow]
  dsimp only
  rw [mapLookup_full h₁.wf hcap hk]
  rfl

/-- A call whose walks end answers as the finite map does, and any other call
never returns. -/
theorem growCall_keeps {m : EnvMap} {f : CStr → Option CStr} (h : m.Keeps f) (alloc : Bool)
    (k : MapCall) :
    (WalkEnds alloc m k ∧ (growCall (some m) (alloc, k)).1 = (refCall f k).1 ∧
        ∃ m', (growCall (some m) (alloc, k)).2 = some m' ∧ m'.Keeps (refCall f k).2) ∨
      ¬WalkEnds alloc m k ∧ growCall (some m) (alloc, k) = (.stuck, none) := by
  cases k with
  | put k v =>
    by_cases hends : m.Has k ∨ m.len < m.cap ∨ alloc = true
    · obtain ⟨m', hput, h'⟩ := envMapPut_keeps h hends v
      refine Or.inl ⟨hends, ?_⟩
      simp only [growCall, mapCall, hput]
      exact ⟨rfl, m', rfl, h'⟩
    · refine Or.inr ⟨hends, ?_⟩
      simp only [growCall, mapCall, envMapPut_full h hends v]
  | get k =>
    by_cases hends : m.Has k ∨ m.len < m.cap
    · refine Or.inl ⟨hends, ?_⟩
      simp only [growCall, mapCall, envMapGet_keeps h hends]
      exact ⟨rfl, m, rfl, h⟩
    · refine Or.inr ⟨hends, ?_⟩
      simp only [growCall, mapCall, envMapGet_full h hends]
  | ensure k v =>
    match v with
    | none => exact Or.inl ⟨trivial, rfl, m, rfl, h⟩
    | some [] => exact Or.inl ⟨trivial, rfl, m, rfl, h⟩
    | some (c :: v) =>
      by_cases hends : m.Has k ∨ m.len < m.cap
      · refine Or.inl ⟨hends, ?_⟩
        simp only [growCall, mapCall, envMapEnsure, refCall, envMapGet_keeps h hends]
        cases hf : f k with
        | some w => exact ⟨rfl, m, rfl, h⟩
        | none =>
          obtain ⟨m', hput, h'⟩ :=
            envMapPut_keeps h (hends.imp_right Or.inl : _ ∨ _ ∨ alloc = true) (c :: v)
          simp only [hput]
          exact ⟨trivial, m', rfl, h'⟩
      · refine Or.inr ⟨hends, ?_⟩
        simp only [growCall, mapCall, envMapEnsure, envMapGet_full h hends]

theorem refCall_ne_stuck (f : CStr → Option CStr) (k : MapCall) : (refCall f k).1 ≠ .stuck := by
  unfold refCall
  split <;> exact nofun

/-- The bindings that the finite map has are found, each with its value. -/
def Bound (m : Option EnvMap) (f : CStr → Option CStr) : Prop :=
  ∃ m', m = some m' ∧ ∀ k v, f k = some v → envMapGet m' k = some (some v)

theorem EnvMap.Keeps.bound {m : EnvMap} {f : CStr → Option CStr} (h : m.Keeps f) :
    Bound (some m) f := by
  refine ⟨m, rfl, fun k v hkv => ?_⟩
  have hhas : m.Has k := by
    rw [h.has_iff, hkv]
    rfl
  rw [envMapGet_keeps h (Or.inl hhas), hkv]

/-- Every walk of a list of calls ends, judged by the map each call finds. -/
def WalksEnd (m : Option EnvMap) (cs : List (Bool × MapCall)) : Prop :=
  ∀ before c, before ++ [c] <+: cs → ∀ m', Calls.after growCall m before = some m' →
    WalkEnds c.1 m' c.2

theorem walksEnd_cons {m : EnvMap} {c : Bool × MapCall} {cs : List (Bool × MapCall)} :
    WalksEnd (some m) (c :: cs) ↔
      WalkEnds c.1 m c.2 ∧ WalksEnd (growCall (some m) c).2 cs := by
  constructor
  · intro h
    refine ⟨h [] c (by simp) m rfl, fun before d hpre m' hafter => ?_⟩
    exact h (c :: before) d (by simpa using hpre) m' hafter
  · rintro ⟨hhead, htail⟩ before d hpre m' hafter
    cases before with
    | nil =>
      obtain rfl : d = c := by simpa using hpre
      cases hafter
      exact hhead
    | cons b before =>
      obtain ⟨rfl, hpre'⟩ : b = c ∧ before ++ [d] <+: cs := by simpa using hpre
      exact htail before d hpre' m' hafter

/-- The calls return what a finite map returns, and between any two of them all
bindings made so far are there. -/
def Survives (m : Option EnvMap) (f : CStr → Option CStr) (cs : List (Bool × MapCall)) : Prop :=
  Calls.answers growCall m cs = Calls.answers refGrow f cs ∧
    ∀ before, before <+: cs → Bound (Calls.after growCall m before) (Calls.after refGrow f before)

theorem survives_cons {m : Option EnvMap} {f : CStr → Option CStr} {c : Bool × MapCall}
    {cs : List (Bool × MapCall)} :
    Survives m f (c :: cs) ↔ (growCall m c).1 = (refGrow f c).1 ∧ Bound m f ∧
      Survives (growCall m c).2 (refGrow f c).2 cs := by
  constructor
  · rintro ⟨hanswers, hbound⟩
    obtain ⟨hhead, htail⟩ := List.cons.inj hanswers
    refine ⟨hhead, hbound [] (List.nil_prefix), htail, fun before hpre => ?_⟩
    exact hbound (c :: before) (List.cons_prefix_cons.mpr ⟨rfl, hpre⟩)
  · rintro ⟨hhead, hbound, htail, hlater⟩
    refine ⟨congrArg₂ List.cons hhead htail, fun before hpre => ?_⟩
    cases before with
    | nil => exact hbound
    | cons b before =>
      obtain ⟨rfl, hpre'⟩ := List.cons_prefix_cons.mp hpre
      exact hlater before hpre'

theorem survives_iff {m : EnvMap} {f : CStr → Option CStr} (h : m.Keeps f)
    (cs : List (Bool × MapCall)) : Survives (some m) f cs ↔ WalksEnd (some m) cs := by
  induction cs generalizing m f with
  | nil =>
    refine iff_of_true ⟨rfl, fun before hpre => ?_⟩ fun before c hpre => ?_
    · obtain rfl := List.prefix_nil.mp hpre
      exact h.bound
    · simp at hpre
  | cons c cs ih =>
    rw [survives_cons, walksEnd_cons]
    rcases growCall_keeps h c.1 c.2 with ⟨hends, hreply, m', hafter, h'⟩ | ⟨hno, hstuck⟩
    · have htail : Survives (growCall (some m) c).2 (refGrow f c).2 cs ↔
          WalksEnd (growCall (some m) c).2 cs := by
        rw [hafter]
        exact ih h'
      rw [htail]
      exact ⟨fun hs => ⟨hends, hs.2.2⟩, fun hw => ⟨hreply, h.bound, hw.2⟩⟩
    · refine iff_of_false (fun hs => ?_) fun hw => hno hw.1
      have hreply := hs.1
      rw [show growCall (some m) c = (.stuck, none) from hstuck] at hreply
      exact refCall_ne_stuck f c.2 hreply.symm

/-- From a map that was initialised, all calls return and all bindings stay
exactly where each walk is for a key that is there, or meets a free slot, or
gets one by growth. -/
theorem envMap_growth_iff (cs : List (Bool × MapCall)) :
    Survives (envMapInit true) (fun _ => none) cs ↔ WalksEnd (envMapInit true) cs := by
  obtain ⟨m, hinit, hholds⟩ := envMapInit_holds
  rw [hinit]
  exact survives_iff hholds.keeps cs

/-- Sixteen puts while no table can be allocated fill the first one. -/
theorem envMap_growth_stuck :
    ¬Survives (envMapInit true) (fun _ => none)
      ((List.range 16).map (fun i => (false, MapCall.put [97 + i.toUInt8] (lit "1"))) ++
        [(true, .get (lit "q"))]) := by
  intro h
  have hlast := congrArg List.getLast? h.1
  have hstuck : (Calls.answers growCall (envMapInit true)
      ((List.range 16).map (fun i => (false, MapCall.put [97 + i.toUInt8] (lit "1"))) ++
        [(true, .get (lit "q"))])).getLast? = some .stuck := by
    decide +kernel
  have hvalue : (Calls.answers refGrow (fun _ => none)
      ((List.range 16).map (fun i => (false, MapCall.put [97 + i.toUInt8] (lit "1"))) ++
        [(true, .get (lit "q"))])).getLast? = some (.value none) := by
    decide +kernel
  rw [hstuck, hvalue] at hlast
  cases hlast

end Cage.Util
