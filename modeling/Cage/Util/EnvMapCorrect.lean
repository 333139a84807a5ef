import Cage.Util.EnvMap

/-!
The environment map against a finite map. The table of a reachable map has a
free slot, so a walk ends; its entries are those of the finite map.
-/

namespace Cage.Util

open Cage.Lib Cage.Lib.LinearProbe

structure EnvMap.Wf (m : EnvMap) : Prop where
  placed : Placed entryHash Entry.key m.slots
  hashed : ∀ e ∈ entries m.slots, e.hash = fnv1a e.key
  counted : m.len = (entries m.slots).length

/-- The entries are those of the finite map. -/
def Lists (es : List Entry) (f : CStr → Option CStr) : Prop :=
  ∀ k v, f k = some v ↔ ∃ e ∈ es, e.key = k ∧ e.val = v

theorem Lists.perm {es es' : List Entry} {f : CStr → Option CStr} (h : Lists es f)
    (hp : es'.Perm es) : Lists es' f := by
  intro k v
  rw [h k v]
  constructor
  · rintro ⟨e, he, hkv⟩
    exact ⟨e, hp.mem_iff.mpr he, hkv⟩
  · rintro ⟨e, he, hkv⟩
    exact ⟨e, hp.mem_iff.mp he, hkv⟩

theorem Lists.get_some {es : List Entry} {f : CStr → Option CStr} (h : Lists es f) {e : Entry}
    (he : e ∈ es) : f e.key = some e.val :=
  (h e.key e.val).mpr ⟨e, he, rfl, rfl⟩

theorem Lists.get_none {es : List Entry} {f : CStr → Option CStr} (h : Lists es f) {k : CStr}
    (hk : ∀ e ∈ es, e.key ≠ k) : f k = none := by
  cases hf : f k with
  | none => rfl
  | some v =>
    obtain ⟨e, he, hkey, -⟩ := (h k v).mp hf
    exact absurd hkey (hk e he)

theorem Lists.put_new {es : List Entry} {f : CStr → Option CStr} (h : Lists es f) {k : CStr}
    (hk : ∀ e ∈ es, e.key ≠ k) (hash : UInt32) (v : CStr) :
    Lists ({ hash := hash, key := k, val := v } :: es) (Function.update f k (some v)) := by
  intro k' v'
  by_cases heq : k' = k
  · subst heq
    rw [Function.update_self, Option.some_inj]
    constructor
    · rintro rfl
      exact ⟨_, List.mem_cons_self, rfl, rfl⟩
    · rintro ⟨e, he, hkey, hval⟩
      rcases List.mem_cons.mp he with rfl | he
      · exact hval
      · exact absurd hkey (hk e he)
  · rw [Function.update_of_ne heq, h k' v']
    constructor
    · rintro ⟨e, he, hkv⟩
      exact ⟨e, List.mem_cons_of_mem _ he, hkv⟩
    · rintro ⟨e, he, hkey, hval⟩
      rcases List.mem_cons.mp he with rfl | he
      · exact absurd hkey.symm heq
      · exact ⟨e, he, hkey, hval⟩

/-- Without an entry, the rest lists the map without its key. -/
theorem Lists.tail {es : List Entry} {f : CStr → Option CStr} {e : Entry} (h : Lists (e :: es) f)
    (hk : ∀ e' ∈ es, e'.key ≠ e.key) : Lists es (Function.update f e.key none) := by
  intro k v
  by_cases heq : k = e.key
  · subst heq
    rw [Function.update_self]
    refine iff_of_false (fun hno => by cases hno) ?_
    rintro ⟨e', he', hkey, -⟩
    exact hk e' he' hkey
  · rw [Function.update_of_ne heq, h k v]
    constructor
    · rintro ⟨e', he', hkey, hval⟩
      rcases List.mem_cons.mp he' with rfl | he'
      · exact absurd hkey.symm heq
      · exact ⟨e', he', hkey, hval⟩
    · rintro ⟨e', he', hkv⟩
      exact ⟨e', List.mem_cons_of_mem _ he', hkv⟩

theorem Lists.put_old {es : List Entry} {f : CStr → Option CStr} {e : Entry}
    (h : Lists (e :: es) f) (hk : ∀ e' ∈ es, e'.key ≠ e.key) (v : CStr) :
    Lists ({ e with val := v } :: es) (Function.update f e.key (some v)) := by
  have hnew := (h.tail hk).put_new hk e.hash v
  rwa [Function.update_idem] at hnew

/-- A map that a call may leave. -/
structure EnvMap.Holds (m : EnvMap) (f : CStr → Option CStr) : Prop where
  wf : m.Wf
  free : m.len < m.cap
  lists : Lists (entries m.slots) f

theorem mapResize_holds {m : EnvMap} {f : CStr → Option CStr} (hm : m.Wf)
    (hlists : Lists (entries m.slots) f) {nc : Nat} (hnc : m.len < nc) :
    ∃ m', mapResize true m nc = some m' ∧ m'.Holds f ∧ m'.len = m.len ∧ m'.cap = nc := by
  have hempty : entries (List.replicate nc (none : Option Entry)) = [] := entries_replicate nc
  have hkeys : ((entries (List.replicate nc none) ++ entries m.slots).map Entry.key).Nodup := by
    rw [hempty]
    exact hm.placed.nodup_keys
  have hroom : (entries (List.replicate nc (none : Option Entry))).length +
      (entries m.slots).length < (List.replicate nc (none : Option Entry)).length := by
    rw [hempty, List.length_replicate, List.length_nil, Nat.zero_add, ← hm.counted]
    exact hnc
  obtain ⟨slots, hrehash, hplaced, hlen, hperm⟩ :=
    rehash_spec (placed_replicate entryHash Entry.key nc) hkeys hroom
  rw [hempty, List.nil_append] at hperm
  rw [List.length_replicate] at hlen
  refine ⟨{ slots := slots, len := m.len }, ?_, ⟨⟨hplaced, ?_, ?_⟩, ?_, hlists.perm hperm⟩, rfl,
    hlen⟩
  · unfold mapResize
    rw [if_pos rfl, hrehash]
    rfl
  · exact fun e he => hm.hashed e (hperm.mem_iff.mp he)
  · exact hm.counted.trans hperm.length_eq.symm
  · rw [EnvMap.cap, hlen]
    exact hnc

/-- Growth leaves room for one more entry and a free slot. -/
theorem maybeGrow_holds {m : EnvMap} {f : CStr → Option CStr} (h : m.Holds f) :
    ∃ m', maybeGrow true m = some m' ∧ m'.Holds f ∧ m'.len + 1 < m'.cap := by
  have hfree := h.free
  unfold maybeGrow
  by_cases hload : m.len ≥ m.cap * 7 / 10
  · rw [if_pos hload]
    obtain ⟨m', hresize, hholds, hlen, hcap⟩ :=
      mapResize_holds h.wf h.lists (show m.len < m.cap + max m.cap 64 by omega)
    exact ⟨m', hresize, hholds, by omega⟩
  · rw [if_neg hload]
    exact ⟨m, rfl, h, by omega⟩

theorem EnvMap.Holds.slots_ne {m : EnvMap} {f : CStr → Option CStr} (h : m.Holds f) :
    m.slots.isEmpty = false := by
  have hfree := h.free
  unfold EnvMap.cap at hfree
  cases hs : m.slots with
  | nil =>
    rw [hs] at hfree
    cases hfree
  | cons v s => rfl

theorem mapLookup_found {m : EnvMap} (h : m.Wf) {i : Nat} {e : Entry}
    (he : entryAt m.slots i = some e) : mapLookup m (fnv1a e.key) e.key = some (i, true) := by
  have hhash := h.hashed e (mem_entries.mpr ⟨i, he⟩)
  unfold mapLookup
  rw [← hhash]
  refine h.placed.probe_found he (by simp) fun e' he' => ?_
  simp only [Bool.and_eq_true, decide_eq_true_eq] at he'
  exact he'.2

theorem mapLookup_absent {m : EnvMap} (h : m.Wf) (hfree : m.len < m.cap) {k : CStr}
    (hk : ∀ e ∈ entries m.slots, e.key ≠ k) :
    ∃ i, mapLookup m (fnv1a k) k = some (i, false) ∧ FreeFor m.slots (fnv1a k).toNat i := by
  have hroom : (entries m.slots).length < m.slots.length := by
    rw [← h.counted]
    exact hfree
  exact probe_absent (fnv1a k).toNat hroom fun e he => by simp [hk e he]

/-- What the write of a put leaves. -/
structure Stored (m m' : EnvMap) (f : CStr → Option CStr) (added : Nat) : Prop where
  wf : m'.Wf
  lists : Lists (entries m'.slots) f
  len : m'.len = m.len + added
  cap : m'.cap = m.cap

theorem mapStore_found {m : EnvMap} {f : CStr → Option CStr} (h : m.Wf)
    (hlists : Lists (entries m.slots) f) {i : Nat} {e : Entry} (he : entryAt m.slots i = some e)
    (v : CStr) :
    Stored m (mapStore m (fnv1a e.key) e.key v i true) (Function.update f e.key (some v)) 0 := by
  obtain ⟨rest, hold, hnew⟩ := entries_set_used he { e with val := v }
  have hkeys : ((e :: rest).map Entry.key).Nodup :=
    (hold.map Entry.key).nodup_iff.mp h.placed.nodup_keys
  have hrest : ∀ e' ∈ rest, e'.key ≠ e.key := fun e' he' hkey =>
    (List.nodup_cons.mp hkeys).1 (List.mem_map.mpr ⟨e', he', hkey⟩)
  have hstore : mapStore m (fnv1a e.key) e.key v i true =
      { m with slots := m.slots.set i (some { e with val := v }) } := by
    unfold mapStore
    rw [if_pos rfl, he]
    rfl
  rw [hstore]
  refine ⟨⟨h.placed.replace he rfl rfl, ?_, ?_⟩,
    ((hlists.perm hold.symm).put_old hrest v).perm hnew, rfl, ?_⟩
  · intro e' he'
    rcases List.mem_cons.mp (hnew.mem_iff.mp he') with rfl | hmem
    · exact h.hashed e (mem_entries.mpr ⟨i, he⟩)
    · exact h.hashed e' (hold.mem_iff.mpr (List.mem_cons_of_mem e hmem))
  · exact h.counted.trans (hold.length_eq.trans hnew.length_eq.symm)
  · rw [EnvMap.cap, List.length_set]
    rfl

theorem mapStore_absent {m : EnvMap} {f : CStr → Option CStr} (h : m.Wf)
    (hlists : Lists (entries m.slots) f) {k : CStr} (hk : ∀ e ∈ entries m.slots, e.key ≠ k) {i : Nat}
    (hi : FreeFor m.slots (fnv1a k).toNat i) (v : CStr) :
    Stored m (mapStore m (fnv1a k) k v i false) (Function.update f k (some v)) 1 := by
  have hperm := entries_set_free (e := ({ hash := fnv1a k, key := k, val := v } : Entry))
    hi.lt hi.free
  refine ⟨⟨h.placed.insert hi hk, ?_, ?_⟩, (hlists.put_new hk _ v).perm hperm, rfl, ?_⟩
  · intro e he
    rcases List.mem_cons.mp (hperm.mem_iff.mp he) with rfl | hmem
    · rfl
    · exact h.hashed e hmem
  · exact (congrArg (· + 1) h.counted).trans hperm.length_eq.symm
  · show (m.slots.set i _).length = m.slots.length
    exact List.length_set ..

theorem envMapPut_holds {m : EnvMap} {f : CStr → Option CStr} (h : m.Holds f) (k v : CStr) :
    ∃ m', envMapPut true m k v = some m' ∧ m'.Holds (Function.update f k (some v)) := by
  obtain ⟨m₁, hgrow, h₁, hroom⟩ := maybeGrow_holds h
  unfold envMapPut
  rw [h.slots_ne, if_neg (by simp), hgrow]
  dsimp only
  by_cases hk : ∃ e ∈ entries m₁.slots, e.key = k
  · obtain ⟨e, hmem, rfl⟩ := hk
    obtain ⟨i, hi⟩ := mem_entries.mp hmem
    have hstored := mapStore_found h₁.wf h₁.lists hi v
    rw [mapLookup_found h₁.wf hi]
    exact ⟨_, rfl, hstored.wf, by rw [hstored.len, hstored.cap]; exact h₁.free, hstored.lists⟩
  · have habsent : ∀ e ∈ entries m₁.slots, e.key ≠ k := fun e he hkey => hk ⟨e, he, hkey⟩
    obtain ⟨i, hlookup, hi⟩ := mapLookup_absent h₁.wf h₁.free habsent
    have hstored := mapStore_absent h₁.wf h₁.lists habsent hi v
    rw [hlookup]
    exact ⟨_, rfl, hstored.wf, by rw [hstored.len, hstored.cap]; exact hroom, hstored.lists⟩

theorem envMapGet_holds {m : EnvMap} {f : CStr → Option CStr} (h : m.Holds f) (k : CStr) :
    envMapGet m k = some (f k) := by
  unfold envMapGet
  rw [h.slots_ne, if_neg (by simp)]
  by_cases hk : ∃ e ∈ entries m.slots, e.key = k
  · obtain ⟨e, hmem, rfl⟩ := hk
    obtain ⟨i, hi⟩ := mem_entries.mp hmem
    rw [mapLookup_found h.wf hi, h.lists.get_some hmem, Option.map_some, if_pos rfl, hi]
    rfl
  · have habsent : ∀ e ∈ entries m.slots, e.key ≠ k := fun e he hkey => hk ⟨e, he, hkey⟩
    obtain ⟨i, hlookup, -⟩ := mapLookup_absent h.wf h.free habsent
    rw [hlookup, h.lists.get_none habsent]
    rfl

/-- The finite map after `env_map_ensure`. -/
def refEnsure (f : CStr → Option CStr) (k : CStr) (v : Option CStr) : CStr → Option CStr :=
  (refCall f (.ensure k v)).2

theorem envMapEnsure_holds {m : EnvMap} {f : CStr → Option CStr} (h : m.Holds f) (k : CStr)
    (v : Option CStr) :
    ∃ m', envMapEnsure true m k v = some m' ∧ m'.Holds (refEnsure f k v) := by
  match v with
  | none => exact ⟨m, rfl, h⟩
  | some [] => exact ⟨m, rfl, h⟩
  | some (c :: v) =>
    unfold envMapEnsure refEnsure refCall
    dsimp only
    rw [envMapGet_holds h]
    cases hf : f k with
    | some w => exact ⟨m, rfl, h⟩
    | none => exact envMapPut_holds h k (c :: v)

/-- The map is not stuck and holds `f`. -/
def MapRel (m : Option EnvMap) (f : CStr → Option CStr) : Prop := ∃ m', m = some m' ∧ m'.Holds f

theorem mapCall_holds {m : EnvMap} {f : CStr → Option CStr} (h : m.Holds f) (k : MapCall) :
    (mapCall true (some m) k).1 = (refCall f k).1 ∧
      MapRel (mapCall true (some m) k).2 (refCall f k).2 := by
  cases k with
  | put k v =>
    obtain ⟨m', hput, h'⟩ := envMapPut_holds h k v
    unfold mapCall
    dsimp only
    rw [hput]
    exact ⟨rfl, m', rfl, h'⟩
  | ensure k v =>
    obtain ⟨m', hensure, h'⟩ := envMapEnsure_holds h k v
    have hdone : (refCall f (.ensure k v)).1 = .done := by
      unfold refCall
      split <;> first | rfl | contradiction
    unfold mapCall
    dsimp only
    rw [hensure]
    exact ⟨hdone.symm, m', rfl, h'⟩
  | get k =>
    unfold mapCall
    dsimp only
    rw [envMapGet_holds h]
    exact ⟨rfl, m, rfl, h⟩

theorem mapCall_refines : Calls.Refines (mapCall true) refCall MapRel where
  answer := by
    rintro _ f k ⟨m, rfl, h⟩
    exact (mapCall_holds h k).1
  keep := by
    rintro _ f k ⟨m, rfl, h⟩
    exact (mapCall_holds h k).2

theorem envMapInit_holds : MapRel (envMapInit true) fun _ => none := by
  have hwf : EnvMap.Wf { slots := [], len := 0 } :=
    ⟨placed_replicate entryHash Entry.key 0, fun e he => absurd he List.not_mem_nil, rfl⟩
  have hlists : Lists (entries ([] : List (Option Entry))) fun _ => none := by
    intro k v
    refine iff_of_false (fun h => by cases h) ?_
    rintro ⟨e, he, -⟩
    exact absurd he List.not_mem_nil
  obtain ⟨m, hm, h, -⟩ := mapResize_holds hwf hlists (show 0 < mapInitCap by decide)
  exact ⟨m, hm, h⟩

/-- `env_map_build` lists the finite map: each key once, then `NULL`, in an
array of the size that was allocated. -/
structure Builds (m : EnvMap) (f : CStr → Option CStr) (kvs : List (CStr × CStr)) : Prop where
  array : envMapBuild m = kvs.map (fun kv => some (kv.1 ++ equals :: kv.2)) ++ [none]
  nodup : (kvs.map Prod.fst).Nodup
  mem : ∀ k v, (k, v) ∈ kvs ↔ f k = some v
  length : (envMapBuild m).length = m.len + 1

theorem EnvMap.Holds.builds {m : EnvMap} {f : CStr → Option CStr} (h : m.Holds f) :
    Builds m f ((entries m.slots).map fun e => (e.key, e.val)) where
  array := by
    rw [List.map_map]
    rfl
  nodup := by
    rw [List.map_map]
    exact h.wf.placed.nodup_keys
  mem k v := by
    rw [h.lists k v, List.mem_map]
    constructor
    · rintro ⟨e, he, heq⟩
      cases heq
      exact ⟨e, he, rfl, rfl⟩
    · rintro ⟨e, he, rfl, rfl⟩
      exact ⟨e, he, rfl⟩
  length := by
    unfold envMapBuild
    rw [List.length_append, List.length_map, h.wf.counted]
    rfl

end Cage.Util
