import Cage.Lib.Hoare
import Cage.Lib.Runs
import Cage.Util.DiskCalls

/-!
The cache of `io_exists` on a disk. Between two operations every cached answer
is what a check without the cache gives; within one, the answers at and below
the path that was just changed may be old until they are dropped.
-/

namespace Cage.Util

open Cage.Lib Cage.Lib.Hoare

/-- The answer of a check without the cache. -/
def uncached (d : Disk) (path : CStr) : Int := accessResult (lookErrno path d)

/-- No path has two slots. -/
def NoRepeat (cache : List Slot) : Prop :=
  ∀ (i j : Nat) (p : CStr) (r r' : Int),
    cache[i]? = some (some (p, r)) → cache[j]? = some (some (p, r')) → i = j

/-- The cached paths are canonical, and their answers are `ok`. -/
structure Sound (ok : Path → Int → Prop) (w : IoState Disk) : Prop where
  wf : w.sys.Wf
  entries : ∀ p r, some (p, r) ∈ w.cache → ∃ q : Path, p = q.str ∧ 0 ≤ r ∧ ok q r
  noRepeat : NoRepeat w.cache
  size : w.cache.length = ioCacheMax

/-- Between two operations. -/
def Fresh (w : IoState Disk) : Prop := Sound (fun q r => r = uncached w.sys q.str) w

/-- After the entry of `q` has changed. -/
def Stale (q : Path) (w : IoState Disk) : Prop :=
  q.loc ≠ [] ∧ Sound (fun q' r => q.loc <+: q'.loc ∨ r = uncached w.sys q'.str) w

theorem uncached_tree {d d' : Disk} (h : d'.tree = d.tree) (path : CStr) :
    uncached d' path = uncached d path := by
  unfold uncached lookErrno
  rw [find_tree h path]

theorem uncached_le (d : Disk) (path : CStr) : uncached d path ≤ 1 := by
  unfold uncached accessResult
  split <;> decide

theorem holds_iff {path : CStr} {slot : Slot} :
    holds path slot = true ↔ ∃ r, slot = some (path, r) := by
  unfold holds
  split
  · simp
  · rename_i p r
    simp only [beq_iff_eq]
    constructor
    · rintro rfl
      exact ⟨r, rfl⟩
    · rintro ⟨r', h⟩
      cases h
      rfl

/-- An answer that is found stands in the cache. -/
theorem mem_of_ioCacheLookup {cache : List Slot} {path : CStr} (h : ioCacheLookup cache path ≠ 2) :
    some (path, ioCacheLookup cache path) ∈ cache := by
  unfold ioCacheLookup at h ⊢
  split
  · rename_i p r hfind
    obtain ⟨r', hr⟩ := holds_iff.mp (List.find?_some hfind)
    cases hr
    exact List.mem_of_find?_eq_some hfind
  · rename_i hother
    split at h
    · rename_i p r hfind
      exact absurd hfind (hother p r)
    · exact absurd rfl h

theorem mem_ioCacheStore {cache : List Slot} {path : CStr} {res : Int} {slot : Slot}
    (h : slot ∈ ioCacheStore cache path res) : slot ∈ cache ∨ slot = some (path, res) := by
  unfold ioCacheStore at h
  split at h
  · exact List.mem_or_eq_of_mem_set h
  · split at h
    · exact List.mem_or_eq_of_mem_set h
    · exact List.mem_or_eq_of_mem_set h

theorem invalidateSlot_eq_some {path p : CStr} {slot : Slot} {r : Int}
    (h : invalidateSlot path slot = some (p, r)) :
    slot = some (p, r) ∧ pathIsRelated p path = false := by
  unfold invalidateSlot at h
  split at h
  · cases h
  · split at h
    · cases h
    · rename_i hrel
      cases h
      exact ⟨rfl, by simpa using hrel⟩

theorem NoRepeat.set {cache : List Slot} {path : CStr} {i : Nat} (h : NoRepeat cache)
    (hno : ∀ j r, j ≠ i → cache[j]? ≠ some (some (path, r))) (res : Int) :
    NoRepeat (cache.set i (some (path, res))) := by
  have hold (j : Nat) (p : CStr) (r : Int) (hj : j ≠ i)
      (hget : (cache.set i (some (path, res)))[j]? = some (some (p, r))) :
      cache[j]? = some (some (p, r)) ∧ p ≠ path := by
    rw [List.getElem?_set_ne hj.symm] at hget
    refine ⟨hget, ?_⟩
    rintro rfl
    exact hno j r hj hget
  have hnew (p : CStr) (r : Int) (hget : (cache.set i (some (path, res)))[i]? = some (some (p, r))) :
      p = path := by
    rw [List.getElem?_set_self'] at hget
    cases hc : cache[i]? with
    | none =>
      rw [hc] at hget
      cases hget
    | some s =>
      rw [hc] at hget
      cases hget
      rfl
  intro a b p r r' ha hb
  by_cases hai : a = i
  · subst hai
    by_cases hbi : b = a
    · exact hbi.symm
    · exact absurd (hnew p r ha) (hold b p r' hbi hb).2
  · by_cases hbi : b = i
    · subst hbi
      exact absurd (hnew p r' hb) (hold a p r hai ha).2
    · exact h a b p r r' (hold a p r hai ha).1 (hold b p r' hbi hb).1

/-- The slot that the cache stores a path in, when no other has it. -/
theorem ioCacheStore_eq {cache : List Slot} (h : NoRepeat cache) (path : CStr) (res : Int) :
    ∃ i, ioCacheStore cache path res = cache.set i (some (path, res)) ∧
      ∀ j r, j ≠ i → cache[j]? ≠ some (some (path, r)) := by
  unfold ioCacheStore ioCacheFind
  cases hfind : cache.findIdx? (holds path) with
  | some i =>
    refine ⟨i, rfl, fun j r hj hget => hj ?_⟩
    obtain ⟨hlt, hholds, -⟩ := List.findIdx?_eq_some_iff_getElem.mp hfind
    obtain ⟨r', hr'⟩ := holds_iff.mp hholds
    exact h j i path r r' hget (by rw [List.getElem?_eq_getElem hlt, hr'])
  | none =>
    have hno (j : Nat) (r : Int) : cache[j]? ≠ some (some (path, r)) := by
      intro hget
      have hfalse := List.findIdx?_eq_none_iff.mp hfind _ (List.mem_of_getElem? hget)
      rw [holds_iff.mpr ⟨r, rfl⟩] at hfalse
      cases hfalse
    dsimp only
    split
    · exact ⟨_, rfl, fun j r _ => hno j r⟩
    · exact ⟨0, rfl, fun j r _ => hno j r⟩

theorem Sound.store {ok : Path → Int → Prop} {w : IoState Disk} (h : Sound ok w) {q : Path}
    {res : Int} (hres : 0 ≤ res) (hok : ok q res) :
    Sound ok { w with cache := ioCacheStore w.cache q.str res } := by
  obtain ⟨i, hstore, hno⟩ := ioCacheStore_eq h.noRepeat q.str res
  rw [hstore]
  refine ⟨h.wf, fun p r hmem => ?_, h.noRepeat.set hno res, by rw [List.length_set, h.size]⟩
  rcases List.mem_or_eq_of_mem_set hmem with hmem | heq
  · exact h.entries p r hmem
  · cases heq
    exact ⟨q, rfl, hres, hok⟩

/-- What is left after `io_cache_invalidate` is not related to the path. -/
theorem Sound.invalidate {ok : Path → Int → Prop} {w : IoState Disk} (h : Sound ok w)
    (path : CStr) :
    Sound (fun q r => ok q r ∧ pathIsRelated q.str path = false)
      { w with cache := w.cache.map (invalidateSlot path) } := by
  refine ⟨h.wf, fun p r hmem => ?_, fun i j p r r' hi hj => ?_, ?_⟩
  · obtain ⟨slot, hslot, hs⟩ := List.mem_map.mp hmem
    obtain ⟨rfl, hrel⟩ := invalidateSlot_eq_some hs
    obtain ⟨q, rfl, hr, hok⟩ := h.entries p r hslot
    exact ⟨q, rfl, hr, hok, hrel⟩
  · have hget (n : Nat) (x : Int)
        (hn : (w.cache.map (invalidateSlot path))[n]? = some (some (p, x))) :
        w.cache[n]? = some (some (p, x)) := by
      rw [List.getElem?_map] at hn
      obtain ⟨slot, hslot, hs⟩ := Option.map_eq_some_iff.mp hn
      rw [hslot, (invalidateSlot_eq_some hs).1]
    exact h.noRepeat i j p r r' (hget i r hi) (hget j r' hj)
  · rw [List.length_map, h.size]

theorem Sound.mono {ok ok' : Path → Int → Prop} {w : IoState Disk} (h : Sound ok w)
    (himp : ∀ q r, 0 ≤ r → ok q r → ok' q r) : Sound ok' w :=
  ⟨h.wf, fun p r hmem =>
    let ⟨q, hq, hr, hok⟩ := h.entries p r hmem
    ⟨q, hq, hr, himp q r hr hok⟩, h.noRepeat, h.size⟩

/-- Another disk behind the same cache. -/
theorem Sound.setSys {ok : Path → Int → Prop} {w : IoState Disk} (h : Sound ok w) {d : Disk}
    (hd : d.Wf) : Sound ok { w with sys := d } :=
  ⟨hd, h.entries, h.noRepeat, h.size⟩

/-- Dropping answers keeps the others right. -/
theorem invalidate_keeps (path : CStr) : Keeps Fresh (ioCacheInvalidate path : Io Disk Unit) := by
  intro w h
  exact (h.invalidate path).mono fun q r _ hok => hok.1

/-- Dropping the answers related to the changed path makes the cache right. -/
theorem invalidate_stale (q : Path) :
    Triple (Stale q) (ioCacheInvalidate q.str : Io Disk Unit) fun _ => Fresh := by
  intro w ⟨hne, h⟩
  refine (h.invalidate q.str).mono fun q' r _ hok => ?_
  obtain ⟨hbelow | htrue, hrel⟩ := hok
  · exfalso
    unfold pathIsRelated at hrel
    rcases isPrefixDir_of_prefix hne hbelow with heq | hdir
    · simp [heq] at hrel
    · simp [hdir] at hrel
  · exact htrue

/-- A call that only looks. -/
def Looks {A : Type} (m : StateM Disk A) : Prop := ∀ d, (m d).2.tree = d.tree

theorem fresh_of_tree {w : IoState Disk} (h : Fresh w) {d : Disk} (htree : d.tree = w.sys.tree) :
    Fresh { w with sys := d } :=
  (h.setSys (h.wf.of_tree htree)).mono fun q _ _ hok =>
    hok.trans (uncached_tree htree q.str).symm

theorem sys_looks {A : Type} {m : StateM Disk A} (hm : Looks m) : Keeps Fresh (Io.sys m) :=
  fun w h => fresh_of_tree h (hm w.sys)

theorem looks_look {A : Type} (failed : A) (f : Disk → A) : Looks (look failed f) :=
  look_tree failed f

/-- A call that changes the entry of a canonical path, when it succeeds. -/
theorem sys_change (q : Path)
    {act : Tree → Loc → Option Node → Except Errno (Option Node)} (hact : KeepsRoot act) :
    Triple Fresh (Io.sys (change q.str act)) fun r w =>
      (r = none → Stale q w) ∧ (r ≠ none → Fresh w) := by
  intro w h
  have hnames : ∀ c ∈ comps q.str, ValidName c := by
    rw [comps_str]
    exact q.valid
  obtain ⟨hok, hfail⟩ := change_spec h.wf hnames hact
  refine ⟨fun hr => ?_, fun hr => fresh_of_tree h (hfail hr)⟩
  have hch := hok hr
  rw [comps_str] at hch
  refine ⟨hch.notRoot, (h.setSys hch.wf).mono fun q' _ _ htrue => ?_⟩
  by_cases hbelow : q.loc <+: q'.loc
  · exact Or.inl hbelow
  · right
    have hno : ¬q.loc <+: comps q'.str := by rwa [comps_str]
    rw [htrue]
    unfold uncached lookErrno
    rw [← find_congr hch.same hno]
    rfl

end Cage.Util
