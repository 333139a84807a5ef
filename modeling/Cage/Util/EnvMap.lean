import Cage.Lib.Calls
import Cage.Lib.LinearProbe
import Cage.Util.CStr

/-!
The environment map of `src/util/env_map.c`, and `env_map_ensure` of
`src/util/env.c`. The four arrays are one list of slots: a slot is free or has
a hash, a key and a value. A probe that goes round without an end is `none`.
-/

namespace Cage.Util

open Cage.Lib Cage.Lib.LinearProbe

structure Entry where
  hash : UInt32
  key : CStr
  val : CStr
  deriving DecidableEq, Repr

/-- `env_map_t`; the capacity is the number of slots. -/
structure EnvMap where
  slots : List (Option Entry)
  len : Nat
  deriving DecidableEq, Repr

def EnvMap.cap (m : EnvMap) : Nat := m.slots.length

def mapInitCap : Nat := 16

def fnv1a (s : CStr) : UInt32 := s.foldl (fun h c => (h ^^^ c.toUInt32) * 16777619) 2166136261

def entryHash (e : Entry) : Nat := e.hash.toNat

/-- `map_resize`. It leaves the map as it is when `alloc` says that the
allocation of the new table fails. -/
def mapResize (alloc : Bool) (m : EnvMap) (nc : Nat) : Option EnvMap :=
  if alloc then
    (rehash entryHash m.slots (List.replicate nc none)).map fun slots =>
      { slots := slots, len := m.len }
  else
    some m

def envMapInit (alloc : Bool) : Option EnvMap :=
  mapResize alloc { slots := [], len := 0 } mapInitCap

def maybeGrow (alloc : Bool) (m : EnvMap) : Option EnvMap :=
  if m.len ≥ m.cap * 7 / 10 then mapResize alloc m (m.cap + max m.cap 64) else some m

/-- `map_lookup`: the slot where the walk ends, and whether it has the key. -/
def mapLookup (m : EnvMap) (h : UInt32) (k : CStr) : Option (Nat × Bool) :=
  probe m.slots (fun e => e.hash = h && e.key = k) m.cap (h.toNat % m.cap)

/-- The write that ends `env_map_put`. -/
def mapStore (m : EnvMap) (h : UInt32) (k v : CStr) (i : Nat) (found : Bool) : EnvMap :=
  if found then
    { m with slots := m.slots.set i ((entryAt m.slots i).map fun e => { e with val := v }) }
  else
    { slots := m.slots.set i (some { hash := h, key := k, val := v }), len := m.len + 1 }

def envMapPut (alloc : Bool) (m : EnvMap) (k v : CStr) : Option EnvMap :=
  if m.slots.isEmpty then some m
  else
    match maybeGrow alloc m with
    | none => none
    | some m => (mapLookup m (fnv1a k) k).map fun r => mapStore m (fnv1a k) k v r.1 r.2

def envMapGet (m : EnvMap) (k : CStr) : Option (Option CStr) :=
  if m.slots.isEmpty then some none
  else
    (mapLookup m (fnv1a k) k).map fun r =>
      if r.2 then (entryAt m.slots r.1).map Entry.val else none

/-- `env_map_ensure`. -/
def envMapEnsure (alloc : Bool) (m : EnvMap) (k : CStr) (v : Option CStr) : Option EnvMap :=
  match v with
  | none | some [] => some m
  | some v =>
      match envMapGet m k with
      | none => none
      | some (some _) => some m
      | some none => envMapPut alloc m k v

def buildKv (e : Entry) : CStr := e.key ++ equals :: e.val

/-- `env_map_build`: the array, which ends with `NULL`. It is allocated with
`len + 1` elements. -/
def envMapBuild (m : EnvMap) : List (Option CStr) :=
  (entries m.slots).map (fun e => some (buildKv e)) ++ [none]

inductive MapCall where
  | put (k v : CStr)
  | ensure (k : CStr) (v : Option CStr)
  | get (k : CStr)
  deriving DecidableEq, Repr

inductive Reply where
  | stuck
  | done
  | value (v : Option CStr)
  deriving DecidableEq, Repr

/-- One call on the map; `none` is a process that walks round for ever. -/
def mapCall (alloc : Bool) (m : Option EnvMap) (k : MapCall) : Reply × Option EnvMap :=
  match m, k with
  | none, _ => (.stuck, none)
  | some m, .put k v =>
      match envMapPut alloc m k v with
      | none => (.stuck, none)
      | some m => (.done, some m)
  | some m, .ensure k v =>
      match envMapEnsure alloc m k v with
      | none => (.stuck, none)
      | some m => (.done, some m)
  | some m, .get k =>
      match envMapGet m k with
      | none => (.stuck, none)
      | some v => (.value v, some m)

/-- The same calls on a finite map. -/
def refCall (f : CStr → Option CStr) : MapCall → Reply × (CStr → Option CStr)
  | .put k v => (.done, Function.update f k (some v))
  | .ensure _ none => (.done, f)
  | .ensure _ (some []) => (.done, f)
  | .ensure k (some v) => (.done, if (f k).isSome then f else Function.update f k (some v))
  | .get k => (.value (f k), f)

end Cage.Util
