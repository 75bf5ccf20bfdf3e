import Optimap.Map.RawTableApi

/-!
# The generic hash map

`GenericMap` provides the map API once, over any engine that implements
`RawTableApi`: constructors, the entry and raw-entry APIs, iteration,
retention and equality.
-/

set_option autoImplicit false

namespace Optimap.Map

open Lib RawTableApi

structure GenericMap (T K : Type) where
  table : T
  hashBuilder : K → UInt64

/-- The operations of `GenericMap`: the common ones and the raw-entry API,
looked up with `raw_entry_mut().from_key(key)`. -/
inductive GenericOp (K V : Type) where
  | common (op : MapOp K V)
  | rawInsert (key : K) (value : V)
  | rawRemove (key : K)

namespace GenericMap

variable {T K V : Type} [DecidableEq K] [RawTableApi T K V]

def withHasher (hash : K → UInt64) : GenericMap T K := ⟨new, hash⟩

def withCapacityAndHasher (capacity : Nat) (hash : K → UInt64) : GenericMap T K :=
  ⟨withCapacity capacity, hash⟩

def len (map : GenericMap T K) : Nat := RawTableApi.len map.table

def capacity (map : GenericMap T K) : Nat := RawTableApi.capacity map.table

def clear (map : GenericMap T K) : GenericMap T K := { map with table := RawTableApi.clear map.table }

/-- The lookup behind every keyed operation. -/
def find (fuel : Nat) (map : GenericMap T K) (key : K) : Option (Option Slot) :=
  findByHash fuel map.table (map.hashBuilder key) fun stored => stored = key

def get (fuel : Nat) (map : GenericMap T K) (key : K) : Option (Option V) := do
  let slot ← map.find fuel key
  return slot.bind (value map.table)

def insert (fuel : Nat) (map : GenericMap T K) (key : K) (value : V) :
    Option (Option V × GenericMap T K) := do
  let (result, table) ← insertOrReplace fuel map.hashBuilder map.table key value
  return (result, { map with table })

def removeEntry (fuel : Nat) (map : GenericMap T K) (key : K) :
    Option (Option (K × V) × GenericMap T K) := do
  let (result, table) ← removeByHash fuel map.table (map.hashBuilder key) fun stored => stored = key
  return (result, { map with table })

def remove (fuel : Nat) (map : GenericMap T K) (key : K) : Option (Option V × GenericMap T K) := do
  let (result, map) ← map.removeEntry fuel key
  return (result.map Prod.snd, map)

/-- The probe of `entry` needs an allocated table. -/
def allocate (fuel : Nat) (map : GenericMap T K) : Option T :=
  if isAllocated map.table then some map.table
  else RawTableApi.reserve fuel map.hashBuilder map.table 1

def entry (fuel : Nat) (map : GenericMap T K) (key : K) : Option (EntryProbe × GenericMap T K) := do
  let table ← map.allocate fuel
  let probe ← findForEntry fuel table (map.hashBuilder key) key
  return (probe, { map with table })

/-- `ensure_capacity` followed by `insert_no_check`, as both vacant entries do. -/
def insertGrowing (fuel : Nat) (map : GenericMap T K) (key : K) (value : V) :
    Option (Slot × GenericMap T K) := do
  let grown ← ensureCapacity fuel map.hashBuilder map.table
  let (slot, table) ← insertNoCheck fuel grown (map.hashBuilder key) key value
  return (slot, { map with table })

/-- `VacantEntry::insert`. -/
def vacantInsert (fuel : Nat) (map : GenericMap T K) (slot : Option (Slot × UInt8)) (key : K)
    (value : V) : Option (Slot × GenericMap T K) :=
  match slot with
  | some (slot, fullMask) =>
      some (slot, { map with table := insertAt map.table (map.hashBuilder key) slot key value fullMask })
  | none => map.insertGrowing fuel key value

/-- `entry(key).or_insert(default)`; the result is what the returned reference reads. -/
def orInsert (fuel : Nat) (map : GenericMap T K) (key : K) (default : V) :
    Option (Option V × GenericMap T K) := do
  let (probe, map) ← map.entry fuel key
  match probe with
  | .found slot => return (value map.table slot, map)
  | .vacant slot =>
      let (slot, map) ← map.vacantInsert fuel slot key default
      return (value map.table slot, map)

/-- `Err(OccupiedError)` carries the key and value back. -/
def tryInsert (fuel : Nat) (map : GenericMap T K) (key : K) (value : V) :
    Option (Option (K × V) × GenericMap T K) := do
  let (probe, map) ← map.entry fuel key
  match probe with
  | .found _ => return (some (key, value), map)
  | .vacant slot =>
      let (_, map) ← map.vacantInsert fuel slot key value
      return (none, map)

/-- `raw_entry_mut().from_key(key).or_insert(key, value)`. -/
def rawOrInsert (fuel : Nat) (map : GenericMap T K) (key : K) (default : V) :
    Option (Option V × GenericMap T K) := do
  match ← map.find fuel key with
  | some slot => return (value map.table slot, map)
  | none =>
      let (slot, map) ← map.insertGrowing fuel key default
      return (value map.table slot, map)

/-- `raw_entry_mut().from_key(key)`, removing the entry when it is occupied. -/
def rawRemoveEntry (fuel : Nat) (map : GenericMap T K) (key : K) :
    Option (Option (K × V) × GenericMap T K) := do
  match ← map.find fuel key with
  | some slot =>
      return (entryAt map.table slot,
        { map with table := eraseSlot map.table (map.hashBuilder key) slot })
  | none => return (none, map)

def iter (map : GenericMap T K) : List (K × V) :=
  (iterSlots map.table).filterMap (entryAt map.table)

/-- One round of `retain`: the predicate may rewrite the value before it decides. -/
def retainSlot (predicate : K → V → Bool × V) (hash : K → UInt64) (table : T) (slot : Slot) : T :=
  match entryAt table slot with
  | some (storedKey, storedValue) =>
      let written := writeValue table slot (predicate storedKey storedValue).2
      if (predicate storedKey storedValue).1 then written
      else eraseSlot written (hash storedKey) slot
  | none => table

def retain (map : GenericMap T K) (predicate : K → V → Bool × V) : GenericMap T K :=
  if isAllocated map.table then
    { map with table :=
        (iterSlots map.table).foldl (retainSlot predicate map.hashBuilder) map.table }
  else map

def reserve (fuel : Nat) (map : GenericMap T K) (additional : Nat) : Option (GenericMap T K) := do
  let table ← RawTableApi.reserve fuel map.hashBuilder map.table additional
  return { map with table }

def shrinkToFit (fuel : Nat) (map : GenericMap T K) : Option (GenericMap T K) := do
  let table ← RawTableApi.shrinkToFit fuel map.hashBuilder map.table
  return { map with table }

def drain (map : GenericMap T K) : List (K × V) × GenericMap T K :=
  (intoIter map.table, { map with table := new })

def clone (map : GenericMap T K) : GenericMap T K := { map with table := cloneTable map.table }

def extend (fuel : Nat) (map : GenericMap T K) : List (K × V) → Option (GenericMap T K)
  | [] => some map
  | (key, value) :: rest => do
      let (_, map) ← map.insert fuel key value
      map.extend fuel rest

/-- `self.iter().all(|(k, v)| other.get(k) == Some(v))`. -/
def allEqual [DecidableEq V] (fuel : Nat) (other : GenericMap T K) : List (K × V) → Option Bool
  | [] => some true
  | (key, value) :: rest => do
      let found ← other.get fuel key
      if found = some value then allEqual fuel other rest else return false

def eq [DecidableEq V] (fuel : Nat) (map other : GenericMap T K) : Option Bool :=
  if map.len ≠ other.len then some false else allEqual fuel other map.iter

def stepCommon (fuel : Nat) (map : GenericMap T K) :
    MapOp K V → Option (MapResult K V × GenericMap T K)
  | .get key => do return (.value (← map.get fuel key), map)
  | .insert key value => do
      let (result, map) ← map.insert fuel key value
      return (.value result, map)
  | .remove key => do
      let (result, map) ← map.remove fuel key
      return (.value result, map)
  | .removeEntry key => do
      let (result, map) ← map.removeEntry fuel key
      return (.entry result, map)
  | .entryInsert key value => do
      let (result, map) ← map.orInsert fuel key value
      return (.value result, map)
  | .tryInsert key value => do
      let (result, map) ← map.tryInsert fuel key value
      return (.tried result, map)
  | .extend entries => do return (.unit, ← map.extend fuel entries)
  | .retain predicate => some (.unit, map.retain predicate)
  | .clear => some (.unit, map.clear)
  | .reserve additional => do return (.unit, ← map.reserve fuel additional)
  | .shrinkToFit => do return (.unit, ← map.shrinkToFit fuel)
  | .clone => some (.unit, map.clone)
  | .drain => some (.entries map.drain.1, map.drain.2)
  | .iter => some (.entries map.iter, map)
  | .len => some (.count map.len, map)

def step (fuel : Nat) (map : GenericMap T K) :
    GenericOp K V → Option (MapResult K V × GenericMap T K)
  | .common op => map.stepCommon fuel op
  | .rawInsert key value => do
      let (result, map) ← map.rawOrInsert fuel key value
      return (.value result, map)
  | .rawRemove key => do
      let (result, map) ← map.rawRemoveEntry fuel key
      return (.entry result, map)

/-- A run: the results in order and the map it ends in. -/
def run (fuel : Nat) (map : GenericMap T K) :
    List (GenericOp K V) → Option (List (MapResult K V) × GenericMap T K)
  | [] => some ([], map)
  | op :: ops => do
      let (result, middle) ← map.step fuel op
      let (results, final) ← middle.run fuel ops
      return (result :: results, final)

end GenericMap

/-- The reference answers, raw entries included. -/
def GenericAnswers {K V : Type} [DecidableEq K] (map : PMap K V) :
    GenericOp K V → MapResult K V → PMap K V → Prop
  | .common op, result, map' => Answers map op result map'
  | .rawInsert key value, result, map' => Answers map (.entryInsert key value) result map'
  | .rawRemove key, result, map' => Answers map (.removeEntry key) result map'

end Optimap.Map
