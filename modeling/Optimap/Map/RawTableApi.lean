import Optimap.Lib.Cells
import Optimap.Map.Reference

/-!
# The raw table contract

`RawTableApi` is the interface between `GenericMap` and the hash table engines.
Probe loops of the engines carry no counter of their own, so every operation
that probes takes the number of rounds it may run: `none` means that the loop
has not returned yet, never that the operation failed.
-/

set_option autoImplicit false

namespace Optimap.Map

open Lib

/-- A slot position `(group_index, slot_index)`. -/
abbrev Slot := Nat × Nat

/-- Result of a fused find-or-entry probe. A vacant slot carries the mask of
full groups passed on the way. -/
inductive EntryProbe where
  | found (slot : Slot)
  | vacant (slot : Option (Slot × UInt8))
  deriving DecidableEq

class RawTableApi (T : Type) (K V : outParam Type) where
  new : T
  withCapacity : Nat → T
  len : T → Nat
  capacity : T → Nat
  isAllocated : T → Bool
  clear : T → T
  /-- What the key pointer of a slot reads; `none` where nothing was written. -/
  key : T → Slot → Option K
  value : T → Slot → Option V
  /-- A store through the value pointer. -/
  writeValue : T → Slot → V → T
  findByHash (fuel : Nat) : T → UInt64 → (K → Bool) → Option (Option Slot)
  insertOrReplace (fuel : Nat) (hash : K → UInt64) : T → K → V → Option (Option V × T)
  findForEntry (fuel : Nat) : T → UInt64 → K → Option EntryProbe
  insertAt : T → UInt64 → Slot → K → V → UInt8 → T
  insertNoCheck (fuel : Nat) : T → UInt64 → K → V → Option (Slot × T)
  ensureCapacity (fuel : Nat) (hash : K → UInt64) : T → Option T
  removeByHash (fuel : Nat) : T → UInt64 → (K → Bool) → Option (Option (K × V) × T)
  eraseSlot : T → UInt64 → Slot → T
  reserve (fuel : Nat) (hash : K → UInt64) : T → Nat → Option T
  shrinkToFit (fuel : Nat) (hash : K → UInt64) : T → Option T
  iterSlots : T → List Slot
  /-- The pairs the owning iterator yields. -/
  intoIter : T → List (K × V)
  cloneTable : T → T

namespace RawTableApi

variable {T K V : Type} [RawTableApi T K V]

/-- The pair stored in a slot, when both halves are initialised. -/
def entryAt (table : T) (slot : Slot) : Option (K × V) :=
  (key table slot).bind fun storedKey => (value table slot).map fun storedValue => (storedKey, storedValue)

end RawTableApi

open RawTableApi

/-- What an engine owes `GenericMap`. `Refines` relates a table to the finite
map it stands for, `Holds` says which slot carries an entry, and `Ready` that
one more entry fits without growing. -/
structure RawTableLaws {T K V : Type} [DecidableEq K] [RawTableApi T K V] (hash : K → UInt64)
    (Refines : T → PMap K V → Prop) (Holds : T → Slot → K → V → Prop)
    (Ready : T → Prop) : Prop where
  new : Refines new PMap.empty
  withCapacity (capacity : Nat) : Refines (withCapacity capacity) PMap.empty
  stores {table map} (refines : Refines table map) : Stores (Holds table) map
  holds_entry {table slot key value} :
    Holds table slot key value → entryAt table slot = some (key, value)
  writeValue {table map slot key old} (refines : Refines table map)
    (holds : Holds table slot key old) (value : V) :
    Refines (writeValue table slot value) (map.insert key value) ∧
      Holds (writeValue table slot value) slot key value ∧
      ∀ other otherKey otherValue, other ≠ slot → Holds table other otherKey otherValue →
        Holds (writeValue table slot value) other otherKey otherValue
  isAllocated {table map} (refines : Refines table map) :
    isAllocated table = false → map = PMap.empty
  clear {table map} (refines : Refines table map) : Refines (clear table) PMap.empty
  findByHash_none {fuel table map key} (refines : Refines table map) :
    findByHash fuel table (hash key) (fun stored => stored = key) = some none → map key = none
  findByHash_some {fuel table map key slot} (refines : Refines table map) :
    findByHash fuel table (hash key) (fun stored => stored = key) = some (some slot) →
    ∃ value, Holds table slot key value
  insertOrReplace {fuel table map key value result table'} (refines : Refines table map) :
    insertOrReplace fuel hash table key value = some (result, table') →
    result = map key ∧ Refines table' (map.insert key value)
  findForEntry_found {fuel table map key slot} (refines : Refines table map) :
    findForEntry fuel table (hash key) key = some (.found slot) →
    ∃ value, Holds table slot key value
  findForEntry_vacant {fuel table map key slot} (refines : Refines table map) :
    findForEntry fuel table (hash key) key = some (.vacant slot) → map key = none
  insertAt {fuel table map key slot mask} (refines : Refines table map) :
    findForEntry fuel table (hash key) key = some (.vacant (some (slot, mask))) → ∀ value,
    Refines (insertAt table (hash key) slot key value mask) (map.insert key value) ∧
      Holds (insertAt table (hash key) slot key value mask) slot key value
  ensureCapacity {fuel table map table'} (refines : Refines table map) :
    ensureCapacity fuel hash table = some table' → Refines table' map ∧ Ready table'
  insertNoCheck {fuel table map key value slot table'} (refines : Refines table map)
    (ready : Ready table) (absent : map key = none) :
    insertNoCheck fuel table (hash key) key value = some (slot, table') →
    Refines table' (map.insert key value) ∧ Holds table' slot key value
  removeByHash {fuel table map key result table'} (refines : Refines table map) :
    removeByHash fuel table (hash key) (fun stored => stored = key) = some (result, table') →
    result = (map key).map (fun value => (key, value)) ∧ Refines table' (map.erase key)
  eraseSlot {table map slot key value} (refines : Refines table map)
    (holds : Holds table slot key value) :
    Refines (eraseSlot table (hash key) slot) (map.erase key) ∧
      ∀ other otherKey otherValue, other ≠ slot → Holds table other otherKey otherValue →
        Holds (eraseSlot table (hash key) slot) other otherKey otherValue
  reserve {fuel table map additional table'} (refines : Refines table map) :
    reserve fuel hash table additional = some table' → Refines table' map
  shrinkToFit {fuel table map table'} (refines : Refines table map) :
    shrinkToFit fuel hash table = some table' → Refines table' map
  iterSlots_nodup {table map} (refines : Refines table map) : (iterSlots table).Nodup
  mem_iterSlots {table map} (refines : Refines table map) (slot : Slot) :
    slot ∈ iterSlots table ↔ ∃ key value, Holds table slot key value
  len {table map} (refines : Refines table map) : len table = (iterSlots table).length
  intoIter {table map} (refines : Refines table map) :
    intoIter table = (iterSlots table).filterMap (entryAt table)
  cloneTable {table map} (refines : Refines table map) : Refines (cloneTable table) map

namespace RawTableLaws

variable {T K V : Type} [DecidableEq K] [RawTableApi T K V] {hash : K → UInt64}
  {Refines : T → PMap K V → Prop} {Holds : T → Slot → K → V → Prop} {Ready : T → Prop}

/-- The occupied slots, read in iteration order, enumerate the map. -/
theorem iter_enumerates (laws : RawTableLaws hash Refines Holds Ready) {table : T} {map : PMap K V}
    (refines : Refines table map) :
    PMap.Enumerates ((iterSlots table).filterMap (entryAt table)) map :=
  (laws.stores refines).enumerates (laws.iterSlots_nodup refines) (laws.mem_iterSlots refines)
    laws.holds_entry

theorem iter_length (laws : RawTableLaws hash Refines Holds Ready) {table : T} {map : PMap K V}
    (refines : Refines table map) :
    ((iterSlots table).filterMap (entryAt table)).length = RawTableApi.len table := by
  rw [laws.len refines]
  exact Stores.reads_length (fun slot => (laws.mem_iterSlots refines slot).mp) laws.holds_entry

end RawTableLaws

end Optimap.Map
