import Mathlib.Data.Finset.Card
import Optimap.FlatSet.RawTable

/-!
# The unordered flat set

Insertion is written as three paths over the raw metadata: the home group, the
overflow path and the path at capacity. Set algebra iterates one set and queries
the other.
-/

set_option autoImplicit false

namespace Optimap.FlatSet

open Hash Map

structure UnorderedFlatSet (feature : ReducedHash) (T : Type) where
  table : RawTable feature T Unit
  hashBuilder : T → UInt64

namespace UnorderedFlatSet

variable {feature : ReducedHash} {T : Type} [DecidableEq T]

def withHasher (hashBuilder : T → UInt64) : UnorderedFlatSet feature T := ⟨.new, hashBuilder⟩

def withCapacityAndHasher (capacity : Nat) (hashBuilder : T → UInt64) : UnorderedFlatSet feature T :=
  ⟨.withCapacity capacity, hashBuilder⟩

def len (set : UnorderedFlatSet feature T) : Nat := set.table.len

def clear (set : UnorderedFlatSet feature T) : UnorderedFlatSet feature T :=
  { set with table := set.table.clear }

/-- The lookup behind every keyed operation. -/
def find (fuel : Nat) (set : UnorderedFlatSet feature T) (value : T) : Option (Option Slot) :=
  set.table.findByHash fuel (set.hashBuilder value) fun stored => stored = value

def contains (fuel : Nat) (set : UnorderedFlatSet feature T) (value : T) : Option Bool := do
  return (← set.find fuel value).isSome

def get (fuel : Nat) (set : UnorderedFlatSet feature T) (value : T) : Option (Option T) := do
  match ← set.find fuel value with
  | some (gi, si) => return (set.table.bucket gi si).map Prod.fst
  | none => return none

/-! ## Insertion -/

def growAndRehash (fuel : Nat) (set : UnorderedFlatSet feature T) : Option (UnorderedFlatSet feature T) := do
  let newGroups := if set.table.isAllocated then set.table.numGroups * 2 else 1
  let table ← set.table.rehashWith fuel set.hashBuilder newGroups
  return { set with table }

def insertOverflow (fuel : Nat) (set : UnorderedFlatSet feature T) (h : UInt64) (value : T) :
    Option (Bool × UnorderedFlatSet feature T) := do
  match ← set.table.findByHash fuel h fun stored => stored = value with
  | some _ => return (false, set)
  | none =>
      let grown ← (if set.table.maxLoad ≤ set.table.len then set.growAndRehash fuel else some set)
      let (_, table) ← grown.table.insertNoCheck fuel h value ()
      return (true, { set with table })

def insertAtCapacity (fuel : Nat) (set : UnorderedFlatSet feature T) (h : UInt64) (value : T) :
    Option (Bool × UnorderedFlatSet feature T) := do
  match ← set.table.findByHash fuel h fun stored => stored = value with
  | some _ => return (false, set)
  | none =>
      let grown ← set.growAndRehash fuel
      let (_, table) ← grown.table.insertNoCheck fuel h value ()
      return (true, { set with table })

def insert (fuel : Nat) (set : UnorderedFlatSet feature T) (value : T) :
    Option (Bool × UnorderedFlatSet feature T) :=
  let table := if set.table.isAllocated then set.table else set.table.allocate 1
  let h := set.hashBuilder value
  if table.maxLoad ≤ table.len then insertAtCapacity fuel { set with table } h value
  else
    let gi := table.groupIndex h
    match table.findInGroup h (fun stored => stored = value) gi with
    | some _ => some (false, { set with table })
    | none =>
        match (table.matchEmpty gi).head?, table.hasOverflowBit gi (overflowBit h) with
        | some si, false => some (true, { set with table := table.putBucket h gi si value () })
        | _, _ => insertOverflow fuel { set with table } h value

def extend (fuel : Nat) (set : UnorderedFlatSet feature T) : List T → Option (UnorderedFlatSet feature T)
  | [] => some set
  | item :: items => do
      let (_, set) ← set.insert fuel item
      set.extend fuel items

/-! ## Removal and resizing -/

def remove (fuel : Nat) (set : UnorderedFlatSet feature T) (value : T) :
    Option (Bool × UnorderedFlatSet feature T) := do
  let (found, table) ← set.table.removeByHash fuel (set.hashBuilder value) fun stored => stored = value
  return (found.isSome, { set with table })

def take (fuel : Nat) (set : UnorderedFlatSet feature T) (value : T) :
    Option (Option T × UnorderedFlatSet feature T) := do
  let (found, table) ← set.table.removeByHash fuel (set.hashBuilder value) fun stored => stored = value
  return (found.map Prod.fst, { set with table })

def reserve (fuel : Nat) (set : UnorderedFlatSet feature T) (additional : Nat) :
    Option (UnorderedFlatSet feature T) :=
  let needed := set.table.len + additional
  if set.table.isAllocated then
    if set.table.maxLoad < needed ∧ set.table.numGroups < RawTable.groupsForCapacity needed then do
      let table ← set.table.rehashWith fuel set.hashBuilder (RawTable.groupsForCapacity needed)
      return { set with table }
    else some set
  else if 0 < additional then
    some { set with table := set.table.allocate (RawTable.groupsForCapacity needed) }
  else some set

def shrinkToFit (fuel : Nat) (set : UnorderedFlatSet feature T) : Option (UnorderedFlatSet feature T) :=
  if set.table.len = 0 then some { set with table := .new }
  else if RawTable.groupsForCapacity set.table.len < set.table.numGroups then do
    let table ← set.table.rehashWith fuel set.hashBuilder (RawTable.groupsForCapacity set.table.len)
    return { set with table }
  else some set

/-- One round of `retain` on an occupied slot. -/
def retainSlot (f : T → Bool) (hash : T → UInt64) (gi : Nat) (table : RawTable feature T Unit) (si : Nat) :
    RawTable feature T Unit :=
  match table.bucket gi si with
  | some (stored, _) => if f stored then table else table.eraseSlot (hash stored) gi si
  | none => table

/-- The occupied slots of a group are read once, before its first round. -/
def retainGroup (f : T → Bool) (hash : T → UInt64) (table : RawTable feature T Unit) (gi : Nat) :
    RawTable feature T Unit :=
  (table.matchNonEmpty gi).foldl (retainSlot f hash gi) table

def retain (set : UnorderedFlatSet feature T) (f : T → Bool) : UnorderedFlatSet feature T :=
  if set.table.isAllocated then
    { set with table :=
        (List.range (set.table.mask + 1)).foldl (retainGroup f set.hashBuilder) set.table }
  else set

/-! ## Iteration -/

def iter (set : UnorderedFlatSet feature T) : List T :=
  set.table.iterSlots.filterMap fun slot => (set.table.bucket slot.1 slot.2).map Prod.fst

/-- The owning iterator starts at group 0 whether or not the table is allocated. -/
def intoIter (table : RawTable feature T Unit) : List T :=
  table.occupiedSlots.filterMap fun slot => (table.bucket slot.1 slot.2).map Prod.fst

def drain (set : UnorderedFlatSet feature T) : List T × UnorderedFlatSet feature T :=
  (intoIter set.table, { set with table := .new })

def clone (set : UnorderedFlatSet feature T) : UnorderedFlatSet feature T :=
  { set with table := set.table.clone }

/-! ## Set algebra -/

/-- `items.all(|v| other.contains(v) == want)`. -/
def allContained (fuel : Nat) (other : UnorderedFlatSet feature T) (want : Bool) : List T → Option Bool
  | [] => some true
  | value :: items => do
      let found ← other.contains fuel value
      if found = want then allContained fuel other want items else return false

/-- Insert the items for which `other.contains(item) == want`. -/
def insertWhere (fuel : Nat) (other : UnorderedFlatSet feature T) (want : Bool) :
    List T → UnorderedFlatSet feature T → Option (UnorderedFlatSet feature T)
  | [], result => some result
  | item :: items, result => do
      let found ← other.contains fuel item
      if found = want then
        let (_, result) ← result.insert fuel item
        insertWhere fuel other want items result
      else insertWhere fuel other want items result

def isDisjoint (fuel : Nat) (set other : UnorderedFlatSet feature T) : Option Bool :=
  if set.len ≤ other.len then other.allContained fuel false set.iter
  else set.allContained fuel false other.iter

def isSubset (fuel : Nat) (set other : UnorderedFlatSet feature T) : Option Bool :=
  if other.len < set.len then some false else other.allContained fuel true set.iter

def isSuperset (fuel : Nat) (set other : UnorderedFlatSet feature T) : Option Bool :=
  isSubset fuel other set

def eq (fuel : Nat) (set other : UnorderedFlatSet feature T) : Option Bool :=
  if set.len ≠ other.len then some false else other.allContained fuel true set.iter

def union (fuel : Nat) (set other : UnorderedFlatSet feature T) : Option (UnorderedFlatSet feature T) :=
  set.clone.extend fuel other.iter

/-- The result of the other three operations hashes with `S::default()`. -/
def intersection (fuel : Nat) (defaultHash : T → UInt64) (set other : UnorderedFlatSet feature T) :
    Option (UnorderedFlatSet feature T) :=
  let (smaller, larger) := if set.len ≤ other.len then (set, other) else (other, set)
  larger.insertWhere fuel true smaller.iter (withHasher defaultHash)

def difference (fuel : Nat) (defaultHash : T → UInt64) (set other : UnorderedFlatSet feature T) :
    Option (UnorderedFlatSet feature T) :=
  other.insertWhere fuel false set.iter (withHasher defaultHash)

def symmetricDifference (fuel : Nat) (defaultHash : T → UInt64) (set other : UnorderedFlatSet feature T) :
    Option (UnorderedFlatSet feature T) := do
  let result ← other.insertWhere fuel false set.iter (withHasher defaultHash)
  set.insertWhere fuel false other.iter result

end UnorderedFlatSet

/-! ## Runs -/

inductive SetOp (T : Type) where
  | insert (value : T)
  | contains (value : T)
  | get (value : T)
  | remove (value : T)
  | take (value : T)
  | extend (values : List T)
  | retain (f : T → Bool)
  | reserve (additional : Nat)
  | shrinkToFit
  | clear
  | clone
  | drain
  | iter
  | len

inductive SetResult (T : Type) where
  | unit
  | flag (answer : Bool)
  | element (found : Option T)
  | elements (listed : List T)
  | count (length : Nat)

namespace UnorderedFlatSet

variable {feature : ReducedHash} {T : Type} [DecidableEq T]

def step (fuel : Nat) (set : UnorderedFlatSet feature T) :
    SetOp T → Option (SetResult T × UnorderedFlatSet feature T)
  | .insert value => do
      let (fresh, set) ← set.insert fuel value
      return (.flag fresh, set)
  | .contains value => do return (.flag (← set.contains fuel value), set)
  | .get value => do return (.element (← set.get fuel value), set)
  | .remove value => do
      let (found, set) ← set.remove fuel value
      return (.flag found, set)
  | .take value => do
      let (found, set) ← set.take fuel value
      return (.element found, set)
  | .extend values => do return (.unit, ← set.extend fuel values)
  | .retain f => some (.unit, set.retain f)
  | .reserve additional => do return (.unit, ← set.reserve fuel additional)
  | .shrinkToFit => do return (.unit, ← set.shrinkToFit fuel)
  | .clear => some (.unit, set.clear)
  | .clone => some (.unit, set.clone)
  | .drain => some (.elements set.drain.1, set.drain.2)
  | .iter => some (.elements set.iter, set)
  | .len => some (.count set.len, set)

def run (fuel : Nat) (set : UnorderedFlatSet feature T) :
    List (SetOp T) → Option (List (SetResult T) × UnorderedFlatSet feature T)
  | [] => some ([], set)
  | op :: ops => do
      let (result, middle) ← set.step fuel op
      let (results, final) ← middle.run fuel ops
      return (result :: results, final)

end UnorderedFlatSet

/-! ## The reference set -/

section Reference
variable {T : Type} [DecidableEq T]

/-- The list holds every element exactly once. -/
structure Lists (listed : List T) (elements : Finset T) : Prop where
  nodup : listed.Nodup
  mem_iff : ∀ value, value ∈ listed ↔ value ∈ elements

/-- A finite set answers an operation with a result and becomes another set. -/
def SetAnswers (elements : Finset T) : SetOp T → SetResult T → Finset T → Prop
  | .insert value, result, after =>
      result = .flag (decide (value ∉ elements)) ∧ after = insert value elements
  | .contains value, result, after => result = .flag (decide (value ∈ elements)) ∧ after = elements
  | .get value, result, after =>
      result = .element (if value ∈ elements then some value else none) ∧ after = elements
  | .remove value, result, after =>
      result = .flag (decide (value ∈ elements)) ∧ after = elements.erase value
  | .take value, result, after =>
      result = .element (if value ∈ elements then some value else none) ∧ after = elements.erase value
  | .extend values, result, after => result = .unit ∧ after = elements ∪ values.toFinset
  | .retain f, result, after => result = .unit ∧ after = elements.filter fun value => f value = true
  | .reserve _, result, after => result = .unit ∧ after = elements
  | .shrinkToFit, result, after => result = .unit ∧ after = elements
  | .clear, result, after => result = .unit ∧ after = ∅
  | .clone, result, after => result = .unit ∧ after = elements
  | .drain, result, after => (∃ listed, Lists listed elements ∧ result = .elements listed) ∧ after = ∅
  | .iter, result, after =>
      (∃ listed, Lists listed elements ∧ result = .elements listed) ∧ after = elements
  | .len, result, after => result = .count elements.card ∧ after = elements

inductive SetAnswersAll : Finset T → List (SetOp T) → List (SetResult T) → Finset T → Prop where
  | nil {elements} : SetAnswersAll elements [] [] elements
  | cons {elements middle final op result ops results} :
      SetAnswers elements op result middle → SetAnswersAll middle ops results final →
      SetAnswersAll elements (op :: ops) (result :: results) final

end Reference

end Optimap.FlatSet
