import Optimap.Lib.Probing
import Optimap.Map.RawTableApi
import Optimap.Overflow.Layout

/-!
# The overflow-bit hash table

The engine behind the UFM, Splitsies and Gaps designs, generic over the group
layout and the slot storage. A lookup leaves a group only while the overflow bit
of its channel is set there, so every insertion that skips a full group sets
that bit.
-/

set_option autoImplicit false

namespace Optimap.Overflow

open Lib Hash Map

structure RawTable (L : GroupLayout) (S : Type → Type → Type) (K V : Type) where
  mask : Nat
  ctrl : Ctrl
  /-- The slots, addressed by bucket index. -/
  buckets : S K V
  len : Nat
  maxLoad : Nat
  shift : Nat

inductive FindOrLocateResult where
  | found (slot : Slot)
  | insertSlot (slot : Slot) (fullMask : UInt8)
  | notFound

namespace RawTable

variable {L : GroupLayout} {S : Type → Type → Type} [KvStorage S] {K V : Type}

def new : RawTable L S K V := ⟨0, .sentinel, KvStorage.empty, 0, 0, 64⟩

/-- `allocate(num_groups)`. The group count is a power of two, so its trailing
zeros are its logarithm. `len` is left as it was. -/
def allocate (table : RawTable L S K V) (numGroups : Nat) : RawTable L S K V :=
  { mask := numGroups - 1
    ctrl := .alloc fun _ => 0
    buckets := KvStorage.empty
    len := table.len
    maxLoad := L.maxLoadFor numGroups
    shift := 64 - numGroups.log2 }

def withCapacity (capacity : Nat) : RawTable L S K V :=
  if capacity = 0 then new else new.allocate (L.groupsForCapacity capacity)

def numGroups (table : RawTable L S K V) : Nat := table.mask + 1

def isAllocated (table : RawTable L S K V) : Bool := 0 < table.maxLoad

def capacity (table : RawTable L S K V) : Nat :=
  if table.isAllocated then table.numGroups * L.groupSize else 0

def groupIndex (table : RawTable L S K V) (h : UInt64) : Nat :=
  match L.groupIndexRegion with
  | .low => h.toNat &&& table.mask
  | .high => (h >>> UInt64.ofNat table.shift).toNat &&& table.mask

/-! ## Group operations -/

def metaByte (table : RawTable L S K V) (gi si : Nat) : UInt8 := table.ctrl.read (L.metaOffset gi si)

/-- The slots of a group whose metadata byte is `byte`, lowest first. -/
def matchByte (table : RawTable L S K V) (gi : Nat) (byte : UInt8) : List Nat :=
  (List.range L.groupSize).filter fun si => table.metaByte gi si == byte

def matchEmpty (table : RawTable L S K V) (gi : Nat) : List Nat := table.matchByte gi EMPTY

def matchNonEmpty (table : RawTable L S K V) (gi : Nat) : List Nat :=
  (List.range L.groupSize).filter fun si => table.metaByte gi si != EMPTY

def setMeta (table : RawTable L S K V) (gi si : Nat) (byte : UInt8) : RawTable L S K V :=
  { table with ctrl := table.ctrl.write (L.metaOffset gi si) byte }

def hasOverflowBit (table : RawTable L S K V) (gi : Nat) (channel : UInt8) : Bool :=
  table.ctrl.read (L.overflowOffset table.mask gi) &&& L.overflowMask gi channel != 0

def setOverflowBit (table : RawTable L S K V) (gi : Nat) (channel : UInt8) : RawTable L S K V :=
  let offset := L.overflowOffset table.mask gi
  { table with
    ctrl := table.ctrl.write offset (table.ctrl.read offset ||| L.overflowMask gi channel) }

def key (table : RawTable L S K V) (slot : Slot) : Option K :=
  KvStorage.key table.buckets (L.bucketIndex slot.1 slot.2)

def value (table : RawTable L S K V) (slot : Slot) : Option V :=
  KvStorage.value table.buckets (L.bucketIndex slot.1 slot.2)

def writeValue (table : RawTable L S K V) (slot : Slot) (value : V) : RawTable L S K V :=
  { table with buckets := KvStorage.writeValue table.buckets (L.bucketIndex slot.1 slot.2) value }

/-- Tag a slot and move the pair into it. -/
def fillSlot (table : RawTable L S K V) (h : UInt64) (slot : Slot) (key : K) (value : V) :
    RawTable L S K V :=
  { table.setMeta slot.1 slot.2 (L.tags.tag h) with
    buckets := KvStorage.write table.buckets (L.bucketIndex slot.1 slot.2) key value
    len := table.len + 1 }

/-- The first tag match of a group whose key satisfies `eq`. -/
def findInGroup (table : RawTable L S K V) (h : UInt64) (eq : K → Bool) (gi : Nat) : Option Nat :=
  (table.matchByte gi (L.tags.tag h)).find? fun si => (table.key (gi, si)).any eq

/-- The next group of the probe sequence. -/
def nextGroup (table : RawTable L S K V) (gi probe : Nat) : Nat := (gi + probe) &&& table.mask

/-! ## Lookup -/

def findLoop (table : RawTable L S K V) (h : UInt64) (eq : K → Bool) :
    Nat → Nat → Nat → Option (Option Slot)
  | 0, _, _ => none
  | fuel + 1, gi, probe =>
      match table.findInGroup h eq gi with
      | some si => some (some (gi, si))
      | none =>
          if table.hasOverflowBit gi (L.tags.overflowChannel h) then
            findLoop table h eq fuel (table.nextGroup gi (probe + 1)) (probe + 1)
          else some none

def findByHash (fuel : Nat) (table : RawTable L S K V) (h : UInt64) (eq : K → Bool) :
    Option (Option Slot) :=
  table.findLoop h eq fuel (table.groupIndex h) 0

/-- The cold loop of `find_or_locate`, from probe position 1 on. -/
def findOrLocateOverflow (table : RawTable L S K V) (h : UInt64) (eq : K → Bool) :
    Nat → Nat → Nat → Option Slot → UInt8 → Option FindOrLocateResult
  | 0, _, _, _, _ => none
  | fuel + 1, gi, probe, firstEmpty, fullMask =>
      match table.findInGroup h eq gi with
      | some si => some (.found (gi, si))
      | none =>
          let located := firstEmpty.or ((table.matchEmpty gi).head?.map fun si => (gi, si))
          let fullMask := if located.isNone && probe < 8 then fullMask ||| 1 <<< UInt8.ofNat probe
            else fullMask
          if table.hasOverflowBit gi (L.tags.overflowChannel h) then
            findOrLocateOverflow table h eq fuel (table.nextGroup gi (probe + 1)) (probe + 1)
              located fullMask
          else match located with
            | some slot => some (.insertSlot slot fullMask)
            | none => some .notFound

def findOrLocate (fuel : Nat) (table : RawTable L S K V) (h : UInt64) (eq : K → Bool) :
    Option FindOrLocateResult :=
  let gi := table.groupIndex h
  match table.findInGroup h eq gi with
  | some si => some (.found (gi, si))
  | none =>
      let overflowed := table.hasOverflowBit gi (L.tags.overflowChannel h)
      match (table.matchEmpty gi).head? with
      | some si =>
          if overflowed then
            table.findOrLocateOverflow h eq fuel (table.nextGroup gi 1) 1 (some (gi, si)) 0
          else some (.insertSlot (gi, si) 0)
      | none =>
          if overflowed then
            table.findOrLocateOverflow h eq fuel (table.nextGroup gi 1) 1 none 1
          else some .notFound

/-! ## Insertion -/

def insertLoop (h : UInt64) (key : K) (value : V) :
    Nat → RawTable L S K V → Nat → Nat → Option (Slot × RawTable L S K V)
  | 0, _, _, _ => none
  | fuel + 1, table, gi, probe =>
      match (table.matchEmpty gi).head? with
      | some si => some ((gi, si), table.fillSlot h (gi, si) key value)
      | none =>
          let table := table.setOverflowBit gi (L.tags.overflowChannel h)
          insertLoop h key value fuel table (table.nextGroup gi (probe + 1)) (probe + 1)

def insertNoCheck (fuel : Nat) (table : RawTable L S K V) (h : UInt64) (key : K) (value : V) :
    Option (Slot × RawTable L S K V) :=
  insertLoop h key value fuel table (table.groupIndex h) 0

/-- Set the bit on the groups of `mask`, whose bit `i` stands for probe position
`probe + i`. The mask is one byte, so eight rounds empty it. -/
def setFullMask (channel : UInt8) : Nat → RawTable L S K V → Nat → Nat → UInt8 → RawTable L S K V
  | 0, table, _, _, _ => table
  | rounds + 1, table, gi, probe, mask =>
      if mask = 0 then table
      else
        let table := if mask &&& 1 ≠ 0 then table.setOverflowBit gi channel else table
        setFullMask channel rounds table (table.nextGroup gi (probe + 1)) (probe + 1) (mask >>> 1)

def insertAt (table : RawTable L S K V) (h : UInt64) (slot : Slot) (key : K) (value : V)
    (fullMask : UInt8) : RawTable L S K V :=
  (setFullMask (L.tags.overflowChannel h) 8 table (table.groupIndex h) 0 fullMask).fillSlot
    h slot key value

/-! ## Iteration and rehashing -/

/-- `match_non_empty` over all groups, in order. -/
def occupiedSlots (table : RawTable L S K V) : List Slot :=
  (List.range table.numGroups).flatMap fun gi => (table.matchNonEmpty gi).map fun si => (gi, si)

/-- `iter_slots`: the mask of group 0 is taken as empty on an unallocated table. -/
def iterSlots (table : RawTable L S K V) : List Slot :=
  (List.range table.numGroups).flatMap fun gi =>
    if gi = 0 ∧ table.maxLoad = 0 then []
    else (table.matchNonEmpty gi).map fun si => (gi, si)

/-- `KvStorage::read`. -/
def readSlot (table : RawTable L S K V) (slot : Slot) : Option (K × V) :=
  (table.key slot).bind fun key => (table.value slot).map fun value => (key, value)

def reinsert (fuel : Nat) (hash : K → UInt64) :
    List (K × V) → RawTable L S K V → Option (RawTable L S K V)
  | [], table => some table
  | (key, value) :: rest, table => do
      let (_, table) ← insertNoCheck fuel table (hash key) key value
      reinsert fuel hash rest table

/-- The fields of the table once its old allocation is taken out of it. -/
def detached (table : RawTable L S K V) : RawTable L S K V :=
  ⟨0, .sentinel, KvStorage.empty, 0, 0, table.shift⟩

def rehashWith (fuel : Nat) (hash : K → UInt64) (table : RawTable L S K V) (newNumGroups : Nat) :
    Option (RawTable L S K V) :=
  let fresh := table.detached.allocate newNumGroups
  if table.isAllocated then reinsert fuel hash (table.occupiedSlots.filterMap table.readSlot) fresh
  else some fresh

def growAndRehash (fuel : Nat) (hash : K → UInt64) (table : RawTable L S K V) :
    Option (RawTable L S K V) :=
  rehashWith fuel hash table (if table.maxLoad = 0 then 1 else (table.mask + 1) * 2)

/-! ## The table interface -/

section Keyed
variable [DecidableEq K]

def findByHashEq (fuel : Nat) (table : RawTable L S K V) (h : UInt64) (key : K) :
    Option (Option Slot) :=
  table.findByHash fuel h fun stored => stored = key

/-- `mem::replace` through the value pointer. -/
def replaceValue (table : RawTable L S K V) (slot : Slot) (value : V) :
    Option V × RawTable L S K V :=
  (table.value slot, table.writeValue slot value)

def insertOverflow (fuel : Nat) (hash : K → UInt64) (table : RawTable L S K V) (h : UInt64) (key : K)
    (value : V) : Option (Option V × RawTable L S K V) := do
  match ← table.findByHashEq fuel h key with
  | some slot => return table.replaceValue slot value
  | none =>
      let grown ← (if table.maxLoad ≤ table.len then table.growAndRehash fuel hash else some table)
      let (_, inserted) ← grown.insertNoCheck fuel h key value
      return (none, inserted)

def insertAtCapacity (fuel : Nat) (hash : K → UInt64) (table : RawTable L S K V) (h : UInt64)
    (key : K) (value : V) : Option (Option V × RawTable L S K V) := do
  match ← table.findByHashEq fuel h key with
  | some slot => return table.replaceValue slot value
  | none =>
      let grown ← table.growAndRehash fuel hash
      let (_, inserted) ← grown.insertNoCheck fuel h key value
      return (none, inserted)

def insertOrReplace (fuel : Nat) (hash : K → UInt64) (table : RawTable L S K V) (key : K)
    (value : V) : Option (Option V × RawTable L S K V) :=
  let table := if table.maxLoad = 0 then table.allocate 1 else table
  let h := hash key
  if table.maxLoad ≤ table.len then table.insertAtCapacity fuel hash h key value
  else
    let gi := table.groupIndex h
    match table.findInGroup h (fun stored => stored = key) gi with
    | some si => some (table.replaceValue (gi, si) value)
    | none =>
        match (table.matchEmpty gi).head?,
            table.hasOverflowBit gi (L.tags.overflowChannel h) with
        | some si, false => some (none, table.fillSlot h (gi, si) key value)
        | _, _ => table.insertOverflow fuel hash h key value

def findForEntry (fuel : Nat) (table : RawTable L S K V) (h : UInt64) (key : K) :
    Option EntryProbe :=
  if table.maxLoad ≤ table.len then do
    match ← table.findByHashEq fuel h key with
    | some slot => return .found slot
    | none => return .vacant none
  else
    let gi := table.groupIndex h
    match table.findInGroup h (fun stored => stored = key) gi with
    | some si => some (.found (gi, si))
    | none =>
        match (table.matchEmpty gi).head?,
            table.hasOverflowBit gi (L.tags.overflowChannel h) with
        | some si, false => some (.vacant (some ((gi, si), 0)))
        | _, _ => do
            match ← table.findOrLocate fuel h fun stored => stored = key with
            | .found slot => return .found slot
            | .insertSlot slot mask => return .vacant (some (slot, mask))
            | .notFound => return .vacant none

end Keyed

def ensureCapacity (fuel : Nat) (hash : K → UInt64) (table : RawTable L S K V) :
    Option (RawTable L S K V) :=
  if table.maxLoad ≤ table.len then
    rehashWith fuel hash table (if table.maxLoad = 0 then 1 else (table.mask + 1) * 2)
  else some table

/-- Clear the slot, then lower `max_load` when the key's home group has its
channel's bit set. -/
def eraseSlot (table : RawTable L S K V) (h : UInt64) (slot : Slot) : RawTable L S K V :=
  let cleared := { table.setMeta slot.1 slot.2 EMPTY with len := table.len - 1 }
  if cleared.hasOverflowBit (cleared.groupIndex h) (L.tags.overflowChannel h) then
    { cleared with maxLoad := table.maxLoad - 1 }
  else cleared

def removeByHash (fuel : Nat) (table : RawTable L S K V) (h : UInt64) (eq : K → Bool) :
    Option (Option (K × V) × RawTable L S K V) := do
  match ← table.findByHash fuel h eq with
  | some slot => return (table.readSlot slot, table.eraseSlot h slot)
  | none => return (none, table)

def clear (table : RawTable L S K V) : RawTable L S K V :=
  if table.maxLoad = 0 then table
  else
    { table with
      ctrl := table.ctrl.zero (L.ctrlBytes table.numGroups)
      len := 0
      maxLoad := L.maxLoadFor table.numGroups }

def reserve (fuel : Nat) (hash : K → UInt64) (table : RawTable L S K V) (additional : Nat) :
    Option (RawTable L S K V) :=
  let needed := table.len + additional
  if table.maxLoad = 0 then
    some (if 0 < additional then table.allocate (L.groupsForCapacity needed) else table)
  else if table.maxLoad < needed ∧ table.mask + 1 < L.groupsForCapacity needed then
    rehashWith fuel hash table (L.groupsForCapacity needed)
  else some table

def shrinkToFit (fuel : Nat) (hash : K → UInt64) (table : RawTable L S K V) :
    Option (RawTable L S K V) :=
  if table.len = 0 then some new
  else if L.groupsForCapacity table.len < table.mask + 1 then
    rehashWith fuel hash table (L.groupsForCapacity table.len)
  else some table

/-- `clone_slot` for each occupied slot. -/
def cloneSlot (source : RawTable L S K V) (store : S K V) (slot : Slot) : S K V :=
  match source.readSlot slot with
  | some (key, value) => KvStorage.write store (L.bucketIndex slot.1 slot.2) key value
  | none => store

def cloneTable (table : RawTable L S K V) : RawTable L S K V :=
  if table.maxLoad = 0 then new
  else
    let fresh := (new : RawTable L S K V).allocate table.numGroups
    { fresh with
      ctrl := .alloc fun offset =>
        if offset < L.ctrlBytes table.numGroups then table.ctrl.read offset
        else fresh.ctrl.read offset
      buckets := table.occupiedSlots.foldl table.cloneSlot fresh.buckets
      len := table.len
      maxLoad := table.maxLoad }

instance [DecidableEq K] : RawTableApi (RawTable L S K V) K V where
  new := new
  withCapacity := withCapacity
  len := RawTable.len
  capacity := capacity
  isAllocated := isAllocated
  clear := clear
  key := key
  value := value
  writeValue := writeValue
  findByHash := findByHash
  insertOrReplace := insertOrReplace
  findForEntry := findForEntry
  insertAt := insertAt
  insertNoCheck := insertNoCheck
  ensureCapacity := ensureCapacity
  removeByHash := removeByHash
  eraseSlot := eraseSlot
  reserve := reserve
  shrinkToFit := shrinkToFit
  iterSlots := iterSlots
  intoIter table := table.iterSlots.filterMap table.readSlot
  cloneTable := cloneTable

end RawTable

end Optimap.Overflow
