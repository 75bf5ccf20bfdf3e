import Optimap.Hash.Components
import Optimap.Map.RawTableApi

/-!
# The engine of the set

`UnorderedFlatSet` has its own table: fifteen slots per group, sixteen metadata
bytes with the overflow byte last, one layout and no storage parameter. It is
separate code from the overflow-bit table of the maps.
-/

set_option autoImplicit false

namespace Optimap.FlatSet

open Hash Map

/-- Number of element slots per group. -/
def GROUP_SIZE : Nat := 15

/-- Fifteen hash bytes and one overflow byte. -/
def META_GROUP_BYTES : Nat := 16

def MAX_LOAD_FACTOR_NUM : Nat := 7
def MAX_LOAD_FACTOR_DEN : Nat := 8

def maxLoadForCapacity (capacity : Nat) : Nat := capacity * MAX_LOAD_FACTOR_NUM / MAX_LOAD_FACTOR_DEN

def reducedHash (feature : ReducedHash) (h : UInt64) : UInt8 := hashTag feature h

/-- `1u8 << (h & 7)`. -/
def overflowBit (h : UInt64) : UInt8 := channelBit h

structure RawTable (feature : ReducedHash) (K V : Type) where
  mask : Nat
  /-- The metadata bytes; the sentinel of an unallocated table is all zeros. -/
  metadata : Ctrl
  buckets : Nat → Option (K × V)
  len : Nat
  maxLoad : Nat
  shift : Nat

namespace RawTable

variable {feature : ReducedHash} {K V : Type}

def new : RawTable feature K V := ⟨0, .sentinel, fun _ => none, 0, 0, 64⟩

def numGroups (table : RawTable feature K V) : Nat := table.mask + 1

def isAllocated (table : RawTable feature K V) : Bool := 0 < table.maxLoad

def capacity (table : RawTable feature K V) : Nat :=
  if table.isAllocated then table.numGroups * GROUP_SIZE else 0

def groupsForCapacity (capacity : Nat) : Nat :=
  let minSlots := (capacity * MAX_LOAD_FACTOR_DEN + MAX_LOAD_FACTOR_NUM - 1) / MAX_LOAD_FACTOR_NUM
  let minGroups := (minSlots + GROUP_SIZE - 1) / GROUP_SIZE
  nextPowerOfTwo minGroups

/-- The group count is a power of two, so its trailing zeros are its logarithm. -/
def allocate (table : RawTable feature K V) (numGroups : Nat) : RawTable feature K V :=
  { mask := numGroups - 1
    metadata := .alloc fun _ => 0
    buckets := fun _ => none
    len := table.len
    maxLoad := maxLoadForCapacity (numGroups * GROUP_SIZE)
    shift := 64 - numGroups.log2 }

def withCapacity (capacity : Nat) : RawTable feature K V :=
  if capacity = 0 then new else new.allocate (groupsForCapacity capacity)

def groupIndex (table : RawTable feature K V) (h : UInt64) : Nat :=
  (h >>> UInt64.ofNat table.shift).toNat &&& table.mask

def bucket (table : RawTable feature K V) (gi si : Nat) : Option (K × V) :=
  table.buckets (gi * GROUP_SIZE + si)

/-! ## Group operations -/

def metaByte (table : RawTable feature K V) (gi si : Nat) : UInt8 :=
  table.metadata.read (gi * META_GROUP_BYTES + si)

def matchByte (table : RawTable feature K V) (gi : Nat) (byte : UInt8) : List Nat :=
  (List.range GROUP_SIZE).filter fun si => table.metaByte gi si == byte

def matchEmpty (table : RawTable feature K V) (gi : Nat) : List Nat := table.matchByte gi EMPTY

def matchNonEmpty (table : RawTable feature K V) (gi : Nat) : List Nat :=
  (List.range GROUP_SIZE).filter fun si => table.metaByte gi si != EMPTY

def hasOverflowBit (table : RawTable feature K V) (gi : Nat) (bit : UInt8) : Bool :=
  table.metaByte gi GROUP_SIZE &&& bit != 0

def setMeta (table : RawTable feature K V) (gi si : Nat) (byte : UInt8) : RawTable feature K V :=
  { table with metadata := table.metadata.write (gi * META_GROUP_BYTES + si) byte }

def setOverflowBit (table : RawTable feature K V) (gi : Nat) (bit : UInt8) : RawTable feature K V :=
  table.setMeta gi GROUP_SIZE (table.metaByte gi GROUP_SIZE ||| bit)

/-- Tag a slot, write its bucket and count it. -/
def putBucket (table : RawTable feature K V) (h : UInt64) (gi si : Nat) (key : K) (value : V) :
    RawTable feature K V :=
  { table.setMeta gi si (reducedHash feature h) with
    buckets := setCell table.buckets (gi * GROUP_SIZE + si) (some (key, value))
    len := table.len + 1 }

/-- The first tag match of a group whose key satisfies `eq`. -/
def findInGroup (table : RawTable feature K V) (h : UInt64) (eq : K → Bool) (gi : Nat) : Option Nat :=
  (table.matchByte gi (reducedHash feature h)).find? fun si =>
    (table.bucket gi si).any fun bucket => eq bucket.1

/-! ## Core operations -/

def findLoop (table : RawTable feature K V) (h : UInt64) (eq : K → Bool) :
    Nat → Nat → Nat → Option (Option Slot)
  | 0, _, _ => none
  | fuel + 1, gi, probe =>
      match table.findInGroup h eq gi with
      | some si => some (some (gi, si))
      | none =>
          if table.hasOverflowBit gi (overflowBit h) then
            table.findLoop h eq fuel ((gi + (probe + 1)) &&& table.mask) (probe + 1)
          else some none

def findByHash (fuel : Nat) (table : RawTable feature K V) (h : UInt64) (eq : K → Bool) :
    Option (Option Slot) :=
  table.findLoop h eq fuel (table.groupIndex h) 0

/-- Clear a slot, uncount it, and lower `max_load` when the home group of the hash
has its bit set. -/
def eraseSlot (table : RawTable feature K V) (h : UInt64) (gi si : Nat) : RawTable feature K V :=
  let cleared := { table.setMeta gi si EMPTY with len := table.len - 1 }
  if cleared.hasOverflowBit (cleared.groupIndex h) (overflowBit h) then
    { cleared with maxLoad := cleared.maxLoad - 1 }
  else cleared

def removeByHash (fuel : Nat) (table : RawTable feature K V) (h : UInt64) (eq : K → Bool) :
    Option (Option (K × V) × RawTable feature K V) := do
  match ← table.findByHash fuel h eq with
  | some (gi, si) => return (table.bucket gi si, table.eraseSlot h gi si)
  | none => return (none, table)

def insertLoop (h : UInt64) (key : K) (value : V) :
    Nat → RawTable feature K V → Nat → Nat → Option (Slot × RawTable feature K V)
  | 0, _, _, _ => none
  | fuel + 1, table, gi, probe =>
      match (table.matchEmpty gi).head? with
      | some si => some ((gi, si), table.putBucket h gi si key value)
      | none =>
          let table := table.setOverflowBit gi (overflowBit h)
          insertLoop h key value fuel table ((gi + (probe + 1)) &&& table.mask) (probe + 1)

def insertNoCheck (fuel : Nat) (table : RawTable feature K V) (h : UInt64) (key : K) (value : V) :
    Option (Slot × RawTable feature K V) :=
  insertLoop h key value fuel table (table.groupIndex h) 0

def reinsert (fuel : Nat) (hash : K → UInt64) :
    List (K × V) → RawTable feature K V → Option (RawTable feature K V)
  | [], table => some table
  | (key, value) :: rest, table => do
      let (_, table) ← table.insertNoCheck fuel (hash key) key value
      reinsert fuel hash rest table

/-- `match_non_empty` over all groups, in order. -/
def occupiedSlots (table : RawTable feature K V) : List Slot :=
  (List.range table.numGroups).flatMap fun gi => (table.matchNonEmpty gi).map fun si => (gi, si)

def rehashWith (fuel : Nat) (hash : K → UInt64) (table : RawTable feature K V) (newNumGroups : Nat) :
    Option (RawTable feature K V) :=
  let detached : RawTable feature K V := { (new : RawTable feature K V) with shift := table.shift }
  let fresh := detached.allocate newNumGroups
  if table.isAllocated then
    reinsert fuel hash (table.occupiedSlots.filterMap fun slot => table.bucket slot.1 slot.2) fresh
  else some fresh

def clear (table : RawTable feature K V) : RawTable feature K V :=
  if table.isAllocated then
    { table with
      metadata := table.metadata.zero (table.numGroups * META_GROUP_BYTES)
      len := 0
      maxLoad := maxLoadForCapacity (table.numGroups * GROUP_SIZE) }
  else table

/-- The mask of group 0 is taken as empty on an unallocated table. -/
def iterSlots (table : RawTable feature K V) : List Slot :=
  (List.range table.numGroups).flatMap fun gi =>
    if gi = 0 ∧ table.isAllocated = false then []
    else (table.matchNonEmpty gi).map fun si => (gi, si)

/-- The metadata is copied, then each occupied bucket is cloned. -/
def clone (table : RawTable feature K V) : RawTable feature K V :=
  if table.isAllocated then
    let fresh : RawTable feature K V := new.allocate table.numGroups
    { fresh with
      metadata := .alloc fun offset =>
        if offset < table.numGroups * META_GROUP_BYTES then table.metadata.read offset
        else fresh.metadata.read offset
      buckets := table.occupiedSlots.foldl (fun buckets slot =>
        setCell buckets (slot.1 * GROUP_SIZE + slot.2) (table.bucket slot.1 slot.2)) fresh.buckets
      len := table.len
      maxLoad := table.maxLoad }
  else new

end RawTable

end Optimap.FlatSet
