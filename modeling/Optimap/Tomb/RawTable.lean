import Optimap.Hash.Components
import Optimap.Lib.Probing
import Optimap.Map.RawTableApi

/-!
# The tombstone hash tables

`in_place_overflow` (16 slots per group) and `ipo64` (64 slots per group).
Deleted slots keep a tombstone, a lookup stops at the first group with an EMPTY
slot, and `growth_left` counts how many EMPTY slots may still be used up.
-/

set_option autoImplicit false

namespace Optimap.Tomb

open Lib Hash Map

/-- Metadata byte of a deleted slot. -/
def TOMBSTONE : UInt8 := 1

structure TombstoneTag where
  reducedHash : UInt64 → UInt8
  ne_empty : ∀ h, reducedHash h ≠ EMPTY
  ne_tombstone : ∀ h, reducedHash h ≠ TOMBSTONE

/-- `if b < 2 { b + 2 } else { b }`. -/
def aboveReserved (b : UInt8) : UInt8 := if b < 2 then b + 2 else b

theorem two_le_aboveReserved (b : UInt8) : 2 ≤ (aboveReserved b).toNat := by
  unfold aboveReserved
  split
  · rename_i below
    rw [UInt8.lt_iff_toNat_lt] at below
    have small : b.toNat < 2 := below
    rw [UInt8.toNat_add]
    have two : (2 : UInt8).toNat = 2 := rfl
    omega
  · rename_i above
    rw [UInt8.lt_iff_toNat_lt] at above
    exact Nat.le_of_not_lt above

theorem aboveReserved_ne {b reserved : UInt8} (small : reserved.toNat < 2) :
    aboveReserved b ≠ reserved := by
  intro same
  have bound := two_le_aboveReserved b
  rw [same] at bound
  omega

def lowTomb : TombstoneTag where
  reducedHash h := aboveReserved h.toUInt8
  ne_empty _ := aboveReserved_ne (by decide)
  ne_tombstone _ := aboveReserved_ne (by decide)

def highTomb : TombstoneTag where
  reducedHash h := aboveReserved (h >>> 56).toUInt8
  ne_empty _ := aboveReserved_ne (by decide)
  ne_tombstone _ := aboveReserved_ne (by decide)

theorem or_high_ne {b reserved : UInt8} (small : reserved.toNat < 128) : b ||| 0x80 ≠ reserved := by
  intro same
  have numbers := congrArg UInt8.toNat same
  rw [UInt8.toNat_or] at numbers
  have bound : (0x80 : UInt8).toNat ≤ b.toNat ||| (0x80 : UInt8).toNat := Nat.right_le_or
  have high : (0x80 : UInt8).toNat = 128 := rfl
  omega

/-- `HighTag128` as a tombstone tag: the top bit is always set. -/
def highTag128 : TombstoneTag where
  reducedHash h := (h >>> 56).toUInt8 ||| 0x80
  ne_empty _ := or_high_ne (by decide)
  ne_tombstone _ := or_high_ne (by decide)

/-- The two engines. -/
inductive Engine where
  | inPlaceOverflow
  | ipo64
  deriving DecidableEq

namespace Engine

def groupSize : Engine → Nat
  | .inPlaceOverflow => 16
  | .ipo64 => 64

/-- `in_place_overflow` addresses a slot by `(gi << 4) | si`. -/
def bucketIndex : Engine → Nat → Nat → Nat
  | .inPlaceOverflow, gi, si => gi <<< 4 ||| si
  | .ipo64, gi, si => gi * 64 + si

/-- The low bits of the hash, or its high bits by `wrapping_shr`. -/
def groupIndex : Engine → Nat → Nat → UInt64 → Nat
  | .inPlaceOverflow, mask, _, h => h.toNat &&& mask
  | .ipo64, mask, shift, h => (h >>> UInt64.ofNat shift).toNat &&& mask

/-- `max_load > 0`, or that `metadata` is not the sentinel. -/
def isAllocated : Engine → Nat → Ctrl → Bool
  | .inPlaceOverflow, maxLoad, _ => 0 < maxLoad
  | .ipo64, _, .sentinel => false
  | .ipo64, _, .alloc _ => true

def maxLoadFor (engine : Engine) (numGroups : Nat) : Nat :=
  maxLoadForCapacity (numGroups * engine.groupSize) 7 8

def groupsForCapacity (engine : Engine) (capacity : Nat) : Nat :=
  groupsFor engine.groupSize 7 8 capacity

end Engine

/-- The fields of both tables. `max_load` is kept by `in_place_overflow` only and
`shift` by `ipo64` only; neither engine reads the other's. -/
structure RawTable (engine : Engine) (tag : TombstoneTag) (S : Type → Type → Type) (K V : Type) where
  mask : Nat
  ctrl : Ctrl
  buckets : S K V
  len : Nat
  growthLeft : Nat
  maxLoad : Nat
  shift : Nat

inductive ProbeResult where
  | found (slot : Slot)
  | insertSlot (slot : Slot) (mask : UInt8)
  | notFound

namespace RawTable

variable {engine : Engine} {tag : TombstoneTag} {S : Type → Type → Type} [KvStorage S] {K V : Type}

def new : RawTable engine tag S K V := ⟨0, .sentinel, KvStorage.empty, 0, 0, 0, 64⟩

/-- `len` is left as it was. -/
def allocate (table : RawTable engine tag S K V) (numGroups : Nat) : RawTable engine tag S K V :=
  { mask := numGroups - 1
    ctrl := .alloc fun _ => 0
    buckets := KvStorage.empty
    len := table.len
    growthLeft := engine.maxLoadFor numGroups
    maxLoad := engine.maxLoadFor numGroups
    shift := 64 - numGroups.log2 }

def withCapacity (capacity : Nat) : RawTable engine tag S K V :=
  if capacity = 0 then new else new.allocate (engine.groupsForCapacity capacity)

def numGroups (table : RawTable engine tag S K V) : Nat := table.mask + 1

def isAllocated (table : RawTable engine tag S K V) : Bool :=
  engine.isAllocated table.maxLoad table.ctrl

def capacity (table : RawTable engine tag S K V) : Nat :=
  if table.isAllocated then table.numGroups * engine.groupSize else 0

def groupIndex (table : RawTable engine tag S K V) (h : UInt64) : Nat :=
  engine.groupIndex table.mask table.shift h

/-! ## Group operations -/

def metaByte (table : RawTable engine tag S K V) (gi si : Nat) : UInt8 :=
  table.ctrl.read (gi * engine.groupSize + si)

/-- The slots of a group whose metadata byte satisfies the test, lowest first. -/
def matchWhere (table : RawTable engine tag S K V) (gi : Nat) (test : UInt8 → Bool) : List Nat :=
  (List.range engine.groupSize).filter fun si => test (table.metaByte gi si)

def matchByte (table : RawTable engine tag S K V) (gi : Nat) (byte : UInt8) : List Nat :=
  table.matchWhere gi (· == byte)

def matchEmpty (table : RawTable engine tag S K V) (gi : Nat) : List Nat := table.matchByte gi EMPTY

def matchOccupied (table : RawTable engine tag S K V) (gi : Nat) : List Nat :=
  table.matchWhere gi fun byte => byte != EMPTY && byte != TOMBSTONE

def setMeta (table : RawTable engine tag S K V) (slot : Slot) (byte : UInt8) :
    RawTable engine tag S K V :=
  { table with ctrl := table.ctrl.write (slot.1 * engine.groupSize + slot.2) byte }

def key (table : RawTable engine tag S K V) (slot : Slot) : Option K :=
  KvStorage.key table.buckets (engine.bucketIndex slot.1 slot.2)

def value (table : RawTable engine tag S K V) (slot : Slot) : Option V :=
  KvStorage.value table.buckets (engine.bucketIndex slot.1 slot.2)

def writeValue (table : RawTable engine tag S K V) (slot : Slot) (value : V) :
    RawTable engine tag S K V :=
  { table with
    buckets := KvStorage.writeValue table.buckets (engine.bucketIndex slot.1 slot.2) value }

def readSlot (table : RawTable engine tag S K V) (slot : Slot) : Option (K × V) :=
  (table.key slot).bind fun key => (table.value slot).map fun value => (key, value)

/-- Tag a slot and move the pair into it. -/
def putSlot (table : RawTable engine tag S K V) (h : UInt64) (slot : Slot) (key : K) (value : V) :
    RawTable engine tag S K V :=
  { table.setMeta slot (tag.reducedHash h) with
    buckets := KvStorage.write table.buckets (engine.bucketIndex slot.1 slot.2) key value }

def findInGroup (table : RawTable engine tag S K V) (h : UInt64) (eq : K → Bool) (gi : Nat) :
    Option Nat :=
  (table.matchByte gi (tag.reducedHash h)).find? fun si => (table.key (gi, si)).any eq

def nextGroup (table : RawTable engine tag S K V) (gi probe : Nat) : Nat :=
  (gi + probe) &&& table.mask

/-! ## Probe loops -/

def findLoop (table : RawTable engine tag S K V) (h : UInt64) (eq : K → Bool) :
    Nat → Nat → Nat → Option (Option Slot)
  | 0, _, _ => none
  | fuel + 1, gi, probe =>
      match table.findInGroup h eq gi with
      | some si => some (some (gi, si))
      | none =>
          if table.matchEmpty gi = [] then
            findLoop table h eq fuel (table.nextGroup gi (probe + 1)) (probe + 1)
          else some none

def findByHash (fuel : Nat) (table : RawTable engine tag S K V) (h : UInt64) (eq : K → Bool) :
    Option (Option Slot) :=
  table.findLoop h eq fuel (table.groupIndex h) 0

/-- Into a table without tombstones; the caller counts the entries. -/
def insertAfterResizeLoop (table : RawTable engine tag S K V) (h : UInt64) (key : K) (value : V) :
    Nat → Nat → Nat → Option (RawTable engine tag S K V)
  | 0, _, _ => none
  | fuel + 1, gi, probe =>
      match (table.matchEmpty gi).head? with
      | some si => some (table.putSlot h (gi, si) key value)
      | none =>
          insertAfterResizeLoop table h key value fuel (table.nextGroup gi (probe + 1)) (probe + 1)

def insertAfterResize (fuel : Nat) (table : RawTable engine tag S K V) (h : UInt64) (key : K)
    (value : V) : Option (RawTable engine tag S K V) :=
  table.insertAfterResizeLoop h key value fuel (table.groupIndex h) 0

/-- The first tombstone seen so far, this group included. -/
def trackTombstone (table : RawTable engine tag S K V) (gi : Nat) (firstTombstone : Option Slot) :
    Option Slot :=
  firstTombstone.or ((table.matchByte gi TOMBSTONE).head?.map fun si => (gi, si))

/-- Probe until an EMPTY slot, but fill the first tombstone seen. Only an EMPTY
slot is charged to `growth_left`. -/
def insertNoCheckLoop (table : RawTable engine tag S K V) (h : UInt64) (key : K) (value : V) :
    Nat → Nat → Nat → Option Slot → Option (Slot × RawTable engine tag S K V)
  | 0, _, _, _ => none
  | fuel + 1, gi, probe, firstTombstone =>
      let firstTombstone := table.trackTombstone gi firstTombstone
      match (table.matchEmpty gi).head? with
      | some si =>
          match firstTombstone with
          | some slot =>
              some (slot, { table.putSlot h slot key value with len := table.len + 1 })
          | none =>
              some ((gi, si),
                { table.putSlot h (gi, si) key value with
                  len := table.len + 1, growthLeft := table.growthLeft - 1 })
      | none =>
          insertNoCheckLoop table h key value fuel (table.nextGroup gi (probe + 1)) (probe + 1)
            firstTombstone

def insertNoCheck (fuel : Nat) (table : RawTable engine tag S K V) (h : UInt64) (key : K) (value : V) :
    Option (Slot × RawTable engine tag S K V) :=
  table.insertNoCheckLoop h key value fuel (table.groupIndex h) 0 none

def findOrLocateOverflow (table : RawTable engine tag S K V) (h : UInt64) (eq : K → Bool) :
    Nat → Nat → Nat → Option Slot → Option ProbeResult
  | 0, _, _, _ => none
  | fuel + 1, gi, probe, firstAvailable =>
      match table.findInGroup h eq gi with
      | some si => some (.found (gi, si))
      | none =>
          let firstAvailable := (table.trackTombstone gi firstAvailable).or
            ((table.matchEmpty gi).head?.map fun si => (gi, si))
          if table.matchEmpty gi = [] then
            findOrLocateOverflow table h eq fuel (table.nextGroup gi (probe + 1)) (probe + 1)
              firstAvailable
          else match firstAvailable with
            | some slot => some (.insertSlot slot 0)
            | none => some .notFound

def findOrLocate (fuel : Nat) (table : RawTable engine tag S K V) (h : UInt64) (eq : K → Bool) :
    Option ProbeResult :=
  let gi := table.groupIndex h
  match table.findInGroup h eq gi with
  | some si => some (.found (gi, si))
  | none =>
      match (table.matchEmpty gi).head?, (table.matchByte gi TOMBSTONE).head? with
      | some _, some tsi => some (.insertSlot (gi, tsi) 0)
      | some si, none => some (.insertSlot (gi, si) 0)
      | none, tombstone =>
          table.findOrLocateOverflow h eq fuel (table.nextGroup gi 1) 1
            (tombstone.map fun tsi => (gi, tsi))

/-! ## Insertion into a known slot, rehashing -/

def insertAt (table : RawTable engine tag S K V) (h : UInt64) (slot : Slot) (key : K) (value : V)
    (_fullMask : UInt8) : RawTable engine tag S K V :=
  { table.putSlot h slot key value with
    len := table.len + 1
    growthLeft := if table.metaByte slot.1 slot.2 = EMPTY then table.growthLeft - 1
      else table.growthLeft }

def slotsWhere (table : RawTable engine tag S K V) (test : UInt8 → Bool) : List Slot :=
  (List.range table.numGroups).flatMap fun gi => (table.matchWhere gi test).map fun si => (gi, si)

/-- `match_occupied` over all groups, in order. -/
def occupiedSlots (table : RawTable engine tag S K V) : List Slot :=
  table.slotsWhere fun byte => byte != EMPTY && byte != TOMBSTONE

/-- `iter_slots`: the mask of group 0 is taken as empty on an unallocated table. -/
def iterSlots (table : RawTable engine tag S K V) : List Slot :=
  (List.range table.numGroups).flatMap fun gi =>
    if gi = 0 ∧ table.isAllocated = false then []
    else (table.matchOccupied gi).map fun si => (gi, si)

def reinsertAfterResize (fuel : Nat) (hash : K → UInt64) :
    List (K × V) → RawTable engine tag S K V → Option (RawTable engine tag S K V)
  | [], table => some table
  | (key, value) :: rest, table => do
      let table ← table.insertAfterResize fuel (hash key) key value
      reinsertAfterResize fuel hash rest table

def reinsertNoCheck (fuel : Nat) (hash : K → UInt64) :
    List (K × V) → RawTable engine tag S K V → Option (RawTable engine tag S K V)
  | [], table => some table
  | (key, value) :: rest, table => do
      let (_, table) ← table.insertNoCheck fuel (hash key) key value
      reinsertNoCheck fuel hash rest table

/-- The fields of the table once its old allocation is taken out of it. -/
def detached (table : RawTable engine tag S K V) : RawTable engine tag S K V :=
  ⟨0, .sentinel, KvStorage.empty, 0, 0, 0, table.shift⟩

/-- `in_place_overflow` re-inserts without counting and settles `len` and
`growth_left` at the end, `ipo64` re-inserts one by one. -/
def rehashWith (fuel : Nat) (hash : K → UInt64) (table : RawTable engine tag S K V)
    (newNumGroups : Nat) : Option (RawTable engine tag S K V) :=
  let fresh := table.detached.allocate newNumGroups
  if table.isAllocated then
    let entries := table.occupiedSlots.filterMap table.readSlot
    if engine = .inPlaceOverflow then do
      let filled ← reinsertAfterResize fuel hash entries fresh
      return { filled with len := table.len, growthLeft := filled.growthLeft - table.len }
    else reinsertNoCheck fuel hash entries fresh
  else some fresh

/-- Double when the entries alone reach the maximum load, else purge the
tombstones at the same size. -/
def grownGroups (table : RawTable engine tag S K V) : Nat :=
  if table.isAllocated then
    if engine.maxLoadFor table.numGroups ≤ table.len then table.numGroups * 2 else table.numGroups
  else 1

def growOrRehash (fuel : Nat) (hash : K → UInt64) (table : RawTable engine tag S K V) :
    Option (RawTable engine tag S K V) :=
  table.rehashWith fuel hash table.grownGroups

/-! ## The table interface -/

section Keyed
variable [DecidableEq K]

def findByHashEq (fuel : Nat) (table : RawTable engine tag S K V) (h : UInt64) (key : K) :
    Option (Option Slot) :=
  table.findByHash fuel h fun stored => stored = key

/-- `mem::replace` through the value pointer. -/
def replaceValue (table : RawTable engine tag S K V) (slot : Slot) (value : V) :
    Option V × RawTable engine tag S K V :=
  (table.value slot, table.writeValue slot value)

/-- The full probe of an insertion, growing when `growth_left` is used up. -/
def insertProbing (fuel : Nat) (hash : K → UInt64) (table : RawTable engine tag S K V) (h : UInt64)
    (key : K) (value : V) : Option (Option V × RawTable engine tag S K V) := do
  match ← table.findByHashEq fuel h key with
  | some slot => return table.replaceValue slot value
  | none =>
      let grown ← (if table.growthLeft = 0 then table.growOrRehash fuel hash else some table)
      let (_, inserted) ← grown.insertNoCheck fuel h key value
      return (none, inserted)

def insertOrReplace (fuel : Nat) (hash : K → UInt64) (table : RawTable engine tag S K V) (key : K)
    (value : V) : Option (Option V × RawTable engine tag S K V) :=
  let table := if table.isAllocated then table else table.allocate 1
  let h := hash key
  if table.growthLeft = 0 then table.insertProbing fuel hash h key value
  else
    let gi := table.groupIndex h
    match table.findInGroup h (fun stored => stored = key) gi with
    | some si => some (table.replaceValue (gi, si) value)
    | none =>
        match (table.matchEmpty gi).head? with
        | some si =>
            some (none, { table.putSlot h (gi, si) key value with
              len := table.len + 1, growthLeft := table.growthLeft - 1 })
        | none => table.insertProbing fuel hash h key value

def findForEntry (fuel : Nat) (table : RawTable engine tag S K V) (h : UInt64) (key : K) :
    Option EntryProbe :=
  if table.growthLeft = 0 then do
    match ← table.findByHashEq fuel h key with
    | some slot => return .found slot
    | none => return .vacant none
  else
    let gi := table.groupIndex h
    match table.findInGroup h (fun stored => stored = key) gi with
    | some si => some (.found (gi, si))
    | none =>
        match (table.matchEmpty gi).head? with
        | some si => some (.vacant (some ((gi, si), 0)))
        | none => do
            match ← table.findOrLocate fuel h fun stored => stored = key with
            | .found slot => return .found slot
            | .insertSlot slot mask => return .vacant (some (slot, mask))
            | .notFound => return .vacant none

end Keyed

def ensureCapacity (fuel : Nat) (hash : K → UInt64) (table : RawTable engine tag S K V) :
    Option (RawTable engine tag S K V) :=
  if table.growthLeft = 0 then table.growOrRehash fuel hash else some table

def eraseSlot (table : RawTable engine tag S K V) (_h : UInt64) (slot : Slot) :
    RawTable engine tag S K V :=
  { table.setMeta slot TOMBSTONE with len := table.len - 1 }

def removeByHash (fuel : Nat) (table : RawTable engine tag S K V) (h : UInt64) (eq : K → Bool) :
    Option (Option (K × V) × RawTable engine tag S K V) := do
  match ← table.findByHash fuel h eq with
  | some slot => return (table.readSlot slot, table.eraseSlot h slot)
  | none => return (none, table)

def clear (table : RawTable engine tag S K V) : RawTable engine tag S K V :=
  if table.isAllocated then
    { table with
      ctrl := table.ctrl.zero (table.numGroups * engine.groupSize)
      len := 0
      growthLeft := engine.maxLoadFor table.numGroups }
  else table

def reserve (fuel : Nat) (hash : K → UInt64) (table : RawTable engine tag S K V) (additional : Nat) :
    Option (RawTable engine tag S K V) :=
  let needed := table.len + additional
  if table.isAllocated then
    if engine.maxLoadFor table.numGroups < needed ∧
        table.numGroups < engine.groupsForCapacity needed then
      table.rehashWith fuel hash (engine.groupsForCapacity needed)
    else some table
  else some (if 0 < additional then table.allocate (engine.groupsForCapacity needed) else table)

def shrinkToFit (fuel : Nat) (hash : K → UInt64) (table : RawTable engine tag S K V) :
    Option (RawTable engine tag S K V) :=
  if table.len = 0 then some new
  else if engine.groupsForCapacity table.len < table.numGroups then
    table.rehashWith fuel hash (engine.groupsForCapacity table.len)
  else some table

def cloneSlot (source : RawTable engine tag S K V) (store : S K V) (slot : Slot) : S K V :=
  match source.readSlot slot with
  | some (key, value) => KvStorage.write store (engine.bucketIndex slot.1 slot.2) key value
  | none => store

def cloneTable (table : RawTable engine tag S K V) : RawTable engine tag S K V :=
  if table.isAllocated then
    let fresh := (new : RawTable engine tag S K V).allocate table.numGroups
    { fresh with
      ctrl := .alloc fun offset =>
        if offset < table.numGroups * engine.groupSize then table.ctrl.read offset
        else fresh.ctrl.read offset
      buckets := table.occupiedSlots.foldl table.cloneSlot fresh.buckets
      len := table.len
      growthLeft := table.growthLeft }
  else new

instance [DecidableEq K] : RawTableApi (RawTable engine tag S K V) K V where
  new := new
  withCapacity := withCapacity
  len := RawTable.len
  capacity := capacity
  isAllocated := isAllocated
  clear := clear
  key := key
  value := value
  writeValue := writeValue
  findByHash := findByHash
  insertOrReplace := insertOrReplace
  findForEntry := findForEntry
  insertAt := insertAt
  insertNoCheck := insertNoCheck
  ensureCapacity := ensureCapacity
  removeByHash := removeByHash
  eraseSlot := eraseSlot
  reserve := reserve
  shrinkToFit := shrinkToFit
  iterSlots := iterSlots
  intoIter table := table.iterSlots.filterMap table.readSlot
  cloneTable := cloneTable

end RawTable

end Optimap.Tomb
