import Optimap.HashEngines.AllocationLayout
import Optimap.Overflow.Invariant

/-!
# Capacity requests in machine words

`with_capacity` and `reserve` of the three engines with the 64-bit arithmetic of a
release build, where sums and products wrap. A request is scaled by the inverse load
factor, divided into groups and rounded up to a power of two; the group count serves
the request exactly when no sum of that computation wraps.
-/

set_option autoImplicit false

namespace Optimap.HashEngines

open Lib Hash

/-! ## Rounding with a modulus -/

theorem nextPowerOfTwo_le_double {n : Nat} (several : 1 < n) : nextPowerOfTwo n ≤ 2 * (n - 1) := by
  have whole := Nat.log2_self_le (n := n - 1) (by omega)
  rw [nextPowerOfTwo, if_neg (by omega), Nat.pow_succ]
  omega

section Rounding

variable {groupSize num den capacity modulus : Nat}

/-- Neither the scaled request nor its rounding up to whole groups reaches the
modulus. -/
def RequestBelow (groupSize num den modulus capacity : Nat) : Prop :=
  capacity * den + num - 1 < modulus ∧ (capacity * den + num - 1) / num + groupSize - 1 < modulus

instance : Decidable (RequestBelow groupSize num den modulus capacity) :=
  inferInstanceAs (Decidable (_ ∧ _))

/-- The groups before rounding to a power of two, with both sums reduced. -/
def reducedGroups (groupSize num den modulus capacity : Nat) : Nat :=
  ((capacity * den + num - 1) % modulus / num + groupSize - 1) % modulus / groupSize

theorem nextPowerOfTwo_reducedGroups (fits : RequestBelow groupSize num den modulus capacity) :
    nextPowerOfTwo (reducedGroups groupSize num den modulus capacity) = groupsFor groupSize num den capacity := by
  rw [reducedGroups, Nat.mod_eq_of_lt fits.1, Nat.mod_eq_of_lt fits.2]
  rfl

/-- A request that wraps is one that a single group cannot take. -/
theorem one_group_short (numerator : 0 < num) (below : num < den)
    (room : (groupSize + 1) * den < modulus) (wraps : ¬ RequestBelow groupSize num den modulus capacity) :
    groupSize * num < capacity * den := by
  have scaled : (groupSize + 1) * num ≤ (groupSize + 1) * den := Nat.mul_le_mul_left _ below.le
  have doubled : (groupSize + 1) * 2 ≤ (groupSize + 1) * den := Nat.mul_le_mul_left _ (by omega)
  rw [Nat.succ_mul] at scaled
  by_cases first : capacity * den + num - 1 < modulus
  · have second : modulus ≤ (capacity * den + num - 1) / num + groupSize - 1 :=
      Nat.le_of_not_lt fun fits => wraps ⟨first, fits⟩
    have slots : num * (groupSize + 1) ≤ capacity * den + num - 1 :=
      (Nat.mul_le_mul_left num (by omega)).trans (Nat.mul_div_le _ num)
    rw [Nat.mul_succ, Nat.mul_comm num] at slots
    omega
  · omega

/-- Of a request that wraps, the rounded group count is too small. -/
theorem reducedGroups_short (groups : 0 < groupSize) (numerator : 0 < num) (below : num < den)
    (room : (groupSize + 1) * den < modulus) (wraps : ¬ RequestBelow groupSize num den modulus capacity) :
    nextPowerOfTwo (reducedGroups groupSize num den modulus capacity) * groupSize * num < capacity * den := by
  have single := one_group_short numerator below room wraps
  by_cases several : 1 < reducedGroups groupSize num den modulus capacity
  · generalize counted : reducedGroups groupSize num den modulus capacity = count at several ⊢
    have rounded := nextPowerOfTwo_le_double several
    have positive : 0 < modulus := Nat.zero_lt_of_lt room
    have remainder := Nat.mod_lt (capacity * den + num - 1) positive
    have divided := Nat.div_add_mod (capacity * den + num - 1) modulus
    -- all groups but the last are filled by what is left of the slots
    have filled : (count - 1) * groupSize + 1 ≤ (capacity * den + num - 1) % modulus / num := by
      have whole : count * groupSize ≤ (capacity * den + num - 1) % modulus / num + groupSize - 1 := by
        rw [← counted]
        exact (Nat.div_mul_le_self _ groupSize).trans (Nat.mod_le _ modulus)
      rw [Nat.sub_one_mul]
      have least : groupSize ≤ count * groupSize := Nat.le_mul_of_pos_left _ (by omega)
      omega
    have entries : (count - 1) * groupSize * num + num ≤ (capacity * den + num - 1) % modulus := by
      rw [← Nat.succ_mul]
      exact (Nat.mul_le_mul_right num filled).trans (Nat.div_mul_le_self _ num)
    have taken : nextPowerOfTwo count * groupSize * num ≤ 2 * ((count - 1) * groupSize * num) := by
      calc nextPowerOfTwo count * groupSize * num
          ≤ 2 * (count - 1) * groupSize * num := Nat.mul_le_mul_right _ (Nat.mul_le_mul_right _ rounded)
        _ = 2 * ((count - 1) * groupSize * num) := by ring
    -- the first sum wraps: were it the second, no group would be left
    have wrapped : modulus ≤ capacity * den + num - 1 := by
      by_contra fits
      have second : modulus ≤ (capacity * den + num - 1) / num + groupSize - 1 :=
        Nat.le_of_not_lt fun inside => wraps ⟨Nat.lt_of_not_le fits, inside⟩
      have slots := Nat.div_le_self (capacity * den + num - 1) num
      have none : reducedGroups groupSize num den modulus capacity = 0 := by
        rw [reducedGroups, Nat.mod_eq_of_lt (Nat.lt_of_not_le fits)]
        refine Nat.div_eq_of_lt ?_
        have small : groupSize < modulus :=
          (Nat.lt_succ_self _).trans_le ((Nat.le_mul_of_pos_right _ (by omega)).trans room.le)
        rw [Nat.mod_eq_sub_mod second, Nat.mod_eq_of_lt (by omega)]
        omega
      omega
    have quotient : modulus ≤ modulus * ((capacity * den + num - 1) / modulus) :=
      Nat.le_mul_of_pos_right _ (Nat.div_pos wrapped positive)
    omega
  · rw [nextPowerOfTwo, if_pos (Nat.le_of_not_lt several), Nat.one_mul]
    exact single

end Rounding

/-! ## The engines -/

/-- The three tables, with what their copies of the arithmetic depend on. The
constants of a group layout fit words: one slot more than a group, scaled by the
load factor's denominator, is below `2 ^ 64`. -/
inductive CapacityEngine where
  | overflowTable (L : Overflow.GroupLayout) (fits : (L.groupSize + 1) * L.loadFactorDen < 2 ^ 64)
      (t : SlotTypes) (storage : Storage)
  | inPlaceOverflow (t : SlotTypes) (storage : Storage)
  | ipo64 (t : SlotTypes)

/-- `(n + align - 1) & !(align - 1)`. -/
def roundUpWord (n align : UInt64) : UInt64 := (n + align - 1) &&& ~~~(align - 1)

/-- `S::backward_size`. -/
def Storage.backwardWords (t : SlotTypes) : Storage → (numSlots : UInt64) → UInt64
  | .aos, numSlots => roundUpWord (numSlots * .ofNat t.pair.size) 16
  | .soa, numSlots => roundUpWord (numSlots * .ofNat t.key.size) 16

/-- `S::values_region_size`. -/
def Storage.valuesRegionWords (t : SlotTypes) : Storage → (numSlots : UInt64) → UInt64
  | .aos, _ => 0
  | .soa, numSlots => numSlots * .ofNat t.value.size

/-- `extra_alloc_bytes`. -/
def extraWords : Overflow.OverflowStrategy → (numGroups : UInt64) → UInt64
  | .byteSeparate, numGroups => numGroups
  | .bitSeparate, numGroups => (numGroups + 7) / 8
  | .embedded, _ => 0

/-- Why a request ends without a table: `expect("capacity overflow")`, `unwrap` of a
layout error, or `handle_alloc_error`. -/
inductive CapacityFailure where
  | capacityOverflow
  | layoutError
  | allocError

/-- The fields of a table that capacity requests read and set. `ipo64` keeps no
`max_load`, and tells an allocated table by its metadata pointer. -/
structure Sizes where
  mask : UInt64
  len : UInt64
  maxLoad : UInt64
  hasAllocation : Bool

namespace Sizes

def new : Sizes := ⟨0, 0, 0, false⟩

def numGroups (table : Sizes) : UInt64 := table.mask + 1

end Sizes

namespace CapacityEngine

def groupSize : CapacityEngine → UInt64
  | overflowTable L _ _ _ => .ofNat L.groupSize
  | inPlaceOverflow _ _ => 16
  | ipo64 _ => 64

def loadNum : CapacityEngine → UInt64
  | overflowTable L _ _ _ => .ofNat L.loadFactorNum
  | inPlaceOverflow _ _ | ipo64 _ => 7

def loadDen : CapacityEngine → UInt64
  | overflowTable L _ _ _ => .ofNat L.loadFactorDen
  | inPlaceOverflow _ _ | ipo64 _ => 8

def maxLoadForCapacity (engine : CapacityEngine) (capacity : UInt64) : UInt64 :=
  capacity * engine.loadNum / engine.loadDen

/-- `next_power_of_two` is zero where the power does not fit. -/
def groupsForCapacity (engine : CapacityEngine) (capacity : UInt64) : UInt64 :=
  let minSlots := (capacity * engine.loadDen + engine.loadNum - 1) / engine.loadNum
  let minGroups := (minSlots + engine.groupSize - 1) / engine.groupSize
  .ofNat (nextPowerOfTwo minGroups.toNat)

/-- Size and alignment of the allocation. -/
def combinedLayout (numGroups : UInt64) : CapacityEngine → UInt64 × UInt64
  | overflowTable L _ t storage =>
      let numSlots := numGroups * .ofNat L.bucketStride
      let metaStride := .ofNat L.metaStride
      let backward := roundUpWord (storage.backwardWords t numSlots) metaStride
      let valuesOffset :=
        roundUpWord (numGroups * metaStride + extraWords L.overflow numGroups) (.ofNat (storage.valuesAlign t))
      let align := max (.ofNat (storage.allocAlign t)) metaStride
      (max (backward + valuesOffset + storage.valuesRegionWords t numSlots) align, align)
  | inPlaceOverflow t storage =>
      let numSlots := numGroups * 16
      let backward := storage.backwardWords t numSlots
      let valuesOffset := roundUpWord (numGroups * 16) (.ofNat (storage.valuesAlign t))
      let align := .ofNat (storage.allocAlign t)
      (max (backward + valuesOffset + storage.valuesRegionWords t numSlots) align, align)
  | ipo64 t =>
      let bucketOffset := roundUpWord (numGroups * 64) (max (.ofNat t.pair.align) 1)
      (max (bucketOffset + numGroups * 64 * .ofNat t.pair.size) 64, 64)

/-- `allocate`. The allocator serves a layout or returns null. -/
def allocate (engine : CapacityEngine) (alloc : UInt64 × UInt64 → Bool) (table : Sizes) (numGroups : UInt64) :
    Except CapacityFailure Sizes :=
  let layout := engine.combinedLayout numGroups
  if layout.1 ≤ 0x8000000000000000 - layout.2 then
    if alloc layout then
      .ok ⟨numGroups - 1, table.len, engine.maxLoadForCapacity (numGroups * engine.groupSize), true⟩
    else .error .allocError
  else .error .layoutError

def withCapacity (engine : CapacityEngine) (alloc : UInt64 × UInt64 → Bool) (capacity : UInt64) :
    Except CapacityFailure Sizes :=
  if capacity = 0 then .ok .new else engine.allocate alloc .new (engine.groupsForCapacity capacity)

def isAllocated (table : Sizes) : CapacityEngine → Bool
  | overflowTable _ _ _ _ | inPlaceOverflow _ _ => 0 < table.maxLoad
  | ipo64 _ => table.hasAllocation

/-- The load above which `reserve` asks for more groups. -/
def reserveLimit (table : Sizes) (engine : CapacityEngine) : UInt64 :=
  match engine with
  | overflowTable _ _ _ _ => table.maxLoad
  | inPlaceOverflow _ _ | ipo64 _ => engine.maxLoadForCapacity (table.numGroups * engine.groupSize)

/-- A rehash allocates like a new table and moves all entries over. -/
def reserve (engine : CapacityEngine) (alloc : UInt64 × UInt64 → Bool) (table : Sizes) (additional : UInt64) :
    Except CapacityFailure Sizes :=
  if 2 ^ 64 ≤ table.len.toNat + additional.toNat then .error .capacityOverflow
  else
    let needed := table.len + additional
    if engine.isAllocated table then
      if engine.reserveLimit table < needed ∧ table.numGroups < engine.groupsForCapacity needed then
        engine.allocate alloc table (engine.groupsForCapacity needed)
      else .ok table
    else if 0 < additional then engine.allocate alloc table (engine.groupsForCapacity needed)
    else .ok table

/-! ## What a group count is asked for -/

/-- The maximum load of a number of groups, computed without a word size. -/
def maximumLoad (engine : CapacityEngine) (groups : Nat) : Nat :=
  Hash.maxLoadForCapacity (groups * engine.groupSize.toNat) engine.loadNum.toNat engine.loadDen.toNat

/-- A power of two of groups whose maximum load covers the entries. -/
structure Serves (engine : CapacityEngine) (groups : UInt64) (entries : Nat) : Prop where
  power : ∃ bits, groups.toNat = 2 ^ bits
  room : entries ≤ engine.maximumLoad groups.toNat

/-- No sum of `groups_for_capacity` wraps. -/
def RequestFits (engine : CapacityEngine) (entries : Nat) : Prop :=
  RequestBelow engine.groupSize.toNat engine.loadNum.toNat engine.loadDen.toNat (2 ^ 64) entries

/-- What a table's fields satisfy between operations. -/
structure WellSized (engine : CapacityEngine) (table : Sizes) : Prop where
  power : ∃ bits, table.numGroups.toNat = 2 ^ bits
  load : table.maxLoad.toNat ≤ engine.maximumLoad table.numGroups.toNat
  empty : engine.isAllocated table = false → table.len = 0

/-- The constants of an engine, as numbers. -/
structure Constants (groupSize num den : Nat) : Prop where
  several : 1 < groupSize
  numerator : 0 < num
  below : num < den
  room : (groupSize + 1) * den < 2 ^ 64

theorem overflowTable_toNat {L : Overflow.GroupLayout} (fits : (L.groupSize + 1) * L.loadFactorDen < 2 ^ 64)
    (t : SlotTypes) (storage : Storage) :
    (overflowTable L fits t storage).groupSize.toNat = L.groupSize ∧
      (overflowTable L fits t storage).loadNum.toNat = L.loadFactorNum ∧
      (overflowTable L fits t storage).loadDen.toNat = L.loadFactorDen := by
  have group : L.groupSize < 2 ^ 64 :=
    (Nat.lt_succ_self _).trans_le ((Nat.le_mul_of_pos_right _ L.loadFactorDen_pos).trans fits.le)
  have denominator : L.loadFactorDen < 2 ^ 64 := (Nat.le_mul_of_pos_left _ (Nat.succ_pos _)).trans_lt fits
  exact ⟨Nat.mod_eq_of_lt group, Nat.mod_eq_of_lt (L.load_lt_one.trans denominator), Nat.mod_eq_of_lt denominator⟩

theorem constants (engine : CapacityEngine) :
    Constants engine.groupSize.toNat engine.loadNum.toNat engine.loadDen.toNat := by
  cases engine with
  | overflowTable L fits t storage =>
      have below := L.load_lt_one
      have room := L.load_room
      have positive := L.loadFactorNum_pos
      have several : 1 < L.groupSize := by
        by_contra single
        have few : L.groupSize * L.loadFactorNum ≤ 1 * L.loadFactorNum :=
          Nat.mul_le_mul_right _ (Nat.le_of_not_lt single)
        omega
      obtain ⟨group, numerator, denominator⟩ := overflowTable_toNat fits t storage
      rw [group, numerator, denominator]
      exact ⟨several, positive, below, fits⟩
  | inPlaceOverflow t storage => exact (⟨by decide, by decide, by decide, by decide⟩ : Constants 16 7 8)
  | ipo64 t => exact (⟨by decide, by decide, by decide, by decide⟩ : Constants 64 7 8)

/-! ## Words and numbers -/

theorem toNat_add_sub_one (left right : UInt64) (positive : 0 < right.toNat) :
    (left + right - 1).toNat = (left.toNat + right.toNat - 1) % 2 ^ 64 := by
  have bound := left.toNat_lt
  have bound' := right.toNat_lt
  rw [UInt64.toNat_sub, UInt64.toNat_add, UInt64.toNat_one]
  omega

theorem groupsForCapacity_toNat (engine : CapacityEngine) (capacity : UInt64) :
    (engine.groupsForCapacity capacity).toNat =
      nextPowerOfTwo (reducedGroups engine.groupSize.toNat engine.loadNum.toNat engine.loadDen.toNat
        (2 ^ 64) capacity.toNat) := by
  obtain ⟨several, numerator, below, room⟩ := engine.constants
  have scaled : (capacity * engine.loadDen + engine.loadNum - 1).toNat =
      (capacity.toNat * engine.loadDen.toNat + engine.loadNum.toNat - 1) % 2 ^ 64 := by
    rw [toNat_add_sub_one _ _ numerator, UInt64.toNat_mul, Nat.add_sub_assoc numerator, Nat.mod_add_mod,
      Nat.add_sub_assoc numerator]
  have counted : ((capacity * engine.loadDen + engine.loadNum - 1) / engine.loadNum + engine.groupSize - 1).toNat /
      engine.groupSize.toNat = reducedGroups engine.groupSize.toNat engine.loadNum.toNat engine.loadDen.toNat
        (2 ^ 64) capacity.toNat := by
    rw [toNat_add_sub_one _ _ (by omega), UInt64.toNat_div, scaled, reducedGroups]
  have small : nextPowerOfTwo (reducedGroups engine.groupSize.toNat engine.loadNum.toNat engine.loadDen.toNat
      (2 ^ 64) capacity.toNat) < 2 ^ 64 := by
    by_cases many : 1 < reducedGroups engine.groupSize.toNat engine.loadNum.toNat engine.loadDen.toNat (2 ^ 64)
        capacity.toNat
    · have rounded := nextPowerOfTwo_le_double many
      have whole : 2 * reducedGroups engine.groupSize.toNat engine.loadNum.toNat engine.loadDen.toNat (2 ^ 64)
          capacity.toNat < 2 ^ 64 := by
        rw [Nat.mul_comm]
        refine (Nat.mul_le_mul_left _ several).trans_lt ?_
        exact (Nat.div_mul_le_self _ _).trans_lt (Nat.mod_lt _ (by decide))
      omega
    · rw [nextPowerOfTwo, if_pos (Nat.le_of_not_lt many)]
      decide
  rw [groupsForCapacity, UInt64.toNat_ofNat', UInt64.toNat_div, counted, Nat.mod_eq_of_lt small]

theorem maxLoadForCapacity_le (engine : CapacityEngine) (groups : UInt64) :
    (engine.maxLoadForCapacity (groups * engine.groupSize)).toNat ≤ engine.maximumLoad groups.toNat := by
  rw [maxLoadForCapacity, UInt64.toNat_div, UInt64.toNat_mul, UInt64.toNat_mul]
  refine Nat.div_le_div_right ?_
  exact (Nat.mod_le _ _).trans (Nat.mul_le_mul_right _ (Nat.mod_le _ _))

/-- The load limit that is stored, where the load of all slots fits a word. -/
theorem maxLoadForCapacity_toNat {engine : CapacityEngine} {groups : UInt64}
    (fits : groups.toNat * engine.groupSize.toNat * engine.loadNum.toNat < 2 ^ 64) :
    (engine.maxLoadForCapacity (groups * engine.groupSize)).toNat = engine.maximumLoad groups.toNat := by
  have positive := engine.constants.numerator
  have slots : groups.toNat * engine.groupSize.toNat < 2 ^ 64 := (Nat.le_mul_of_pos_right _ positive).trans_lt fits
  rw [maxLoadForCapacity, UInt64.toNat_div, UInt64.toNat_mul, UInt64.toNat_mul, Nat.mod_eq_of_lt slots,
    Nat.mod_eq_of_lt fits]
  rfl

theorem maximumLoad_mono (engine : CapacityEngine) {small large : Nat} (le : small ≤ large) :
    engine.maximumLoad small ≤ engine.maximumLoad large :=
  Nat.div_le_div_right (Nat.mul_le_mul_right _ (Nat.mul_le_mul_right _ le))

theorem groupsForCapacity_power (engine : CapacityEngine) (capacity : UInt64) :
    ∃ bits, (engine.groupsForCapacity capacity).toNat = 2 ^ bits := by
  rw [groupsForCapacity_toNat]
  exact nextPowerOfTwo_power _

/-- The word count is the count of the unbounded model where no sum wraps. -/
theorem groupsForCapacity_eq_groupsFor {engine : CapacityEngine} {capacity : UInt64}
    (fits : engine.RequestFits capacity.toNat) :
    (engine.groupsForCapacity capacity).toNat =
      groupsFor engine.groupSize.toNat engine.loadNum.toNat engine.loadDen.toNat capacity.toNat :=
  (engine.groupsForCapacity_toNat capacity).trans (nextPowerOfTwo_reducedGroups fits)

/-- A group count serves its request when no sum wraps, and never when one does. -/
theorem groupsForCapacity_serves_iff (engine : CapacityEngine) (capacity : UInt64) :
    engine.Serves (engine.groupsForCapacity capacity) capacity.toNat ↔ engine.RequestFits capacity.toNat := by
  obtain ⟨several, numerator, below, room⟩ := engine.constants
  constructor
  · intro serves
    by_contra wraps
    have short := reducedGroups_short (Nat.zero_lt_of_lt several) numerator below room wraps
    have enough := serves.room
    rw [groupsForCapacity_toNat, maximumLoad, Hash.maxLoadForCapacity,
      Nat.le_div_iff_mul_le (Nat.zero_lt_of_lt below)] at enough
    omega
  · intro fits
    refine ⟨engine.groupsForCapacity_power capacity, ?_⟩
    rw [groupsForCapacity_eq_groupsFor fits]
    exact le_maxLoad_groupsFor (Nat.zero_lt_of_lt several) numerator (Nat.zero_lt_of_lt below) _

/-! ## The operations -/

theorem allocate_numGroups {engine : CapacityEngine} {alloc : UInt64 × UInt64 → Bool} {table later : Sizes}
    {numGroups : UInt64} (allocated : engine.allocate alloc table numGroups = .ok later) :
    later = ⟨numGroups - 1, table.len, engine.maxLoadForCapacity (numGroups * engine.groupSize), true⟩ ∧
      later.numGroups = numGroups := by
  dsimp only [allocate] at allocated
  split at allocated
  · split at allocated
    · cases allocated
      exact ⟨rfl, UInt64.sub_add_cancel _ _⟩
    · cases allocated
  · cases allocated

theorem requestFits_zero (engine : CapacityEngine) : engine.RequestFits 0 := by
  obtain ⟨several, numerator, below, room⟩ := engine.constants
  have none : (engine.loadNum.toNat - 1) / engine.loadNum.toNat = 0 := Nat.div_eq_of_lt (by omega)
  have group := engine.groupSize.toNat_lt
  have factor := engine.loadNum.toNat_lt
  refine ⟨by omega, ?_⟩
  rw [Nat.zero_mul, Nat.zero_add, none]
  omega

/-- The limit never exceeds the maximum load. -/
theorem reserveLimit_le {engine : CapacityEngine} {table : Sizes} (sized : engine.WellSized table) :
    (engine.reserveLimit table).toNat ≤ engine.maximumLoad table.numGroups.toNat := by
  cases engine with
  | overflowTable L fits t storage => exact sized.load
  | inPlaceOverflow t storage => exact maxLoadForCapacity_le _ _
  | ipo64 t => exact maxLoadForCapacity_le _ _

theorem withCapacity_serves_iff {engine : CapacityEngine} {alloc : UInt64 × UInt64 → Bool} {capacity : UInt64}
    {table : Sizes} (returned : engine.withCapacity alloc capacity = .ok table) :
    engine.Serves table.numGroups capacity.toNat ↔ engine.RequestFits capacity.toNat := by
  unfold withCapacity at returned
  split at returned
  · rename_i zero
    cases returned
    subst zero
    exact iff_of_true ⟨⟨0, rfl⟩, Nat.zero_le _⟩ engine.requestFits_zero
  · rw [(allocate_numGroups returned).2]
    exact engine.groupsForCapacity_serves_iff capacity

/-- `reserve` serves the entries asked for when the request fits, or when the table
holds that many as it is. -/
theorem reserve_serves_iff {engine : CapacityEngine} {alloc : UInt64 × UInt64 → Bool} {table later : Sizes}
    {additional : UInt64} (sized : engine.WellSized table)
    (returned : engine.reserve alloc table additional = .ok later) :
    engine.Serves later.numGroups (table.len.toNat + additional.toNat) ↔
      engine.RequestFits (table.len.toNat + additional.toNat) ∨
        engine.isAllocated table ∧
          table.len.toNat + additional.toNat ≤ engine.maximumLoad table.numGroups.toNat := by
  dsimp only [reserve] at returned
  split at returned
  · cases returned
  rename_i sum
  have needed : (table.len + additional).toNat = table.len.toNat + additional.toNat := by
    rw [UInt64.toNat_add, Nat.mod_eq_of_lt (Nat.lt_of_not_le sum)]
  rw [← needed]
  have requested := engine.groupsForCapacity_serves_iff (table.len + additional)
  by_cases live : engine.isAllocated table = true
  · rw [if_pos live] at returned
    split at returned
    · rename_i grows
      rw [(allocate_numGroups returned).2, requested]
      -- a table with more room than the larger group count serves the request too
      refine ⟨.inl, fun either => either.elim id fun held => requested.mp ?_⟩
      exact ⟨engine.groupsForCapacity_power _,
        held.2.trans (engine.maximumLoad_mono (UInt64.le_iff_toNat_le.mp (UInt64.le_of_lt grows.2)))⟩
    · rename_i stays
      cases returned
      constructor
      · exact fun serves => .inr ⟨live, serves.room⟩
      · refine fun either => ⟨sized.power, either.elim (fun fits => ?_) And.right⟩
        by_cases exceeds : engine.reserveLimit table < table.len + additional
        · have enough := Nat.le_of_not_lt fun less => stays ⟨exceeds, UInt64.lt_iff_toNat_lt.mpr less⟩
          exact (requested.mpr fits).room.trans (engine.maximumLoad_mono enough)
        · exact (UInt64.le_iff_toNat_le.mp (UInt64.not_lt.mp exceeds)).trans (reserveLimit_le sized)
  · rw [if_neg live] at returned
    split at returned
    · rw [(allocate_numGroups returned).2, requested]
      exact ⟨.inl, fun either => either.elim id fun held => absurd held.1 live⟩
    · rename_i nothing
      cases returned
      have none : table.len + additional = 0 := by
        rw [sized.empty (Bool.eq_false_iff.mpr live), UInt64.zero_add]
        exact UInt64.le_zero_iff.mp (UInt64.not_lt.mp nothing)
      rw [none]
      exact iff_of_true ⟨sized.power, Nat.zero_le _⟩ (.inl engine.requestFits_zero)

/-- At the load factor 7/8 the requests that fit are those below `2 ^ 61`. -/
theorem requestFits_seven_eighths {engine : CapacityEngine} (seven : engine.loadNum = 7)
    (eighths : engine.loadDen = 8) (entries : Nat) : engine.RequestFits entries ↔ entries < 2 ^ 61 := by
  obtain ⟨several, numerator, below, room⟩ := engine.constants
  rw [eighths, show (8 : UInt64).toNat = 8 from rfl] at room
  rw [RequestFits, RequestBelow, seven, eighths, show (7 : UInt64).toNat = 7 from rfl,
    show (8 : UInt64).toNat = 8 from rfl]
  omega

/-- A table that a request has returned is well sized. -/
theorem withCapacity_wellSized {engine : CapacityEngine} {alloc : UInt64 × UInt64 → Bool} {capacity : UInt64}
    {table : Sizes} (returned : engine.withCapacity alloc capacity = .ok table) : engine.WellSized table := by
  unfold withCapacity at returned
  split at returned
  · cases returned
    exact ⟨⟨0, rfl⟩, Nat.zero_le _, fun _ => rfl⟩
  · obtain ⟨same, groups⟩ := allocate_numGroups returned
    refine ⟨?_, ?_, fun _ => by rw [same]; rfl⟩
    · rw [groups]
      exact engine.groupsForCapacity_power capacity
    · rw [groups, same]
      exact engine.maxLoadForCapacity_le _

end CapacityEngine

/-! ## The fields of the unbounded tables -/

section Tables

variable {S : Type → Type → Type} [KvStorage S] {K V : Type} {hash : K → UInt64}

def hasAllocation : Ctrl → Bool
  | .sentinel => false
  | .alloc _ => true

def overflowSizes {L : Overflow.GroupLayout} (table : Overflow.RawTable L S K V) : Sizes :=
  ⟨.ofNat table.mask, .ofNat table.len, .ofNat table.maxLoad, hasAllocation table.ctrl⟩

/-- A valid overflow-bit table whose slots can be counted in a word is well sized. -/
theorem overflowSizes_wellSized {L : Overflow.GroupLayout} (fits : (L.groupSize + 1) * L.loadFactorDen < 2 ^ 64)
    (t : SlotTypes) (storage : Storage) {table : Overflow.RawTable L S K V} (valid : table.Valid hash)
    (counted : (table.mask + 1) * L.groupSize < 2 ^ 64) :
    (CapacityEngine.overflowTable L fits t storage).WellSized (overflowSizes table) := by
  have groups : table.mask + 1 < 2 ^ 64 := (Nat.le_mul_of_pos_right _ L.groupSize_pos).trans_lt counted
  have nominal := L.maxLoadFor_lt (table.mask + 1) (Nat.succ_pos _)
  have limit := valid.maxLoad_le
  have held := valid.len_le
  have numGroups : (overflowSizes table).numGroups.toNat = table.mask + 1 := by
    rw [Sizes.numGroups, overflowSizes, UInt64.toNat_add, UInt64.toNat_ofNat', UInt64.toNat_one]
    omega
  have maxLoad : (overflowSizes table).maxLoad.toNat = table.maxLoad := by
    rw [overflowSizes, UInt64.toNat_ofNat']
    omega
  refine ⟨numGroups ▸ valid.power, ?_, fun unallocated => ?_⟩
  · obtain ⟨group, numerator, denominator⟩ := CapacityEngine.overflowTable_toNat fits t storage
    rw [maxLoad, numGroups, CapacityEngine.maximumLoad, group, numerator, denominator]
    exact limit
  · have none : table.maxLoad = 0 := by
      have zero := of_decide_eq_false unallocated
      rw [UInt64.lt_iff_toNat_lt, maxLoad] at zero
      exact Nat.eq_zero_of_not_pos zero
    have empty : table.len = 0 := Nat.le_zero.mp (none ▸ held)
    rw [overflowSizes, empty]
    rfl

/-- Where nothing wraps, the words are the fields of the unbounded table. -/
theorem withCapacity_overflowSizes {L : Overflow.GroupLayout} {fits : (L.groupSize + 1) * L.loadFactorDen < 2 ^ 64}
    {t : SlotTypes} {storage : Storage} {alloc : UInt64 × UInt64 → Bool} {capacity : UInt64} {table : Sizes}
    (returned : (CapacityEngine.overflowTable L fits t storage).withCapacity alloc capacity = .ok table)
    (request : (CapacityEngine.overflowTable L fits t storage).RequestFits capacity.toNat)
    (load : L.groupsForCapacity capacity.toNat * L.groupSize * L.loadFactorNum < 2 ^ 64) :
    table = overflowSizes (Overflow.RawTable.withCapacity capacity.toNat : Overflow.RawTable L S K V) := by
  unfold CapacityEngine.withCapacity at returned
  split at returned
  · rename_i zero
    cases returned
    subst zero
    rfl
  · rename_i positive
    obtain ⟨same, -⟩ := CapacityEngine.allocate_numGroups returned
    obtain ⟨group, numerator, denominator⟩ := CapacityEngine.overflowTable_toNat fits t storage
    have groups := CapacityEngine.groupsForCapacity_eq_groupsFor request
    rw [group, numerator, denominator] at groups
    obtain ⟨bits, power⟩ := L.groupsForCapacity_power capacity.toNat
    have some : 1 ≤ L.groupsForCapacity capacity.toNat := power ▸ Nat.one_le_two_pow
    have nonzero : ¬ capacity.toNat = 0 := fun none => positive (UInt64.toNat_inj.mp none)
    have limit := @CapacityEngine.maxLoadForCapacity_toNat (.overflowTable L fits t storage)
      ((CapacityEngine.overflowTable L fits t storage).groupsForCapacity capacity)
      (by rw [groups, group, numerator]; exact load)
    rw [groups, CapacityEngine.maximumLoad, group, numerator, denominator] at limit
    have mask : (CapacityEngine.overflowTable L fits t storage).groupsForCapacity capacity - 1 =
        .ofNat (L.groupsForCapacity capacity.toNat - 1) := by
      rw [UInt64.ofNat_sub some]
      exact congrArg (· - 1) ((UInt64.ofNat_toNat).symm.trans (congrArg UInt64.ofNat groups))
    rw [same, mask, ← @UInt64.ofNat_toNat (CapacityEngine.maxLoadForCapacity _ _), limit, overflowSizes,
      Overflow.RawTable.withCapacity, if_neg nonzero]
    rfl

end Tables

/-! ## Requests -/

/-- Every engine yields a power of two of groups that covers a request exactly when the
request does not wrap; `reserve` also when the table covers it as it is. -/
theorem capacity_requests_served_iff (engine : CapacityEngine) (alloc : UInt64 × UInt64 → Bool) :
    (∀ capacity table, engine.withCapacity alloc capacity = .ok table →
      (engine.Serves table.numGroups capacity.toNat ↔ engine.RequestFits capacity.toNat)) ∧
    (∀ table additional later, engine.WellSized table → engine.reserve alloc table additional = .ok later →
      (engine.Serves later.numGroups (table.len.toNat + additional.toNat) ↔
        engine.RequestFits (table.len.toNat + additional.toNat) ∨
          engine.isAllocated table ∧
            table.len.toNat + additional.toNat ≤ engine.maximumLoad table.numGroups.toNat)) :=
  ⟨fun _ _ => CapacityEngine.withCapacity_serves_iff, fun _ _ _ => CapacityEngine.reserve_serves_iff⟩

/-- Half a megabyte is what the allocator of the runs below has. -/
def smallHeap (layout : UInt64 × UInt64) : Bool := layout.1 ≤ 0x80000

/-- Room for a thousand entries, then for a thousand more. -/
theorem thousand_entries_served :
    ∃ table later, (CapacityEngine.ipo64 wordToWord).withCapacity smallHeap 1000 = .ok table ∧
      (CapacityEngine.ipo64 wordToWord).Serves table.numGroups 1000 ∧
      (CapacityEngine.ipo64 wordToWord).reserve smallHeap table 2000 = .ok later ∧
      (CapacityEngine.ipo64 wordToWord).Serves later.numGroups 2000 := by
  have fits : ∀ entries < 2 ^ 61, (CapacityEngine.ipo64 wordToWord).RequestFits entries := fun entries =>
    (CapacityEngine.requestFits_seven_eighths rfl rfl entries).mpr
  have created : (CapacityEngine.ipo64 wordToWord).withCapacity smallHeap 1000 = .ok ⟨31, 0, 1792, true⟩ := rfl
  have reserved : (CapacityEngine.ipo64 wordToWord).reserve smallHeap ⟨31, 0, 1792, true⟩ 2000 =
      .ok ⟨63, 0, 3584, true⟩ := rfl
  have served := capacity_requests_served_iff (.ipo64 wordToWord) smallHeap
  exact ⟨_, _, created, (served.1 _ _ created).mpr (fits _ (by decide)), reserved,
    (served.2 _ _ _ (CapacityEngine.withCapacity_wellSized created) reserved).mpr (.inl (fits _ (by decide)))⟩

/-- The request returns a single group, which does not cover it. -/
def YieldsOneGroup (engine : CapacityEngine) (capacity : UInt64) : Prop :=
  ∃ table, engine.withCapacity smallHeap capacity = .ok table ∧ table.numGroups = 1 ∧
    ¬ engine.Serves table.numGroups capacity.toNat

/-- `2 ^ 61` entries scale to zero slots: every engine makes one group for them. -/
theorem huge_requests_one_group :
    YieldsOneGroup (.overflowTable (Overflow.splitsiesLayout .asm) (by decide) wordToWord .aos)
        0x2000000000000000 ∧
      YieldsOneGroup (.inPlaceOverflow wordToWord .aos) 0x2000000000000000 ∧
      YieldsOneGroup (.ipo64 wordToWord) 0x2000000000000000 := by
  have few : ∀ engine : CapacityEngine, engine.maximumLoad 1 < 0x2000000000000000 →
      ¬ engine.Serves 1 0x2000000000000000 := fun engine short served =>
    absurd served.room (Nat.not_le_of_lt short)
  exact ⟨⟨⟨0, 0, 14, true⟩, rfl, rfl, few _ (by decide)⟩, ⟨⟨0, 0, 14, true⟩, rfl, rfl, few _ (by decide)⟩,
    ⟨⟨0, 0, 56, true⟩, rfl, rfl, few _ (by decide)⟩⟩

end Optimap.HashEngines
