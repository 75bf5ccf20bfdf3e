import Optimap.Tomb.Invariant

/-!
# Slot updates of the tombstone tables

Filling an EMPTY slot or a tombstone, leaving a tombstone behind and overwriting
a value. Only the first changes how much growth is left, and only when the slot
was EMPTY.
-/

set_option autoImplicit false
set_option linter.unusedSectionVars false

namespace Optimap.Tomb

open Lib Hash Map

namespace RawTable

variable {engine : Engine} {tag : TombstoneTag} {S : Type → Type → Type} [KvStorage S] {K V : Type}
  [DecidableEq K] {hash : K → UInt64} {table : RawTable engine tag S K V} {map : PMap K V}

theorem bucketIndex_eq_iff {slot other : Slot} (inside : table.InRange slot)
    (otherInside : table.InRange other) :
    engine.bucketIndex other.1 other.2 = engine.bucketIndex slot.1 slot.2 ↔ other = slot := by
  rw [engine.bucketIndex_eq inside.2, engine.bucketIndex_eq otherInside.2]
  constructor
  · intro same
    exact Prod.ext_iff.mpr (strided_inj otherInside.2 inside.2 same)
  · rintro rfl
    rfl

theorem allocated_of_used {slot : Slot} (used : table.metaByte slot.1 slot.2 ≠ EMPTY) :
    table.Allocated := by
  cases shape : table.ctrl with
  | sentinel =>
      exfalso
      apply used
      unfold metaByte
      rw [shape]
      rfl
  | alloc bytes => exact ⟨bytes, shape⟩

theorem Valid.maxLoad_eq (valid : table.Valid hash) (allocated : table.Allocated) :
    table.maxLoad = engine.maxLoadFor (table.mask + 1) := by
  obtain ⟨bytes, shape⟩ := allocated
  rcases valid.shaped with ⟨sentinel, _⟩ | ⟨_, maxLoad⟩
  · rw [shape] at sentinel
    cases sentinel
  · exact maxLoad

theorem Valid.allocated_of_growth (valid : table.Valid hash) (room : 0 < table.growthLeft) :
    table.Allocated := by
  have growth := valid.growth
  rcases valid.shaped with ⟨_, _, maxLoad⟩ | ⟨allocated, _⟩
  · omega
  · exact allocated

theorem Holds.entry_unique {slot : Slot} {firstKey secondKey : K} {firstValue secondValue : V}
    (first : table.Holds slot firstKey firstValue) (second : table.Holds slot secondKey secondValue) :
    firstKey = secondKey ∧ firstValue = secondValue :=
  ⟨Option.some.inj (first.2.1.symm.trans second.2.1),
    Option.some.inj (first.2.2.symm.trans second.2.2)⟩

theorem Holds.readSlot {slot : Slot} {key : K} {value : V} (holds : table.Holds slot key value) :
    table.readSlot slot = some (key, value) := by
  simp [RawTable.readSlot, holds.2.1, holds.2.2]

/-- A stored pair, with the tag and the probe position its key asks for. -/
theorem Valid.locate (valid : table.Valid hash) {slot : Slot} {key : K} {value : V}
    (holds : table.Holds slot key value) :
    table.metaByte slot.1 slot.2 = tag.reducedHash (hash key) ∧
      ∃ probe, table.probeAt (hash key) probe = slot.1 ∧ table.Passed (hash key) probe := by
  obtain ⟨storedKey, storedValue, storedHolds, tagged, located⟩ := valid.stored slot holds.1
  obtain ⟨rfl, rfl⟩ := storedHolds.entry_unique holds
  exact ⟨tagged, located⟩

/-! ## Filling -/

/-- A slot an absent key may go into: EMPTY or a tombstone, and reached without
passing an EMPTY slot. -/
def Vacant (table : RawTable engine tag S K V) (h : UInt64) (slot : Slot) : Prop :=
  table.InRange slot ∧
    (table.metaByte slot.1 slot.2 = EMPTY ∨ table.metaByte slot.1 slot.2 = TOMBSTONE) ∧
    ∃ probe, table.probeAt h probe = slot.1 ∧ table.Passed h probe

section Fill
variable {h : UInt64} {slot : Slot} {key : K} {value : V} {fullMask : UInt8}

theorem insertAt_metaByte (allocated : table.Allocated) (inside : table.InRange slot) {other : Slot}
    (otherInside : table.InRange other) :
    (table.insertAt h slot key value fullMask).metaByte other.1 other.2 =
      if other = slot then tag.reducedHash h else table.metaByte other.1 other.2 :=
  metaByte_setMeta allocated inside otherInside _

theorem insertAt_occupied_iff (allocated : table.Allocated) (inside : table.InRange slot)
    (other : Slot) :
    (table.insertAt h slot key value fullMask).Occupied other ↔ other = slot ∨ table.Occupied other := by
  unfold Occupied
  constructor
  · rintro ⟨otherInside, occupied⟩
    rw [insertAt_metaByte allocated inside otherInside] at occupied
    by_cases same : other = slot
    · exact .inl same
    · exact .inr ⟨otherInside, by simpa [same] using occupied⟩
  · rintro (rfl | ⟨otherInside, occupied⟩)
    · refine ⟨inside, ?_⟩
      rw [insertAt_metaByte allocated inside inside, if_pos rfl]
      exact ⟨tag.ne_empty h, tag.ne_tombstone h⟩
    · refine ⟨otherInside, ?_⟩
      rw [insertAt_metaByte allocated inside otherInside]
      split
      · exact ⟨tag.ne_empty h, tag.ne_tombstone h⟩
      · exact occupied

theorem insertAt_holds_iff (allocated : table.Allocated) (inside : table.InRange slot)
    (other : Slot) (otherKey : K) (otherValue : V) :
    (table.insertAt h slot key value fullMask).Holds other otherKey otherValue ↔
      (other = slot ∧ otherKey = key ∧ otherValue = value) ∨
        (other ≠ slot ∧ table.Holds other otherKey otherValue) := by
  unfold Holds
  rw [insertAt_occupied_iff allocated inside]
  by_cases same : other = slot
  · subst same
    simp only [RawTable.key, RawTable.value, insertAt, putSlot, KvStorage.key_write,
      KvStorage.value_write, ↓reduceIte, Option.some.injEq, true_or, true_and, ne_eq, not_true,
      false_and, or_false]
    exact and_congr eq_comm eq_comm
  · simp only [same, false_or, false_and, ne_eq, not_false_iff, true_and]
    refine and_congr_right fun occupied => ?_
    have different : ¬ engine.bucketIndex other.1 other.2 = engine.bucketIndex slot.1 slot.2 :=
      fun equal => same ((bucketIndex_eq_iff inside occupied.1).mp equal)
    simp only [RawTable.key, RawTable.value, insertAt, putSlot, KvStorage.key_write,
      KvStorage.value_write, different, ↓reduceIte]

theorem insertAt_counts (valid : table.Valid hash) (allocated : table.Allocated)
    (vacant : table.Vacant h slot)
    (room : table.metaByte slot.1 slot.2 = EMPTY → 0 < table.growthLeft) :
    (table.insertAt h slot key value fullMask).len =
        (table.insertAt h slot key value fullMask).occupiedSlots.length ∧
      (table.insertAt h slot key value fullMask).growthLeft +
        (table.insertAt h slot key value fullMask).usedSlots.length = table.maxLoad := by
  obtain ⟨inside, free, _⟩ := vacant
  have len := valid.len_eq
  have growth := valid.growth
  constructor
  · have counted := slotsWhere_setMeta_length allocated inside (tag.reducedHash h)
      fun byte => byte != EMPTY && byte != TOMBSTONE
    have oldVote : (table.metaByte slot.1 slot.2 != EMPTY &&
        table.metaByte slot.1 slot.2 != TOMBSTONE) = false := by
      rcases free with empty | tombstone
      · simp [empty]
      · simp [tombstone]
    have newVote : (tag.reducedHash h != EMPTY && tag.reducedHash h != TOMBSTONE) = true := by
      simp [tag.ne_empty h, tag.ne_tombstone h]
    rw [if_neg (by simp [oldVote]), if_pos newVote] at counted
    exact (congrArg (· + 1) len).trans counted.symm
  · have counted := slotsWhere_setMeta_length allocated inside (tag.reducedHash h) (· != EMPTY)
    rw [if_pos (show (tag.reducedHash h != EMPTY) = true by simp [tag.ne_empty h])] at counted
    have same : (table.insertAt h slot key value fullMask).usedSlots.length =
      ((table.setMeta slot (tag.reducedHash h)).slotsWhere (· != EMPTY)).length := rfl
    have before : table.usedSlots.length = (table.slotsWhere (· != EMPTY)).length := rfl
    have charged : (table.insertAt h slot key value fullMask).growthLeft =
      if table.metaByte slot.1 slot.2 = EMPTY then table.growthLeft - 1 else table.growthLeft := rfl
    by_cases empty : table.metaByte slot.1 slot.2 = EMPTY
    · have positive := room empty
      rw [if_pos empty] at charged
      rw [if_neg (by simp [empty])] at counted
      omega
    · rw [if_neg empty] at charged
      rw [if_pos (show (table.metaByte slot.1 slot.2 != EMPTY) = true by simp [empty])] at counted
      omega

/-- An absent key goes into a vacant slot. Reusing a tombstone costs no growth. -/
theorem insertAt_refines (refines : table.Refines hash map) (absent : map key = none)
    (allocated : table.Allocated) (vacant : table.Vacant (hash key) slot)
    (room : table.metaByte slot.1 slot.2 = EMPTY → 0 < table.growthLeft) :
    (table.insertAt (hash key) slot key value fullMask).Refines hash (map.insert key value) ∧
      (table.insertAt (hash key) slot key value fullMask).Holds slot key value := by
  have counts := @insertAt_counts _ _ _ _ _ _ _ _ _ _ _ key value fullMask refines.valid allocated vacant
    room
  obtain ⟨inside, free, probe, reached, passed⟩ := vacant
  have filled : (table.insertAt (hash key) slot key value fullMask).Holds slot key value :=
    (insertAt_holds_iff allocated inside _ _ _).mpr (.inl ⟨rfl, rfl, rfl⟩)
  have stillPassed : ∀ {other : UInt64} {position : Nat}, table.Passed other position →
      (table.insertAt (hash key) slot key value fullMask).Passed other position :=
    fun way => way.setMeta allocated inside (tag.ne_empty _)
  refine ⟨⟨?_, ?_⟩, filled⟩
  · exact
      { power := refines.valid.power
        shift := refines.valid.shift
        shaped := .inr ⟨setMeta_allocated allocated _ _, refines.valid.maxLoad_eq allocated⟩
        len_eq := counts.1
        growth := counts.2
        stored := by
          intro other occupied
          by_cases same : other = slot
          · subst same
            refine ⟨key, value, filled, ?_, probe, reached, stillPassed passed⟩
            rw [insertAt_metaByte allocated inside inside, if_pos rfl]
          · have before := ((insertAt_occupied_iff allocated inside other).mp occupied).resolve_left same
            obtain ⟨otherKey, otherValue, holds, tagged, position, at_, way⟩ :=
              refines.valid.stored other before
            refine ⟨otherKey, otherValue,
              (insertAt_holds_iff allocated inside _ _ _).mpr (.inr ⟨same, holds⟩), ?_,
              position, at_, stillPassed way⟩
            rw [insertAt_metaByte allocated inside before.1, if_neg same, tagged] }
  · refine refines.stores.put (insertAt_holds_iff allocated inside) ?_ ?_
    · intro otherKey otherValue holds
      rcases free with empty | tombstone
      · exact absurd empty holds.1.2.1
      · exact absurd tombstone holds.1.2.2
    · intro other otherValue holds
      exact absurd holds (refines.stores.absent absent other otherValue)

end Fill

/-! ## Erasing -/

section Erase
variable {slot : Slot} {key : K} {value : V}

theorem eraseSlot_metaByte (allocated : table.Allocated) (inside : table.InRange slot) (h : UInt64)
    {other : Slot} (otherInside : table.InRange other) :
    (table.eraseSlot h slot).metaByte other.1 other.2 =
      if other = slot then TOMBSTONE else table.metaByte other.1 other.2 :=
  metaByte_setMeta allocated inside otherInside _

theorem eraseSlot_occupied_iff (allocated : table.Allocated) (inside : table.InRange slot)
    (h : UInt64) (other : Slot) :
    (table.eraseSlot h slot).Occupied other ↔ other ≠ slot ∧ table.Occupied other := by
  unfold Occupied
  constructor
  · rintro ⟨otherInside, occupied⟩
    rw [eraseSlot_metaByte allocated inside h otherInside] at occupied
    by_cases same : other = slot
    · rw [if_pos same] at occupied; exact absurd rfl occupied.2
    · exact ⟨same, otherInside, by simpa [same] using occupied⟩
  · rintro ⟨different, otherInside, occupied⟩
    refine ⟨otherInside, ?_⟩
    rw [eraseSlot_metaByte allocated inside h otherInside, if_neg different]
    exact occupied

theorem eraseSlot_holds_iff (allocated : table.Allocated) (inside : table.InRange slot)
    (h : UInt64) (other : Slot) (otherKey : K) (otherValue : V) :
    (table.eraseSlot h slot).Holds other otherKey otherValue ↔
      other ≠ slot ∧ table.Holds other otherKey otherValue := by
  unfold Holds
  rw [eraseSlot_occupied_iff allocated inside, and_assoc]
  rfl

/-- A removal turns an occupied slot into a tombstone and gives back no growth. -/
theorem eraseSlot_refines (refines : table.Refines hash map) (holds : table.Holds slot key value) :
    (table.eraseSlot (hash key) slot).Refines hash (map.erase key) := by
  have inside := holds.1.1
  have allocated := allocated_of_used holds.1.2.1
  have tombstone : TOMBSTONE ≠ EMPTY := by decide
  have occupied := slotsWhere_setMeta_length allocated inside TOMBSTONE
    fun byte => byte != EMPTY && byte != TOMBSTONE
  rw [if_pos (show (table.metaByte slot.1 slot.2 != EMPTY &&
    table.metaByte slot.1 slot.2 != TOMBSTONE) = true by simp [holds.1.2.1, holds.1.2.2]),
    if_neg (by simp)] at occupied
  have used := slotsWhere_setMeta_length allocated inside TOMBSTONE (· != EMPTY)
  rw [if_pos (show (table.metaByte slot.1 slot.2 != EMPTY) = true by simp [holds.1.2.1]),
    if_pos (by decide)] at used
  have len := refines.valid.len_eq
  constructor
  · exact
      { power := refines.valid.power
        shift := refines.valid.shift
        shaped := .inr ⟨setMeta_allocated allocated _ _, refines.valid.maxLoad_eq allocated⟩
        len_eq := by
          have fewer := congrArg (· - 1) (len.trans occupied.symm)
          exact fewer.trans (Nat.add_sub_cancel _ 1)
        growth := by
          have same := Nat.add_right_cancel used
          exact (congrArg (table.growthLeft + ·) same).trans refines.valid.growth
        stored := by
          intro other otherOccupied
          obtain ⟨different, before⟩ :=
            (eraseSlot_occupied_iff allocated inside (hash key) other).mp otherOccupied
          obtain ⟨otherKey, otherValue, otherHolds, tagged, probe, reached, passed⟩ :=
            refines.valid.stored other before
          refine ⟨otherKey, otherValue,
            (eraseSlot_holds_iff allocated inside _ _ _ _).mpr ⟨different, otherHolds⟩, ?_, probe,
            reached, passed.setMeta allocated inside tombstone⟩
          rw [eraseSlot_metaByte allocated inside _ before.1, if_neg different, tagged] }
  · exact refines.stores.drop holds (eraseSlot_holds_iff allocated inside (hash key))

end Erase

/-! ## Overwriting a value -/

section Write
variable {slot : Slot} {key : K} {old : V}

theorem writeValue_holds_iff (holds : table.Holds slot key old) (value : V) (other : Slot)
    (otherKey : K) (otherValue : V) :
    (table.writeValue slot value).Holds other otherKey otherValue ↔
      (other = slot ∧ otherKey = key ∧ otherValue = value) ∨
        (other ≠ slot ∧ table.Holds other otherKey otherValue) := by
  have occupied : (table.writeValue slot value).Occupied other ↔ table.Occupied other := Iff.rfl
  unfold Holds
  rw [occupied]
  simp only [RawTable.key, RawTable.value, writeValue, KvStorage.key_writeValue,
    KvStorage.value_writeValue table.buckets _ _ old value holds.2.2]
  by_cases same : other = slot
  · subst same
    have stored : KvStorage.key table.buckets (engine.bucketIndex other.1 other.2) = some key :=
      holds.2.1
    simp only [stored, Option.some.injEq, ↓reduceIte, true_and, ne_eq, not_true, false_and, or_false]
    constructor
    · rintro ⟨_, keys, values⟩; exact ⟨keys.symm, values.symm⟩
    · rintro ⟨keys, values⟩; exact ⟨holds.1, keys.symm, values.symm⟩
  · simp only [same, false_and, ne_eq, not_false_iff, true_and, false_or]
    refine and_congr_right fun otherOccupied => ?_
    have different : ¬ engine.bucketIndex other.1 other.2 = engine.bucketIndex slot.1 slot.2 :=
      fun equal => same ((bucketIndex_eq_iff holds.1.1 otherOccupied.1).mp equal)
    simp only [different, ↓reduceIte]

theorem writeValue_refines (refines : table.Refines hash map) (holds : table.Holds slot key old)
    (value : V) : (table.writeValue slot value).Refines hash (map.insert key value) := by
  have written := writeValue_holds_iff holds value
  constructor
  · exact
      { refines.valid with
        stored := by
          intro other occupied
          obtain ⟨otherKey, otherValue, otherHolds, located⟩ := refines.valid.stored other occupied
          by_cases same : other = slot
          · subst same
            obtain ⟨rfl, rfl⟩ := otherHolds.entry_unique holds
            exact ⟨otherKey, value, (written _ _ _).mpr (.inl ⟨rfl, rfl, rfl⟩), located⟩
          · exact ⟨otherKey, otherValue, (written _ _ _).mpr (.inr ⟨same, otherHolds⟩), located⟩ }
  · refine refines.stores.put written ?_ ?_
    · intro otherKey otherValue otherHolds
      exact (otherHolds.entry_unique holds).1
    · intro other otherValue otherHolds
      exact refines.stores.unique otherHolds holds

end Write

end RawTable

end Optimap.Tomb
