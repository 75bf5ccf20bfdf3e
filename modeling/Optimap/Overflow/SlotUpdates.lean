import Optimap.Overflow.Invariant

/-!
# Slot updates

Filling an empty slot, clearing an occupied one and overwriting a value, each
with the finite map it leads to.
-/

set_option autoImplicit false
set_option linter.unusedSectionVars false

namespace Optimap.Overflow

open Lib Hash Map

namespace RawTable

variable {L : GroupLayout} {S : Type → Type → Type} [KvStorage S] {K V : Type} [DecidableEq K]
  {hash : K → UInt64} {table : RawTable L S K V} {map : PMap K V}

theorem bucketIndex_eq_iff {slot other : Slot} (inside : table.InRange slot)
    (otherInside : table.InRange other) :
    L.bucketIndex other.1 other.2 = L.bucketIndex slot.1 slot.2 ↔ other = slot := by
  constructor
  · intro same
    exact Prod.ext_iff.mpr (GroupLayout.bucketIndex_inj otherInside.2 inside.2 same)
  · rintro rfl
    rfl

theorem Occupied.allocated {slot : Slot} (occupied : table.Occupied slot) : table.Allocated := by
  cases shape : table.ctrl with
  | sentinel =>
      exfalso
      apply occupied.2
      unfold metaByte
      rw [shape]
      rfl
  | alloc bytes => exact ⟨bytes, shape⟩

theorem Holds.entry_unique {slot : Slot} {firstKey secondKey : K} {firstValue secondValue : V}
    (first : table.Holds slot firstKey firstValue) (second : table.Holds slot secondKey secondValue) :
    firstKey = secondKey ∧ firstValue = secondValue :=
  ⟨Option.some.inj (first.2.1.symm.trans second.2.1),
    Option.some.inj (first.2.2.symm.trans second.2.2)⟩

theorem Holds.readSlot {slot : Slot} {key : K} {value : V} (holds : table.Holds slot key value) :
    table.readSlot slot = some (key, value) := by
  simp [RawTable.readSlot, holds.2.1, holds.2.2]

/-- A stored pair, with the tag and the probe position its key asks for. -/
theorem Valid.locate (valid : table.Valid hash) {slot : Slot} {key : K} {value : V}
    (holds : table.Holds slot key value) :
    table.metaByte slot.1 slot.2 = L.tags.tag (hash key) ∧
      ∃ probe, table.probeAt (hash key) probe = slot.1 ∧ table.Passed (hash key) probe := by
  obtain ⟨storedKey, storedValue, storedHolds, tag, located⟩ := valid.stored slot holds.1
  obtain ⟨rfl, rfl⟩ := storedHolds.entry_unique holds
  exact ⟨tag, located⟩

/-! ## Filling -/

section Fill
variable {h : UInt64} {slot : Slot} {key : K} {value : V}

theorem fillSlot_metaByte (allocated : table.Allocated) (inside : table.InRange slot) {other : Slot}
    (otherInside : table.InRange other) :
    (table.fillSlot h slot key value).metaByte other.1 other.2 =
      if other = slot then L.tags.tag h else table.metaByte other.1 other.2 :=
  metaByte_setMeta allocated inside otherInside _

theorem fillSlot_hasOverflowBit (inside : table.InRange slot) (group : Nat) (channel : UInt8) :
    (table.fillSlot h slot key value).hasOverflowBit group channel =
      table.hasOverflowBit group channel :=
  hasOverflowBit_setMeta inside.1 inside.2 _ group channel

theorem fillSlot_passed_iff (inside : table.InRange slot) (other : UInt64) (probe : Nat) :
    (table.fillSlot h slot key value).Passed other probe ↔ table.Passed other probe := by
  unfold Passed
  simp only [fillSlot_hasOverflowBit inside]
  rfl

theorem fillSlot_occupied_iff (allocated : table.Allocated) (inside : table.InRange slot)
    (other : Slot) :
    (table.fillSlot h slot key value).Occupied other ↔ other = slot ∨ table.Occupied other := by
  unfold Occupied
  constructor
  · rintro ⟨otherInside, occupied⟩
    rw [fillSlot_metaByte allocated inside otherInside] at occupied
    by_cases same : other = slot
    · exact .inl same
    · exact .inr ⟨otherInside, by simpa [same] using occupied⟩
  · rintro (rfl | ⟨otherInside, occupied⟩)
    · refine ⟨inside, ?_⟩
      rw [fillSlot_metaByte allocated inside inside, if_pos rfl]
      exact L.tags.tag_ne_empty h
    · refine ⟨otherInside, ?_⟩
      rw [fillSlot_metaByte allocated inside otherInside]
      split
      · exact L.tags.tag_ne_empty h
      · exact occupied

theorem fillSlot_holds_iff (allocated : table.Allocated) (inside : table.InRange slot)
    (other : Slot) (otherKey : K) (otherValue : V) :
    (table.fillSlot h slot key value).Holds other otherKey otherValue ↔
      (other = slot ∧ otherKey = key ∧ otherValue = value) ∨
        (other ≠ slot ∧ table.Holds other otherKey otherValue) := by
  unfold Holds
  rw [fillSlot_occupied_iff allocated inside]
  by_cases same : other = slot
  · subst same
    simp only [RawTable.key, RawTable.value, fillSlot, KvStorage.key_write, KvStorage.value_write,
      ↓reduceIte, Option.some.injEq, true_or, true_and, ne_eq, not_true, false_and, or_false]
    exact and_congr eq_comm eq_comm
  · simp only [same, false_or, false_and, ne_eq, not_false_iff, true_and]
    refine and_congr_right fun occupied => ?_
    have different : ¬ L.bucketIndex other.1 other.2 = L.bucketIndex slot.1 slot.2 :=
      fun equal => same ((bucketIndex_eq_iff inside occupied.1).mp equal)
    simp only [RawTable.key, RawTable.value, fillSlot, KvStorage.key_write, KvStorage.value_write,
      different, ↓reduceIte]

theorem fillSlot_occupiedSlots_perm (allocated : table.Allocated) (inside : table.InRange slot)
    (empty : table.metaByte slot.1 slot.2 = EMPTY) :
    (table.fillSlot h slot key value).occupiedSlots.Perm (slot :: table.occupiedSlots) := by
  have fresh : slot ∉ table.occupiedSlots := fun member => (mem_occupiedSlots.mp member).2 empty
  rw [List.perm_ext_iff_of_nodup (occupiedSlots_nodup _)
    (List.nodup_cons.mpr ⟨fresh, occupiedSlots_nodup _⟩)]
  intro other
  rw [List.mem_cons, mem_occupiedSlots, mem_occupiedSlots, fillSlot_occupied_iff allocated inside]

/-- An absent key goes into an empty slot of a group its probe sequence reaches
by passing groups with its bit set. -/
theorem fillSlot_refines (refines : table.Refines hash map) (absent : map key = none)
    (allocated : table.Allocated) (inside : table.InRange slot)
    (empty : table.metaByte slot.1 slot.2 = EMPTY) (room : table.len < table.maxLoad) {probe : Nat}
    (reached : table.probeAt (hash key) probe = slot.1) (passed : table.Passed (hash key) probe) :
    (table.fillSlot (hash key) slot key value).Refines hash (map.insert key value) ∧
      (table.fillSlot (hash key) slot key value).Holds slot key value := by
  have filled : (table.fillSlot (hash key) slot key value).Holds slot key value :=
    (fillSlot_holds_iff allocated inside _ _ _).mpr (.inl ⟨rfl, rfl, rfl⟩)
  refine ⟨⟨?_, ?_⟩, filled⟩
  · exact
      { power := refines.valid.power
        shift := refines.valid.shift
        len_eq := by
          rw [(fillSlot_occupiedSlots_perm allocated inside empty).length_eq, List.length_cons,
            ← refines.valid.len_eq]
          rfl
        len_le := room
        maxLoad_le := refines.valid.maxLoad_le
        allocated := fun _ => filled.1.allocated
        stored := by
          intro other occupied
          by_cases same : other = slot
          · subst same
            refine ⟨key, value, filled, ?_, probe, reached, (fillSlot_passed_iff inside _ _).mpr passed⟩
            rw [fillSlot_metaByte allocated inside inside, if_pos rfl]
          · have before := ((fillSlot_occupied_iff allocated inside other).mp occupied).resolve_left same
            obtain ⟨otherKey, otherValue, holds, tag, position, at_, way⟩ :=
              refines.valid.stored other before
            refine ⟨otherKey, otherValue,
              (fillSlot_holds_iff allocated inside _ _ _).mpr (.inr ⟨same, holds⟩), ?_,
              position, at_, (fillSlot_passed_iff inside _ _).mpr way⟩
            rw [fillSlot_metaByte allocated inside before.1, if_neg same, tag] }
  · refine refines.stores.put (fillSlot_holds_iff allocated inside) ?_ ?_
    · intro otherKey otherValue holds
      exact absurd empty holds.1.2
    · intro other otherValue holds
      exact absurd holds (refines.stores.absent absent other otherValue)

end Fill

/-! ## Erasing -/

section Erase
variable {slot : Slot} {key : K} {value : V}

/-- The slot cleared, before the anti-drift step. -/
def clearSlot (table : RawTable L S K V) (slot : Slot) : RawTable L S K V :=
  { table.setMeta slot.1 slot.2 EMPTY with len := table.len - 1 }

/-- Everything but `max_load` is as after clearing the slot. -/
theorem eraseSlot_eq (inside : table.InRange slot) (h : UInt64) :
    table.eraseSlot h slot =
      { table.clearSlot slot with
        maxLoad := if table.hasOverflowBit (table.groupIndex h) (L.tags.overflowChannel h)
          then table.maxLoad - 1 else table.maxLoad } := by
  have bit := hasOverflowBit_setMeta inside.1 inside.2 EMPTY (table.groupIndex h)
    (L.tags.overflowChannel h)
  have sameBit : (table.clearSlot slot).hasOverflowBit (table.groupIndex h)
      (L.tags.overflowChannel h) = table.hasOverflowBit (table.groupIndex h)
      (L.tags.overflowChannel h) := bit
  unfold eraseSlot
  change (if (table.clearSlot slot).hasOverflowBit (table.groupIndex h) (L.tags.overflowChannel h)
    then _ else _) = _
  rw [sameBit]
  split <;> rfl

theorem eraseSlot_metaByte (allocated : table.Allocated) (inside : table.InRange slot) (h : UInt64)
    {other : Slot} (otherInside : table.InRange other) :
    (table.eraseSlot h slot).metaByte other.1 other.2 =
      if other = slot then EMPTY else table.metaByte other.1 other.2 := by
  rw [eraseSlot_eq inside]
  exact metaByte_setMeta allocated inside otherInside EMPTY

theorem eraseSlot_hasOverflowBit (inside : table.InRange slot) (h : UInt64) (group : Nat)
    (channel : UInt8) :
    (table.eraseSlot h slot).hasOverflowBit group channel = table.hasOverflowBit group channel := by
  rw [eraseSlot_eq inside]
  exact hasOverflowBit_setMeta inside.1 inside.2 EMPTY group channel

theorem eraseSlot_fields (inside : table.InRange slot) (h : UInt64) :
    (table.eraseSlot h slot).mask = table.mask ∧ (table.eraseSlot h slot).shift = table.shift ∧
      (table.eraseSlot h slot).buckets = table.buckets ∧
      (table.eraseSlot h slot).len = table.len - 1 := by
  rw [eraseSlot_eq inside]
  exact ⟨rfl, rfl, rfl, rfl⟩

theorem eraseSlot_probeAt (inside : table.InRange slot) (h other : UInt64) (probe : Nat) :
    (table.eraseSlot h slot).probeAt other probe = table.probeAt other probe := by
  obtain ⟨mask, shift, _, _⟩ := eraseSlot_fields inside h
  unfold probeAt groupIndex
  rw [mask, shift]

theorem eraseSlot_occupied_iff (allocated : table.Allocated) (inside : table.InRange slot)
    (h : UInt64) (other : Slot) :
    (table.eraseSlot h slot).Occupied other ↔ other ≠ slot ∧ table.Occupied other := by
  unfold Occupied InRange
  rw [(eraseSlot_fields inside h).1]
  constructor
  · rintro ⟨otherInside, occupied⟩
    rw [eraseSlot_metaByte allocated inside h otherInside] at occupied
    by_cases same : other = slot
    · rw [if_pos same] at occupied; exact absurd rfl occupied
    · exact ⟨same, otherInside, by simpa [same] using occupied⟩
  · rintro ⟨different, otherInside, occupied⟩
    exact ⟨otherInside, by rw [eraseSlot_metaByte allocated inside h otherInside, if_neg different]; exact occupied⟩

theorem eraseSlot_holds_iff (allocated : table.Allocated) (inside : table.InRange slot)
    (h : UInt64) (other : Slot) (otherKey : K) (otherValue : V) :
    (table.eraseSlot h slot).Holds other otherKey otherValue ↔
      other ≠ slot ∧ table.Holds other otherKey otherValue := by
  unfold Holds RawTable.key RawTable.value
  rw [eraseSlot_occupied_iff allocated inside, (eraseSlot_fields inside h).2.2.1, and_assoc]

theorem eraseSlot_occupiedSlots_perm (occupied : table.Occupied slot) (h : UInt64) :
    table.occupiedSlots.Perm (slot :: (table.eraseSlot h slot).occupiedSlots) := by
  have erased := eraseSlot_occupied_iff occupied.allocated occupied.1 h
  have fresh : slot ∉ (table.eraseSlot h slot).occupiedSlots := fun member =>
    ((erased slot).mp (mem_occupiedSlots.mp member)).1 rfl
  rw [List.perm_ext_iff_of_nodup (occupiedSlots_nodup _)
    (List.nodup_cons.mpr ⟨fresh, occupiedSlots_nodup _⟩)]
  intro other
  rw [List.mem_cons, mem_occupiedSlots, mem_occupiedSlots, erased]
  by_cases same : other = slot
  · subst same; simp [occupied]
  · simp [same]

/-- The anti-drift step lowers `max_load` by at most one, as `len` does. -/
theorem eraseSlot_maxLoad (inside : table.InRange slot) (h : UInt64) :
    table.maxLoad - 1 ≤ (table.eraseSlot h slot).maxLoad ∧
      (table.eraseSlot h slot).maxLoad ≤ table.maxLoad := by
  rw [eraseSlot_eq inside]
  simp only
  split <;> omega

theorem eraseSlot_refines (refines : table.Refines hash map) (holds : table.Holds slot key value) :
    (table.eraseSlot (hash key) slot).Refines hash (map.erase key) := by
  have allocated := holds.1.allocated
  have inside := holds.1.1
  obtain ⟨mask, shift, _, len⟩ := eraseSlot_fields inside (hash key)
  have loads := eraseSlot_maxLoad inside (hash key)
  have lenLe := refines.valid.len_le
  constructor
  · exact
      { power := mask ▸ refines.valid.power
        shift := by rw [shift, mask]; exact refines.valid.shift
        len_eq := by
          have counted := (eraseSlot_occupiedSlots_perm holds.1 (hash key)).length_eq
          rw [List.length_cons, ← refines.valid.len_eq] at counted
          omega
        len_le := by omega
        maxLoad_le := by rw [mask]; exact loads.2.trans refines.valid.maxLoad_le
        allocated := by
          intro _
          rw [eraseSlot_eq inside]
          exact setMeta_allocated allocated _ _ EMPTY
        stored := by
          intro other occupied
          obtain ⟨different, before⟩ := (eraseSlot_occupied_iff allocated inside _ other).mp occupied
          obtain ⟨otherKey, otherValue, otherHolds, tag, probe, reached, passed⟩ :=
            refines.valid.stored other before
          refine ⟨otherKey, otherValue,
            (eraseSlot_holds_iff allocated inside _ _ _ _).mpr ⟨different, otherHolds⟩, ?_, probe, ?_, ?_⟩
          · rw [eraseSlot_metaByte allocated inside _ before.1, if_neg different, tag]
          · rw [eraseSlot_probeAt inside, reached]
          · intro earlier below
            rw [eraseSlot_hasOverflowBit inside, eraseSlot_probeAt inside]
            exact passed earlier below }
  · exact refines.stores.drop holds (eraseSlot_holds_iff allocated inside (hash key))

end Erase

/-! ## Overwriting a value -/

section Write
variable {slot : Slot} {key : K} {old : V}

theorem writeValue_holds_iff (holds : table.Holds slot key old) (value : V) (other : Slot)
    (otherKey : K) (otherValue : V) :
    (table.writeValue slot value).Holds other otherKey otherValue ↔
      (other = slot ∧ otherKey = key ∧ otherValue = value) ∨
        (other ≠ slot ∧ table.Holds other otherKey otherValue) := by
  have occupied : (table.writeValue slot value).Occupied other ↔ table.Occupied other := Iff.rfl
  unfold Holds
  rw [occupied]
  simp only [RawTable.key, RawTable.value, writeValue, KvStorage.key_writeValue,
    KvStorage.value_writeValue table.buckets _ _ old value holds.2.2]
  by_cases same : other = slot
  · subst same
    have stored : KvStorage.key table.buckets (L.bucketIndex other.1 other.2) = some key := holds.2.1
    simp only [stored, Option.some.injEq, ↓reduceIte, true_and, ne_eq, not_true, false_and, or_false]
    constructor
    · rintro ⟨_, keys, values⟩; exact ⟨keys.symm, values.symm⟩
    · rintro ⟨keys, values⟩; exact ⟨holds.1, keys.symm, values.symm⟩
  · simp only [same, false_and, ne_eq, not_false_iff, true_and, false_or]
    refine and_congr_right fun otherOccupied => ?_
    have different : ¬ L.bucketIndex other.1 other.2 = L.bucketIndex slot.1 slot.2 :=
      fun equal => same ((bucketIndex_eq_iff holds.1.1 otherOccupied.1).mp equal)
    simp only [different, ↓reduceIte]

theorem writeValue_refines (refines : table.Refines hash map) (holds : table.Holds slot key old)
    (value : V) : (table.writeValue slot value).Refines hash (map.insert key value) := by
  have written := writeValue_holds_iff holds value
  constructor
  · exact
      { refines.valid with
        stored := by
          intro other occupied
          obtain ⟨otherKey, otherValue, otherHolds, located⟩ := refines.valid.stored other occupied
          by_cases same : other = slot
          · subst same
            obtain ⟨rfl, rfl⟩ := otherHolds.entry_unique holds
            exact ⟨otherKey, value, (written _ _ _).mpr (.inl ⟨rfl, rfl, rfl⟩), located⟩
          · exact ⟨otherKey, otherValue, (written _ _ _).mpr (.inr ⟨same, otherHolds⟩), located⟩ }
  · refine refines.stores.put written ?_ ?_
    · intro otherKey otherValue otherHolds
      exact (otherHolds.entry_unique holds).1
    · intro other otherValue otherHolds
      exact refines.stores.unique otherHolds holds

end Write

end RawTable

end Optimap.Overflow
