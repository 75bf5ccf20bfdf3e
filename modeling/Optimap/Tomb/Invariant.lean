import Optimap.Tomb.RawTable

/-!
# The tombstone invariant

A stored key is only ever passed by groups without an EMPTY slot, and
`growth_left` counts the EMPTY slots that may still be used up. Writing any byte
but EMPTY keeps both.
-/

set_option autoImplicit false
set_option linter.unusedSectionVars false

namespace Optimap.Tomb

open Lib Hash Map

namespace Engine

variable (engine : Engine)

theorem groupSize_pos : 0 < engine.groupSize := by cases engine <;> decide

theorem maxLoadFor_pos (numGroups : Nat) (positive : 0 < numGroups) :
    0 < engine.maxLoadFor numGroups := by
  cases engine <;> simp only [maxLoadFor, maxLoadForCapacity, groupSize] <;> omega

theorem maxLoadFor_lt (numGroups : Nat) (positive : 0 < numGroups) :
    engine.maxLoadFor numGroups < numGroups * engine.groupSize := by
  cases engine <;> simp only [maxLoadFor, maxLoadForCapacity, groupSize] <;> omega

theorem maxLoadFor_double (numGroups : Nat) :
    2 * engine.maxLoadFor numGroups ≤ engine.maxLoadFor (numGroups * 2) := by
  cases engine <;> simp only [maxLoadFor, maxLoadForCapacity, groupSize] <;> omega

theorem maxLoadFor_mono {small large : Nat} (le : small ≤ large) :
    engine.maxLoadFor small ≤ engine.maxLoadFor large :=
  Nat.div_le_div_right (Nat.mul_le_mul_right _ (Nat.mul_le_mul_right _ le))

theorem le_maxLoadFor_groupsForCapacity (capacity : Nat) :
    capacity ≤ engine.maxLoadFor (engine.groupsForCapacity capacity) :=
  le_maxLoad_groupsFor engine.groupSize_pos (by decide) (by decide) capacity

theorem groupsForCapacity_power (capacity : Nat) :
    ∃ bits, engine.groupsForCapacity capacity = 2 ^ bits :=
  nextPowerOfTwo_power _

/-- Both addressings number the slots row by row. -/
theorem bucketIndex_eq {gi si : Nat} (inside : si < engine.groupSize) :
    engine.bucketIndex gi si = gi * engine.groupSize + si := by
  cases engine with
  | inPlaceOverflow =>
      have small : si < 2 ^ 4 := inside
      rw [bucketIndex, ← Nat.shiftLeft_add_eq_or_of_lt small, Nat.shiftLeft_eq]
      rfl
  | ipo64 => rfl

end Engine

namespace RawTable

variable {engine : Engine} {tag : TombstoneTag} {S : Type → Type → Type} [KvStorage S] {K V : Type}
  {table : RawTable engine tag S K V}

def Allocated (table : RawTable engine tag S K V) : Prop := ∃ bytes, table.ctrl = .alloc bytes

def InRange (table : RawTable engine tag S K V) (slot : Slot) : Prop :=
  slot.1 ≤ table.mask ∧ slot.2 < engine.groupSize

def Occupied (table : RawTable engine tag S K V) (slot : Slot) : Prop :=
  table.InRange slot ∧ table.metaByte slot.1 slot.2 ≠ EMPTY ∧
    table.metaByte slot.1 slot.2 ≠ TOMBSTONE

/-- The slot is occupied by the pair. -/
def Holds (table : RawTable engine tag S K V) (slot : Slot) (key : K) (value : V) : Prop :=
  table.Occupied slot ∧ table.key slot = some key ∧ table.value slot = some value

/-- The slots that are not EMPTY: occupied ones and tombstones. -/
def usedSlots (table : RawTable engine tag S K V) : List Slot := table.slotsWhere (· != EMPTY)

/-- The group at each probe position of a hash. -/
def probeAt (table : RawTable engine tag S K V) (h : UInt64) (probe : Nat) : Nat :=
  probeGroup table.mask (table.groupIndex h) probe

/-- No group before probe position `probe` has an EMPTY slot. -/
def Passed (table : RawTable engine tag S K V) (h : UInt64) (probe : Nat) : Prop :=
  ∀ earlier < probe, table.matchEmpty (table.probeAt h earlier) = []

/-- An unallocated table reads the sentinel; an allocated one keeps its maximum load. -/
def Shaped (table : RawTable engine tag S K V) : Prop :=
  (table.ctrl = .sentinel ∧ table.mask = 0 ∧ table.maxLoad = 0) ∨
    (table.Allocated ∧ table.maxLoad = engine.maxLoadFor (table.mask + 1))

structure Valid (hash : K → UInt64) (table : RawTable engine tag S K V) : Prop where
  power : ∃ bits, table.mask + 1 = 2 ^ bits
  shift : table.shift = 64 - (table.mask + 1).log2
  shaped : table.Shaped
  len_eq : table.len = table.occupiedSlots.length
  growth : table.growthLeft + table.usedSlots.length = table.maxLoad
  stored : ∀ slot, table.Occupied slot → ∃ key value, table.Holds slot key value ∧
    table.metaByte slot.1 slot.2 = tag.reducedHash (hash key) ∧
    ∃ probe, table.probeAt (hash key) probe = slot.1 ∧ table.Passed (hash key) probe

/-- The table stands for the finite map. -/
structure Refines (hash : K → UInt64) (table : RawTable engine tag S K V) (map : PMap K V) : Prop where
  valid : table.Valid hash
  stores : Stores table.Holds map

/-! ## Slots as lists -/

theorem mem_matchWhere {gi si : Nat} {test : UInt8 → Bool} :
    si ∈ table.matchWhere gi test ↔ si < engine.groupSize ∧ test (table.metaByte gi si) = true := by
  simp [matchWhere]

theorem mem_matchByte {gi si : Nat} {byte : UInt8} :
    si ∈ table.matchByte gi byte ↔ si < engine.groupSize ∧ table.metaByte gi si = byte := by
  simp [matchByte, mem_matchWhere]

theorem matchEmpty_eq_nil {gi : Nat} :
    table.matchEmpty gi = [] ↔ ∀ si < engine.groupSize, table.metaByte gi si ≠ EMPTY := by
  simp [matchEmpty, List.eq_nil_iff_forall_not_mem, mem_matchByte]

theorem mem_slotsWhere {slot : Slot} {test : UInt8 → Bool} :
    slot ∈ table.slotsWhere test ↔
      table.InRange slot ∧ test (table.metaByte slot.1 slot.2) = true := by
  obtain ⟨gi, si⟩ := slot
  simp only [slotsWhere, List.mem_flatMap, List.mem_range, List.mem_map, mem_matchWhere,
    Prod.mk.injEq, InRange, numGroups, Nat.lt_succ_iff]
  constructor
  · rintro ⟨group, bound, index, ⟨inside, accepted⟩, rfl, rfl⟩
    exact ⟨⟨bound, inside⟩, accepted⟩
  · rintro ⟨⟨bound, inside⟩, accepted⟩
    exact ⟨gi, bound, si, ⟨inside, accepted⟩, rfl, rfl⟩

theorem slotsWhere_nodup (table : RawTable engine tag S K V) (test : UInt8 → Bool) :
    (table.slotsWhere test).Nodup := by
  unfold slotsWhere
  rw [List.nodup_flatMap]
  constructor
  · intro gi _
    refine List.Nodup.map (fun _ _ same => (Prod.mk.inj same).2) ?_
    exact List.nodup_range.filter _
  · refine (List.nodup_range).imp ?_
    intro first second different
    simp only [Function.onFun, List.disjoint_left, List.mem_map]
    rintro slot ⟨_, _, rfl⟩ ⟨_, _, same⟩
    exact different (Prod.mk.inj same).1.symm

theorem mem_occupiedSlots {slot : Slot} : slot ∈ table.occupiedSlots ↔ table.Occupied slot := by
  simp [occupiedSlots, mem_slotsWhere, Occupied]

theorem mem_usedSlots {slot : Slot} :
    slot ∈ table.usedSlots ↔ table.InRange slot ∧ table.metaByte slot.1 slot.2 ≠ EMPTY := by
  simp [usedSlots, mem_slotsWhere]

theorem findInGroup_eq_none {h : UInt64} {eq : K → Bool} {gi : Nat} :
    table.findInGroup h eq gi = none ↔ ∀ si < engine.groupSize,
      table.metaByte gi si = tag.reducedHash h → ∀ key, table.key (gi, si) = some key →
        eq key = false := by
  simp only [findInGroup, List.find?_eq_none, mem_matchByte, Bool.not_eq_true, and_imp]
  refine forall_congr' fun si => imp_congr_right fun _ => imp_congr_right fun _ => ?_
  cases table.key (gi, si) <;> simp

theorem findInGroup_eq_some {h : UInt64} {eq : K → Bool} {gi si : Nat}
    (found : table.findInGroup h eq gi = some si) :
    si < engine.groupSize ∧ table.metaByte gi si = tag.reducedHash h ∧
      ∃ key, table.key (gi, si) = some key ∧ eq key = true := by
  obtain ⟨inside, tagged⟩ := mem_matchByte.mp (List.mem_of_find?_eq_some found)
  have matched := List.find?_some found
  refine ⟨inside, tagged, ?_⟩
  cases stored : table.key (gi, si) with
  | none => rw [stored] at matched; exact absurd matched (by simp)
  | some key => rw [stored] at matched; exact ⟨key, rfl, by simpa using matched⟩

theorem groupIndex_le (table : RawTable engine tag S K V) (h : UInt64) :
    table.groupIndex h ≤ table.mask := by
  unfold groupIndex Engine.groupIndex
  split <;> exact Nat.and_le_right

theorem probeAt_le (table : RawTable engine tag S K V) (h : UInt64) (probe : Nat) :
    table.probeAt h probe ≤ table.mask :=
  probeGroup_le (table.groupIndex_le h) probe

theorem nextGroup_probeAt (table : RawTable engine tag S K V) (h : UInt64) (probe : Nat) :
    table.nextGroup (table.probeAt h probe) (probe + 1) = table.probeAt h (probe + 1) := rfl

theorem Passed.start (table : RawTable engine tag S K V) (h : UInt64) : table.Passed h 0 := by
  intro earlier below
  omega

theorem Passed.extend {h : UInt64} {probe : Nat} (passed : table.Passed h probe)
    (full : table.matchEmpty (table.probeAt h probe) = []) : table.Passed h (probe + 1) := by
  intro earlier below
  rcases Nat.lt_succ_iff_lt_or_eq.mp below with before | rfl
  · exact passed earlier before
  · exact full

/-! ## Writing a metadata byte -/

section SetMeta
variable {slot : Slot}

theorem metaByte_setMeta (allocated : table.Allocated) {other : Slot} (inside : table.InRange slot)
    (otherInside : table.InRange other) (byte : UInt8) :
    (table.setMeta slot byte).metaByte other.1 other.2 =
      if other = slot then byte else table.metaByte other.1 other.2 := by
  unfold metaByte setMeta
  rw [Ctrl.read_write allocated]
  by_cases same : other.1 * engine.groupSize + other.2 = slot.1 * engine.groupSize + slot.2
  · rw [if_pos same, if_pos (Prod.ext_iff.mpr (strided_inj otherInside.2 inside.2 same))]
  · have different : other ≠ slot := by
      rintro rfl
      exact same rfl
    rw [if_neg same, if_neg different]

theorem setMeta_allocated (allocated : table.Allocated) (slot : Slot) (byte : UInt8) :
    (table.setMeta slot byte).Allocated := by
  obtain ⟨bytes, shape⟩ := allocated
  exact ⟨_, by rw [setMeta, shape, Ctrl.write]⟩

/-- A group that was passed stays passed: only EMPTY would stop a probe. -/
theorem Passed.setMeta (allocated : table.Allocated) (inside : table.InRange slot) {byte : UInt8}
    (used : byte ≠ EMPTY) {h : UInt64} {probe : Nat} (passed : table.Passed h probe) :
    (table.setMeta slot byte).Passed h probe := by
  intro earlier below
  have full := matchEmpty_eq_nil.mp (passed earlier below)
  refine matchEmpty_eq_nil.mpr fun si bound => ?_
  have otherInside : table.InRange (table.probeAt h earlier, si) := ⟨table.probeAt_le h earlier, bound⟩
  have byteRead := metaByte_setMeta allocated inside otherInside byte
  simp only at byteRead
  change (table.setMeta slot byte).metaByte (table.probeAt h earlier) si ≠ EMPTY
  rw [byteRead]
  split
  · exact used
  · exact full si bound

/-- One slot changes its byte: the slots that pass a test lose the old byte's
vote and gain the new one's. -/
theorem slotsWhere_setMeta_length (allocated : table.Allocated) (inside : table.InRange slot)
    (byte : UInt8) (test : UInt8 → Bool) :
    ((table.setMeta slot byte).slotsWhere test).length +
        (if test (table.metaByte slot.1 slot.2) then 1 else 0) =
      (table.slotsWhere test).length + (if test byte then 1 else 0) := by
  have others : ((table.setMeta slot byte).slotsWhere test).erase slot |>.Perm
      ((table.slotsWhere test).erase slot) := by
    rw [List.perm_ext_iff_of_nodup ((slotsWhere_nodup _ _).erase _) ((slotsWhere_nodup _ _).erase _)]
    intro other
    rw [(slotsWhere_nodup _ _).mem_erase_iff, (slotsWhere_nodup _ _).mem_erase_iff, mem_slotsWhere,
      mem_slotsWhere]
    refine and_congr_right fun different => and_congr_right fun otherInside => ?_
    rw [metaByte_setMeta allocated inside otherInside, if_neg different]
  have lengths := others.length_eq
  have newMember : slot ∈ (table.setMeta slot byte).slotsWhere test ↔ test byte = true := by
    rw [mem_slotsWhere, metaByte_setMeta allocated inside inside, if_pos rfl]
    exact and_iff_right inside
  have oldMember : slot ∈ table.slotsWhere test ↔ test (table.metaByte slot.1 slot.2) = true := by
    rw [mem_slotsWhere]
    exact and_iff_right inside
  have positive : ∀ {slots : List Slot}, slot ∈ slots → 0 < slots.length :=
    fun member => List.length_pos_of_mem member
  rw [List.length_erase, List.length_erase] at lengths
  simp only [newMember, oldMember] at lengths
  by_cases before : test (table.metaByte slot.1 slot.2) = true <;>
    by_cases after : test byte = true <;>
    simp only [before, after, ↓reduceIte, Bool.false_eq_true] at lengths ⊢
  · have := positive (newMember.mpr after)
    have := positive (oldMember.mpr before)
    omega
  · have := positive (oldMember.mpr before)
    omega
  · have := positive (newMember.mpr after)
    omega
  · omega

end SetMeta

/-! ## An EMPTY slot is always left -/

theorem all_slots_length (table : RawTable engine tag S K V) :
    (table.slotsWhere fun _ => true).length = table.numGroups * engine.groupSize := by
  simp [slotsWhere, matchWhere, List.length_flatMap]

theorem Valid.exists_empty {hash : K → UInt64} (valid : table.Valid hash) :
    ∃ slot, table.InRange slot ∧ table.metaByte slot.1 slot.2 = EMPTY := by
  rcases valid.shaped with ⟨sentinel, _, _⟩ | ⟨_, maxLoad⟩
  · refine ⟨(0, 0), ⟨Nat.zero_le _, engine.groupSize_pos⟩, ?_⟩
    rw [metaByte, sentinel]
    rfl
  · by_contra none_empty
    push Not at none_empty
    have everything : table.usedSlots.Perm (table.slotsWhere fun _ => true) := by
      rw [usedSlots, List.perm_ext_iff_of_nodup (slotsWhere_nodup _ _) (slotsWhere_nodup _ _)]
      intro slot
      rw [mem_slotsWhere, mem_slotsWhere]
      refine and_congr_right fun inside => ?_
      simpa using none_empty slot inside
    have full := everything.length_eq
    rw [all_slots_length, numGroups] at full
    have room := engine.maxLoadFor_lt (table.mask + 1) (by omega)
    have growth := valid.growth
    rw [maxLoad, full] at growth
    omega

/-- Every probe sequence meets an EMPTY slot within `num_groups` rounds. -/
theorem Valid.exists_empty_probe {hash : K → UInt64} (valid : table.Valid hash) (h : UInt64) :
    ∃ probe, probe ≤ table.mask ∧ table.matchEmpty (table.probeAt h probe) ≠ [] := by
  obtain ⟨⟨gi, si⟩, ⟨bound, inside⟩, empty⟩ := valid.exists_empty
  obtain ⟨bits, power⟩ := valid.power
  obtain ⟨probe, early, reached⟩ := probeGroup_surjective power (table.groupIndex_le h) bound
  refine ⟨probe, early, fun full => ?_⟩
  rw [probeAt, reached, matchEmpty_eq_nil] at full
  exact full si inside empty

end RawTable

end Optimap.Tomb
