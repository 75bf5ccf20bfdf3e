import Optimap.Map.GenericMapRefinement
import Optimap.Overflow.Probes

/-!
# The overflow-bit table refines a finite map

Every operation of the engine, from the slot updates and the probe loops, and
from them the contract that `GenericMap` relies on.
-/

set_option autoImplicit false
set_option linter.unusedSectionVars false

namespace Optimap.Overflow

open Lib Hash Map

namespace RawTable

variable {L : GroupLayout} {S : Type → Type → Type} [KvStorage S] {K V : Type} [DecidableEq K]
  {hash : K → UInt64} {table : RawTable L S K V} {map : PMap K V}

/-! ## Empty tables -/

theorem occupiedSlots_eq_nil (vacant : ∀ slot, ¬ table.Occupied slot) : table.occupiedSlots = [] := by
  rw [List.eq_nil_iff_forall_not_mem]
  exact fun slot member => vacant slot (mem_occupiedSlots.mp member)

theorem refines_empty (vacant : ∀ slot, ¬ table.Occupied slot)
    (power : ∃ bits, table.mask + 1 = 2 ^ bits) (shift : table.shift = 64 - (table.mask + 1).log2)
    (len : table.len = 0) (maxLoad : table.maxLoad ≤ L.maxLoadFor (table.mask + 1))
    (allocated : 0 < table.maxLoad → table.Allocated) : table.Refines hash PMap.empty where
  valid :=
    { power, shift, allocated
      len_eq := by rw [len, occupiedSlots_eq_nil vacant]; rfl
      len_le := by omega
      maxLoad_le := maxLoad
      stored := fun slot occupied => absurd occupied (vacant slot) }
  stores := .empty fun slot _ _ holds => vacant slot holds.1

theorem new_refines : (new : RawTable L S K V).Refines hash PMap.empty :=
  refines_empty (fun _ occupied => occupied.2 rfl) ⟨0, rfl⟩ (show 64 = 64 - Nat.log2 1 by decide) rfl (Nat.zero_le _)
    (fun positive => absurd positive (Nat.lt_irrefl 0))

theorem allocate_refines {numGroups : Nat} (power : ∃ bits, numGroups = 2 ^ bits)
    (len : table.len = 0) : (table.allocate numGroups).Refines hash PMap.empty := by
  obtain ⟨bits, rfl⟩ := power
  have groups : (2 ^ bits - 1) + 1 = 2 ^ bits := Nat.sub_add_cancel Nat.one_le_two_pow
  refine refines_empty (fun _ occupied => occupied.2 rfl) ⟨bits, groups⟩ ?_ len ?_ (fun _ => ⟨_, rfl⟩)
  · simp only [allocate, groups]
  · simp only [allocate, groups, le_refl]

/-- A table without load stands for the empty map, whatever its groups. -/
theorem Refines.map_eq_empty (refines : table.Refines hash map) (len : table.len = 0) :
    map = PMap.empty := by
  have slots : table.occupiedSlots = [] := by
    rw [← List.length_eq_zero_iff, ← refines.valid.len_eq, len]
  refine refines.stores.eq_empty fun slot key value holds => ?_
  have member := mem_occupiedSlots.mpr holds.1
  rw [slots] at member
  cases member

theorem clear_refines (refines : table.Refines hash map) : table.clear.Refines hash PMap.empty := by
  have lenLe := refines.valid.len_le
  unfold clear
  split
  · rename_i unloaded
    exact refines.map_eq_empty (by omega) ▸ refines
  · rename_i loaded
    have live : 0 < table.maxLoad := by omega
    obtain ⟨bytes, shape⟩ := refines.valid.allocated live
    refine refines_empty ?_ refines.valid.power refines.valid.shift rfl (le_refl _)
      (fun _ => ⟨_, by rw [shape, Ctrl.zero]⟩)
    rintro slot ⟨inside, occupied⟩
    apply occupied
    have inMeta := GroupLayout.metaOffset_lt (L := L) inside.1 inside.2
    have zeroed : L.metaOffset slot.1 slot.2 < L.ctrlBytes (table.mask + 1) :=
      Nat.lt_of_lt_of_le inMeta (Nat.le_add_right _ _)
    simp only [metaByte, shape, Ctrl.zero, Ctrl.read, numGroups, zeroed, ↓reduceIte]
    rfl

/-! ## Enumeration -/

theorem Valid.iterSlots_eq (valid : table.Valid hash) : table.iterSlots = table.occupiedSlots := by
  rcases Nat.eq_zero_or_pos table.maxLoad with unloaded | live
  · have slots : table.occupiedSlots = [] := by
      have lenLe := valid.len_le
      rw [← List.length_eq_zero_iff, ← valid.len_eq]
      omega
    rw [slots]
    unfold occupiedSlots at slots
    rw [List.flatMap_eq_nil_iff] at slots
    unfold iterSlots
    rw [List.flatMap_eq_nil_iff]
    intro gi member
    split
    · rfl
    · exact slots gi member
  · have loaded : table.maxLoad ≠ 0 := by omega
    simp only [iterSlots, occupiedSlots, loaded, and_false, ↓reduceIte]

theorem Valid.mem_occupiedSlots_iff (valid : table.Valid hash) (slot : Slot) :
    slot ∈ table.occupiedSlots ↔ ∃ key value, table.Holds slot key value := by
  rw [mem_occupiedSlots]
  constructor
  · intro occupied
    obtain ⟨key, value, holds, _⟩ := valid.stored slot occupied
    exact ⟨key, value, holds⟩
  · rintro ⟨key, value, holds⟩
    exact holds.1

theorem Refines.enumerates (refines : table.Refines hash map) :
    PMap.Enumerates (table.occupiedSlots.filterMap table.readSlot) map :=
  refines.stores.enumerates table.occupiedSlots_nodup refines.valid.mem_occupiedSlots_iff
    Holds.readSlot

theorem Valid.readSlots_length (valid : table.Valid hash) :
    (table.occupiedSlots.filterMap table.readSlot).length = table.len := by
  rw [valid.len_eq]
  exact Stores.reads_length (fun slot => (valid.mem_occupiedSlots_iff slot).mp) Holds.readSlot

/-! ## Insertion and rehashing -/

/-- A vacant slot takes an absent key while there is load left. -/
theorem Vacant.fill_refines {key : K} {slot : Slot} (refines : table.Refines hash map)
    (vacant : table.Vacant (hash key) slot) (absent : map key = none)
    (room : table.len < table.maxLoad) (value : V) :
    (table.fillSlot (hash key) slot key value).Refines hash (map.insert key value) ∧
      (table.fillSlot (hash key) slot key value).Holds slot key value := by
  obtain ⟨inside, empty, probe, reached, passed⟩ := vacant
  exact fillSlot_refines refines absent (refines.valid.allocated (by omega)) inside empty room
    reached passed

theorem insertNoCheck_refines {fuel : Nat} {key : K} {value : V} {slot : Slot}
    {later : RawTable L S K V} (refines : table.Refines hash map) (room : table.len < table.maxLoad)
    (absent : map key = none)
    (returned : table.insertNoCheck fuel (hash key) key value = some (slot, later)) :
    later.Refines hash (map.insert key value) ∧ later.Holds slot key value := by
  obtain ⟨last, _, vacant, rfl⟩ :=
    insertNoCheck_returns (refines.valid.allocated (by omega)) returned
  have grow := setBits_bitsGrow (L.tags.overflowChannel (hash key))
    (table.probeRange (hash key) 0 last) table
  exact vacant.fill_refines (grow.refines refines) absent (by rw [grow.len, grow.maxLoad]; exact room)
    value

/-- The size of the table does not change under an insertion without check. -/
theorem insertNoCheck_fields {fuel : Nat} {h : UInt64} {key : K} {value : V} {slot : Slot}
    {later : RawTable L S K V} (allocated : table.Allocated)
    (returned : table.insertNoCheck fuel h key value = some (slot, later)) :
    later.mask = table.mask ∧ later.maxLoad = table.maxLoad ∧ later.len = table.len + 1 := by
  obtain ⟨last, _, _, rfl⟩ := insertNoCheck_returns allocated returned
  have grow := setBits_bitsGrow (L.tags.overflowChannel h) (table.probeRange h 0 last) table
  exact ⟨grow.mask, grow.maxLoad, congrArg (· + 1) grow.len⟩

/-- Re-insertion of entries with distinct new keys, by induction on the entries
left. The load left covers them. -/
theorem reinsert_refines {fuel : Nat} (entries : List (K × V)) :
    ∀ {table later : RawTable L S K V} {map : PMap K V}, table.Refines hash map →
      (entries.map Prod.fst).Nodup → (∀ entry ∈ entries, map entry.1 = none) →
      table.len + entries.length ≤ table.maxLoad →
      reinsert fuel hash entries table = some later →
      later.Refines hash (map.insertAll entries) ∧ later.mask = table.mask ∧
        later.maxLoad = table.maxLoad ∧ later.len = table.len + entries.length := by
  induction entries with
  | nil =>
      intro table later map refines _ _ _ returned
      cases returned
      exact ⟨refines, rfl, rfl, rfl⟩
  | cons entry entries ih =>
      intro table later map refines unique fresh room returned
      rw [List.length_cons] at room
      obtain ⟨⟨slot, middle⟩, inserted, rest⟩ := Option.bind_eq_some_iff.mp returned
      obtain ⟨headFresh, restUnique⟩ := List.nodup_cons.mp unique
      have absent := fresh entry List.mem_cons_self
      have middleRefines := (insertNoCheck_refines refines (by omega) absent inserted).1
      obtain ⟨mask, maxLoad, len⟩ :=
        insertNoCheck_fields (refines.valid.allocated (by omega)) inserted
      have restFresh : ∀ other ∈ entries, map.insert entry.1 entry.2 other.1 = none := by
        intro other member
        have different : other.1 ≠ entry.1 := fun same => headFresh (same ▸ List.mem_map_of_mem member)
        rw [PMap.insert_of_ne map _ different]
        exact fresh other (List.mem_cons_of_mem _ member)
      obtain ⟨laterRefines, laterMask, laterLoad, laterLen⟩ :=
        ih middleRefines restUnique restFresh (by rw [len, maxLoad]; omega) rest
      refine ⟨laterRefines, laterMask.trans mask, laterLoad.trans maxLoad, ?_⟩
      rw [laterLen, len, List.length_cons]
      omega

theorem rehashWith_refines {fuel newNumGroups : Nat} {later : RawTable L S K V}
    (refines : table.Refines hash map) (power : ∃ bits, newNumGroups = 2 ^ bits)
    (room : table.len ≤ L.maxLoadFor newNumGroups)
    (returned : rehashWith fuel hash table newNumGroups = some later) :
    later.Refines hash map ∧ later.mask = newNumGroups - 1 ∧
      later.maxLoad = L.maxLoadFor newNumGroups ∧ later.len = table.len := by
  unfold rehashWith at returned
  simp only at returned
  split at returned
  · have fresh : (table.detached.allocate newNumGroups).Refines hash PMap.empty :=
      allocate_refines power rfl
    have length := refines.valid.readSlots_length
    obtain ⟨laterRefines, mask, maxLoad, len⟩ := reinsert_refines _ fresh refines.enumerates.nodup
      (by simp [PMap.empty]) (by simpa [allocate, detached, length] using room) returned
    rw [refines.enumerates.insertAll_empty] at laterRefines
    exact ⟨laterRefines, mask, maxLoad, by rw [len, length]; exact Nat.zero_add _⟩
  · rename_i unallocated
    have unloaded : table.maxLoad = 0 := by simpa [isAllocated] using unallocated
    have lenLe := refines.valid.len_le
    have len : table.len = 0 := by omega
    cases returned
    rw [refines.map_eq_empty len]
    exact ⟨allocate_refines power rfl, rfl, rfl, len.symm⟩

/-- The group count after growth. -/
def grownGroups (table : RawTable L S K V) : Nat :=
  if table.maxLoad = 0 then 1 else (table.mask + 1) * 2

theorem grownGroups_power (valid : table.Valid hash) : ∃ bits, table.grownGroups = 2 ^ bits := by
  obtain ⟨bits, power⟩ := valid.power
  unfold grownGroups
  split
  · exact ⟨0, rfl⟩
  · exact ⟨bits + 1, by rw [power, pow_succ]⟩

/-- Growth always leaves room for one more entry. -/
theorem len_lt_grown (valid : table.Valid hash) : table.len < L.maxLoadFor table.grownGroups := by
  have lenLe := valid.len_le
  have loadLe := valid.maxLoad_le
  unfold grownGroups
  split
  · rename_i unloaded
    have positive := L.maxLoadFor_pos 1 (by decide)
    omega
  · have double := L.maxLoadFor_double (table.mask + 1)
    have positive := L.maxLoadFor_pos (table.mask + 1) (by omega)
    omega

theorem growAndRehash_refines {fuel : Nat} {later : RawTable L S K V}
    (refines : table.Refines hash map) (returned : table.growAndRehash fuel hash = some later) :
    later.Refines hash map ∧ later.len < later.maxLoad := by
  have room := len_lt_grown refines.valid
  obtain ⟨laterRefines, _, maxLoad, len⟩ :=
    rehashWith_refines refines (grownGroups_power refines.valid) room.le returned
  exact ⟨laterRefines, by rw [maxLoad, len]; exact room⟩

theorem ensureCapacity_refines {fuel : Nat} {later : RawTable L S K V}
    (refines : table.Refines hash map) (returned : ensureCapacity fuel hash table = some later) :
    later.Refines hash map ∧ later.len < later.maxLoad := by
  unfold ensureCapacity at returned
  split at returned
  · exact growAndRehash_refines refines returned
  · cases returned
    exact ⟨refines, by omega⟩

theorem reserve_refines {fuel additional : Nat} {later : RawTable L S K V}
    (refines : table.Refines hash map)
    (returned : reserve fuel hash table additional = some later) : later.Refines hash map := by
  have lenLe := refines.valid.len_le
  unfold reserve at returned
  simp only at returned
  split at returned
  · have len : table.len = 0 := by omega
    cases returned
    split
    · rw [refines.map_eq_empty len]
      exact allocate_refines (L.groupsForCapacity_power _) len
    · exact refines
  · split at returned
    · have room := L.le_maxLoadFor_groupsForCapacity (table.len + additional)
      exact (rehashWith_refines refines (L.groupsForCapacity_power _) (by omega) returned).1
    · cases returned
      exact refines

theorem shrinkToFit_refines {fuel : Nat} {later : RawTable L S K V}
    (refines : table.Refines hash map) (returned : shrinkToFit fuel hash table = some later) :
    later.Refines hash map := by
  unfold shrinkToFit at returned
  split at returned
  · rename_i len
    cases returned
    rw [refines.map_eq_empty len]
    exact new_refines
  · split at returned
    · exact (rehashWith_refines refines (L.groupsForCapacity_power _)
        (L.le_maxLoadFor_groupsForCapacity _) returned).1
    · cases returned
      exact refines

/-! ## Keyed operations -/

theorem absent_of_exhausted {key : K} (refines : table.Refines hash map)
    (exhausted : table.Exhausted (hash key) (fun stored => stored = key)) : map key = none := by
  cases found : map key with
  | none => rfl
  | some value =>
      obtain ⟨slot, holds⟩ := (refines.stores.lookup key value).mp found
      exact absurd holds (exhausted.absent refines.valid slot value)

theorem findByHash_refines {fuel : Nat} {key : K} {result : Option Slot}
    (refines : table.Refines hash map)
    (returned : table.findByHash fuel (hash key) (fun stored => stored = key) = some result) :
    match result with
    | some slot => ∃ value, table.Holds slot key value
    | none => map key = none := by
  have outcome := findByHash_returns returned
  cases result with
  | some slot => exact Matches.holds refines.valid outcome
  | none => exact absent_of_exhausted refines outcome

theorem replaceValue_refines {key : K} {old : V} {slot : Slot} (refines : table.Refines hash map)
    (holds : table.Holds slot key old) (value : V) :
    (table.replaceValue slot value).1 = map key ∧
      (table.replaceValue slot value).2.Refines hash (map.insert key value) :=
  ⟨holds.2.2.trans ((refines.stores.lookup key old).mpr ⟨slot, holds⟩).symm,
    writeValue_refines refines holds value⟩

theorem insertAtCapacity_refines {fuel : Nat} {key : K} {value : V} {result : Option V}
    {later : RawTable L S K V} (refines : table.Refines hash map)
    (returned : table.insertAtCapacity fuel hash (hash key) key value = some (result, later)) :
    result = map key ∧ later.Refines hash (map.insert key value) := by
  obtain ⟨found, looked, returned⟩ := Option.bind_eq_some_iff.mp returned
  have outcome := findByHash_refines refines looked
  cases found with
  | some slot =>
      obtain ⟨old, holds⟩ := outcome
      cases returned
      exact replaceValue_refines refines holds value
  | none =>
      have absent : map key = none := outcome
      obtain ⟨grown, ran, returned⟩ := Option.bind_eq_some_iff.mp returned
      obtain ⟨⟨slot, inserted⟩, placed, same⟩ := Option.bind_eq_some_iff.mp returned
      cases same
      obtain ⟨grownRefines, room⟩ := growAndRehash_refines refines ran
      exact ⟨absent.symm, (insertNoCheck_refines grownRefines room absent placed).1⟩

theorem insertOverflow_refines {fuel : Nat} {key : K} {value : V} {result : Option V}
    {later : RawTable L S K V} (refines : table.Refines hash map) (room : table.len < table.maxLoad)
    (returned : table.insertOverflow fuel hash (hash key) key value = some (result, later)) :
    result = map key ∧ later.Refines hash (map.insert key value) := by
  obtain ⟨found, looked, returned⟩ := Option.bind_eq_some_iff.mp returned
  have outcome := findByHash_refines refines looked
  cases found with
  | some slot =>
      obtain ⟨old, holds⟩ := outcome
      cases returned
      exact replaceValue_refines refines holds value
  | none =>
      have absent : map key = none := outcome
      obtain ⟨grown, kept, returned⟩ := Option.bind_eq_some_iff.mp returned
      rw [if_neg (by omega)] at kept
      cases kept
      obtain ⟨⟨slot, inserted⟩, placed, same⟩ := Option.bind_eq_some_iff.mp returned
      cases same
      exact ⟨absent.symm, (insertNoCheck_refines refines room absent placed).1⟩

/-- A home group without a match and with the bit clear settles the lookup. -/
theorem home_exhausted {key : K}
    (missed : table.findInGroup (hash key) (fun stored => stored = key)
      (table.groupIndex (hash key)) = none)
    (clear : table.hasOverflowBit (table.groupIndex (hash key))
      (L.tags.overflowChannel (hash key)) = false) :
    table.Exhausted (hash key) (fun stored => stored = key) := by
  refine ⟨0, ?_, clear⟩
  intro probe below
  have home : probe = 0 := by omega
  subst home
  exact missed

theorem home_vacant {key : K} {si : Nat}
    (head : (table.matchEmpty (table.groupIndex (hash key))).head? = some si) :
    table.Vacant (hash key) (table.groupIndex (hash key), si) :=
  @matchEmpty_head_vacant _ _ _ _ _ _ _ 0 _ (by intro earlier below; omega) head

theorem insertOrReplace_refines {fuel : Nat} {key : K} {value : V} {result : Option V}
    {later : RawTable L S K V} (refines : table.Refines hash map)
    (returned : insertOrReplace fuel hash table key value = some (result, later)) :
    result = map key ∧ later.Refines hash (map.insert key value) := by
  have lenLe := refines.valid.len_le
  -- The allocation of the first group changes neither contents nor result.
  have prepared : (if table.maxLoad = 0 then table.allocate 1 else table).Refines hash map := by
    split
    · have len : table.len = 0 := by omega
      rw [refines.map_eq_empty len]
      exact allocate_refines ⟨0, rfl⟩ len
    · exact refines
  unfold insertOrReplace at returned
  simp only at returned
  generalize (if table.maxLoad = 0 then table.allocate 1 else table) = start at prepared returned
  split at returned
  · exact insertAtCapacity_refines prepared returned
  · rename_i below
    have room : start.len < start.maxLoad := by omega
    split at returned
    · rename_i si found
      cases returned
      obtain ⟨old, holds⟩ := Matches.holds prepared.valid
        (findInGroup_matches (start.groupIndex_le _) found)
      exact replaceValue_refines prepared holds value
    · rename_i missed
      split at returned
      · rename_i si head clear
        cases returned
        have absent := absent_of_exhausted prepared (home_exhausted missed clear)
        exact ⟨absent.symm, ((home_vacant head).fill_refines prepared absent room value).1⟩
      · exact insertOverflow_refines prepared room returned

theorem findForEntry_refines {fuel : Nat} {key : K} {probe : EntryProbe}
    (refines : table.Refines hash map)
    (returned : table.findForEntry fuel (hash key) key = some probe) :
    match probe with
    | .found slot => ∃ value, table.Holds slot key value
    | .vacant none => map key = none
    | .vacant (some (slot, mask)) => map key = none ∧ table.Vacant (hash key) slot ∧
        table.len < table.maxLoad ∧ table.MaskPassed (hash key) mask := by
  unfold findForEntry at returned
  split at returned
  · obtain ⟨found, looked, returned⟩ := Option.bind_eq_some_iff.mp returned
    have outcome := findByHash_refines refines looked
    cases found with
    | some slot => cases returned; exact outcome
    | none => cases returned; exact outcome
  · rename_i below
    have room : table.len < table.maxLoad := by omega
    simp only at returned
    split at returned
    · rename_i si found
      cases returned
      exact Matches.holds refines.valid (findInGroup_matches (table.groupIndex_le _) found)
    · rename_i missed
      split at returned
      · rename_i si head clear
        cases returned
        exact ⟨absent_of_exhausted refines (home_exhausted missed clear), home_vacant head, room,
          by simp [MaskPassed]⟩
      · obtain ⟨located, ran, returned⟩ := Option.bind_eq_some_iff.mp returned
        have outcome := findOrLocate_returns ran
        cases located with
        | found slot => cases returned; exact Matches.holds refines.valid outcome
        | insertSlot slot mask =>
            cases returned
            exact ⟨absent_of_exhausted refines outcome.2.1, outcome.1, room, outcome.2.2⟩
        | notFound => cases returned; exact absent_of_exhausted refines outcome

theorem insertAt_refines {key : K} {slot : Slot} (refines : table.Refines hash map)
    (absent : map key = none) (vacant : table.Vacant (hash key) slot)
    (room : table.len < table.maxLoad) (fullMask : UInt8) (value : V) :
    (table.insertAt (hash key) slot key value fullMask).Refines hash (map.insert key value) ∧
      (table.insertAt (hash key) slot key value fullMask).Holds slot key value := by
  have grow := setFullMask_bitsGrow (L.tags.overflowChannel (hash key)) 8 table
    (table.groupIndex (hash key)) 0 fullMask
  obtain ⟨inside, empty, probe, reached, passed⟩ := vacant
  unfold insertAt
  refine Vacant.fill_refines (grow.refines refines) ⟨⟨grow.mask ▸ inside.1, inside.2⟩, ?_, probe, ?_, ?_⟩
    absent (by rw [grow.len, grow.maxLoad]; exact room) value
  · rw [grow.metaByte slot inside, empty]
  · rw [grow.probeAt, reached]
  · exact grow.passed passed

theorem removeByHash_refines {fuel : Nat} {key : K} {result : Option (K × V)}
    {later : RawTable L S K V} (refines : table.Refines hash map)
    (returned : table.removeByHash fuel (hash key) (fun stored => stored = key) = some (result, later)) :
    result = (map key).map (fun value => (key, value)) ∧ later.Refines hash (map.erase key) := by
  obtain ⟨found, looked, returned⟩ := Option.bind_eq_some_iff.mp returned
  have outcome := findByHash_refines refines looked
  cases found with
  | some slot =>
      obtain ⟨value, holds⟩ := outcome
      cases returned
      rw [(refines.stores.lookup key value).mpr ⟨slot, holds⟩]
      exact ⟨holds.readSlot, eraseSlot_refines refines holds⟩
  | none =>
      have absent : map key = none := outcome
      cases returned
      refine ⟨by rw [absent]; rfl, ?_⟩
      have unchanged : map.erase key = map := by
        funext other
        by_cases same : other = key <;> simp [PMap.erase, same, absent]
      rw [unchanged]
      exact refines

/-! ## Cloning -/

/-- The copies made by a clone: each visited slot reads as in the source. -/
theorem foldl_cloneSlot_reads (slots : List Slot) :
    ∀ (store : S K V), (∀ slot ∈ slots, ∃ key value, table.Holds slot key value) →
      ∀ other, table.InRange other →
        (KvStorage.key (slots.foldl table.cloneSlot store) (L.bucketIndex other.1 other.2) =
          if other ∈ slots then table.key other
          else KvStorage.key store (L.bucketIndex other.1 other.2)) ∧
        (KvStorage.value (slots.foldl table.cloneSlot store) (L.bucketIndex other.1 other.2) =
          if other ∈ slots then table.value other
          else KvStorage.value store (L.bucketIndex other.1 other.2)) := by
  induction slots with
  | nil => intro store _ other _; simp
  | cons slot slots ih =>
      intro store held other inside
      obtain ⟨key, value, holds⟩ := held slot List.mem_cons_self
      have rest := ih (table.cloneSlot store slot)
        (fun later member => held later (List.mem_cons_of_mem _ member)) other inside
      rw [List.foldl_cons, rest.1, rest.2]
      have copied : table.cloneSlot store slot =
          KvStorage.write store (L.bucketIndex slot.1 slot.2) key value := by
        simp [cloneSlot, holds.readSlot]
      rw [copied, KvStorage.key_write, KvStorage.value_write]
      simp only [bucketIndex_eq_iff holds.1.1 inside, List.mem_cons]
      by_cases later : other ∈ slots
      · simp [later]
      · by_cases same : other = slot
        · subst same
          simp [later, holds.2.1, holds.2.2]
        · simp [later, same]

section Clone
variable (loaded : table.maxLoad ≠ 0)
include loaded

/-- A clone of a loaded table has its size, its load and its control bytes. -/
theorem cloneTable_fields :
    table.cloneTable.mask = table.mask ∧ table.cloneTable.maxLoad = table.maxLoad ∧
      table.cloneTable.len = table.len ∧ table.cloneTable.shift = 64 - (table.mask + 1).log2 := by
  unfold cloneTable
  rw [if_neg loaded]
  exact ⟨rfl, rfl, rfl, rfl⟩

theorem cloneTable_read {offset : Nat} (below : offset < L.ctrlBytes (table.mask + 1)) :
    table.cloneTable.ctrl.read offset = table.ctrl.read offset := by
  unfold cloneTable
  rw [if_neg loaded]
  exact if_pos below

theorem cloneTable_metaByte {slot : Slot} (inside : table.InRange slot) :
    table.cloneTable.metaByte slot.1 slot.2 = table.metaByte slot.1 slot.2 :=
  cloneTable_read loaded (Nat.lt_of_lt_of_le (GroupLayout.metaOffset_lt inside.1 inside.2)
    (Nat.le_add_right _ _))

theorem cloneTable_hasOverflowBit {gi : Nat} (bound : gi ≤ table.mask) (channel : UInt8) :
    table.cloneTable.hasOverflowBit gi channel = table.hasOverflowBit gi channel := by
  unfold hasOverflowBit
  rw [(cloneTable_fields loaded).1, cloneTable_read loaded (GroupLayout.overflowOffset_lt bound)]

theorem cloneTable_occupied_iff (slot : Slot) : table.cloneTable.Occupied slot ↔ table.Occupied slot := by
  unfold Occupied InRange
  rw [(cloneTable_fields loaded).1]
  exact and_congr_right fun inside => by rw [cloneTable_metaByte loaded inside]

theorem cloneTable_holds_iff (valid : table.Valid hash) (slot : Slot) (key : K) (value : V) :
    table.cloneTable.Holds slot key value ↔ table.Holds slot key value := by
  have held : ∀ slot ∈ table.occupiedSlots, ∃ key value, table.Holds slot key value :=
    fun slot => (valid.mem_occupiedSlots_iff slot).mp
  have buckets : table.cloneTable.buckets = table.occupiedSlots.foldl table.cloneSlot
      ((new : RawTable L S K V).allocate table.numGroups).buckets := by
    unfold cloneTable
    rw [if_neg loaded]
  unfold Holds
  rw [cloneTable_occupied_iff loaded]
  refine and_congr_right fun here => ?_
  have reads := foldl_cloneSlot_reads table.occupiedSlots
    ((new : RawTable L S K V).allocate table.numGroups).buckets held slot here.1
  rw [if_pos (mem_occupiedSlots.mpr here), if_pos (mem_occupiedSlots.mpr here), ← buckets] at reads
  rw [show table.cloneTable.key slot = table.key slot from reads.1,
    show table.cloneTable.value slot = table.value slot from reads.2]

theorem cloneTable_probeAt (valid : table.Valid hash) (h : UInt64) (probe : Nat) :
    table.cloneTable.probeAt h probe = table.probeAt h probe := by
  obtain ⟨mask, _, _, shift⟩ := cloneTable_fields loaded
  unfold probeAt groupIndex
  rw [mask, shift, valid.shift]

end Clone

theorem cloneTable_refines (refines : table.Refines hash map) : table.cloneTable.Refines hash map := by
  have valid := refines.valid
  have lenLe := valid.len_le
  rcases Nat.eq_zero_or_pos table.maxLoad with unloaded | live
  · unfold cloneTable
    rw [if_pos unloaded, refines.map_eq_empty (by omega)]
    exact new_refines
  · have loaded : table.maxLoad ≠ 0 := by omega
    obtain ⟨mask, maxLoad, len, shift⟩ := cloneTable_fields loaded
    have holds := cloneTable_holds_iff loaded valid
    have slots : table.cloneTable.occupiedSlots.Perm table.occupiedSlots := by
      rw [List.perm_ext_iff_of_nodup table.cloneTable.occupiedSlots_nodup table.occupiedSlots_nodup]
      exact fun slot => by rw [mem_occupiedSlots, mem_occupiedSlots, cloneTable_occupied_iff loaded]
    constructor
    · exact
        { power := mask ▸ valid.power
          shift := by rw [shift, mask]
          len_eq := by rw [slots.length_eq, ← valid.len_eq, len]
          len_le := by rw [len, maxLoad]; exact lenLe
          maxLoad_le := by rw [mask, maxLoad]; exact valid.maxLoad_le
          allocated := fun _ => ⟨_, by unfold cloneTable; rw [if_neg loaded]⟩
          stored := by
            intro slot here
            have before := (cloneTable_occupied_iff loaded slot).mp here
            obtain ⟨key, value, stored, tag, probe, reached, passed⟩ := valid.stored slot before
            refine ⟨key, value, (holds _ _ _).mpr stored, ?_, probe, ?_, ?_⟩
            · rw [cloneTable_metaByte loaded before.1, tag]
            · rw [cloneTable_probeAt loaded valid, reached]
            · intro earlier below
              rw [cloneTable_probeAt loaded valid,
                cloneTable_hasOverflowBit loaded (table.probeAt_le _ _)]
              exact passed earlier below }
    · exact refines.stores.congr holds

end RawTable

end Optimap.Overflow
