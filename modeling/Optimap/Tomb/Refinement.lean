import Optimap.Map.GenericMapRefinement
import Optimap.Tomb.Probes

/-!
# The tombstone tables refine a finite map

Every operation of the two engines: it returns, and what it returns is what the
finite map answers.
-/

set_option autoImplicit false
set_option linter.unusedSectionVars false

namespace Optimap.Tomb

open Lib Hash Map

namespace RawTable

variable {engine : Engine} {tag : TombstoneTag} {S : Type → Type → Type} [KvStorage S] {K V : Type}
  [DecidableEq K] {hash : K → UInt64} {table : RawTable engine tag S K V} {map : PMap K V}

/-! ## Empty tables -/

theorem slotsWhere_eq_nil {test : UInt8 → Bool}
    (rejected : ∀ slot, table.InRange slot → test (table.metaByte slot.1 slot.2) = false) :
    table.slotsWhere test = [] := by
  rw [List.eq_nil_iff_forall_not_mem]
  intro slot member
  obtain ⟨inside, accepted⟩ := mem_slotsWhere.mp member
  rw [rejected slot inside] at accepted
  cases accepted

theorem refines_empty (empty : ∀ slot, table.InRange slot → table.metaByte slot.1 slot.2 = EMPTY)
    (power : ∃ bits, table.mask + 1 = 2 ^ bits) (shift : table.shift = 64 - (table.mask + 1).log2)
    (shaped : table.Shaped) (len : table.len = 0) (growth : table.growthLeft = table.maxLoad) :
    table.Refines hash PMap.empty where
  valid :=
    { power, shift, shaped
      len_eq := by
        rw [len, occupiedSlots, slotsWhere_eq_nil fun slot inside => by simp [empty slot inside]]
        rfl
      growth := by
        rw [growth, usedSlots, slotsWhere_eq_nil fun slot inside => by simp [empty slot inside]]
        rfl
      stored := fun slot occupied => absurd (empty slot occupied.1) occupied.2.1 }
  stores := .empty fun slot _ _ holds => absurd (empty slot holds.1.1) holds.1.2.1

theorem new_refines : (new : RawTable engine tag S K V).Refines hash PMap.empty :=
  refines_empty (fun _ _ => rfl) ⟨0, rfl⟩ (show 64 = 64 - Nat.log2 1 by decide) (.inl ⟨rfl, rfl, rfl⟩)
    rfl rfl

theorem allocate_refines {numGroups : Nat} (power : ∃ bits, numGroups = 2 ^ bits)
    (len : table.len = 0) : (table.allocate numGroups).Refines hash PMap.empty := by
  obtain ⟨bits, rfl⟩ := power
  have groups : (2 ^ bits - 1) + 1 = 2 ^ bits := Nat.sub_add_cancel Nat.one_le_two_pow
  refine refines_empty (fun _ _ => rfl) ⟨bits, groups⟩ ?_ (.inr ⟨⟨_, rfl⟩, ?_⟩) len rfl
  · simp only [allocate, groups]
  · simp only [allocate, groups]

theorem Refines.map_eq_empty (refines : table.Refines hash map) (len : table.len = 0) :
    map = PMap.empty := by
  have slots : table.occupiedSlots = [] := by
    rw [← List.length_eq_zero_iff, ← refines.valid.len_eq, len]
  refine refines.stores.eq_empty fun slot key value holds => ?_
  have member := mem_occupiedSlots.mpr holds.1
  rw [slots] at member
  cases member

/-- Both tests for an allocation agree with the control pointer. -/
theorem Valid.isAllocated_iff (valid : table.Valid hash) : table.isAllocated = true ↔ table.Allocated := by
  have positive := engine.maxLoadFor_pos (table.mask + 1) (by omega)
  rcases valid.shaped with ⟨sentinel, _, maxLoad⟩ | ⟨allocated, maxLoad⟩
  · simp only [isAllocated, sentinel, maxLoad, Allocated, reduceCtorEq, exists_const, iff_false]
    cases engine <;> simp [Engine.isAllocated]
  · obtain ⟨bytes, shape⟩ := allocated
    rw [← maxLoad] at positive
    refine iff_of_true ?_ ⟨bytes, shape⟩
    rw [isAllocated, shape]
    cases engine with
    | inPlaceOverflow => exact decide_eq_true positive
    | ipo64 => rfl

theorem Valid.len_of_unallocated (valid : table.Valid hash) (unallocated : table.isAllocated = false) :
    table.len = 0 := by
  rw [valid.len_eq]
  have free : ¬ table.Allocated := by
    intro allocated
    rw [valid.isAllocated_iff.mpr allocated] at unallocated
    cases unallocated
  rw [List.length_eq_zero_iff, List.eq_nil_iff_forall_not_mem]
  intro slot member
  exact free (allocated_of_used (mem_occupiedSlots.mp member).2.1)

/-- The occupied slots are among the used ones. -/
theorem Valid.len_le (valid : table.Valid hash) : table.len ≤ table.usedSlots.length := by
  rw [valid.len_eq]
  refine (List.subperm_of_subset (slotsWhere_nodup _ _) fun slot member => ?_).length_le
  have occupied := mem_occupiedSlots.mp member
  exact mem_usedSlots.mpr ⟨occupied.1, occupied.2.1⟩

theorem clear_refines (refines : table.Refines hash map) : table.clear.Refines hash PMap.empty := by
  unfold clear
  split
  · rename_i live
    have allocated := refines.valid.isAllocated_iff.mp live
    have maxLoad := refines.valid.maxLoad_eq allocated
    obtain ⟨bytes, shape⟩ := allocated
    refine refines_empty ?_ refines.valid.power refines.valid.shift
      (.inr ⟨⟨_, by rw [shape, Ctrl.zero]⟩, maxLoad⟩) rfl maxLoad.symm
    intro slot inside
    have zeroed : slot.1 * engine.groupSize + slot.2 < (table.mask + 1) * engine.groupSize :=
      strided_lt inside.2 inside.1
    simp only [metaByte, shape, Ctrl.zero, Ctrl.read, numGroups, zeroed, ↓reduceIte]
    rfl
  · rename_i dead
    exact refines.map_eq_empty (refines.valid.len_of_unallocated (by simpa using dead)) ▸ refines

/-! ## Enumeration -/

theorem Valid.iterSlots_eq (valid : table.Valid hash) : table.iterSlots = table.occupiedSlots := by
  cases live : table.isAllocated with
  | true => simp [iterSlots, occupiedSlots, slotsWhere, matchOccupied, live]
  | false =>
      have slots : table.occupiedSlots = [] := by
        rw [← List.length_eq_zero_iff, ← valid.len_eq, valid.len_of_unallocated live]
      rw [slots]
      unfold occupiedSlots slotsWhere at slots
      rw [List.flatMap_eq_nil_iff] at slots
      unfold iterSlots
      rw [List.flatMap_eq_nil_iff]
      intro gi member
      split
      · rfl
      · exact slots gi member

theorem Valid.mem_occupiedSlots_iff (valid : table.Valid hash) (slot : Slot) :
    slot ∈ table.occupiedSlots ↔ ∃ key value, table.Holds slot key value := by
  rw [mem_occupiedSlots]
  constructor
  · intro occupied
    obtain ⟨key, value, holds, _⟩ := valid.stored slot occupied
    exact ⟨key, value, holds⟩
  · rintro ⟨key, value, holds⟩
    exact holds.1

theorem Refines.enumerates (refines : table.Refines hash map) :
    PMap.Enumerates (table.occupiedSlots.filterMap table.readSlot) map :=
  refines.stores.enumerates (slotsWhere_nodup _ _) refines.valid.mem_occupiedSlots_iff Holds.readSlot

theorem Valid.readSlots_length (valid : table.Valid hash) :
    (table.occupiedSlots.filterMap table.readSlot).length = table.len := by
  rw [valid.len_eq]
  exact Stores.reads_length (fun slot => (valid.mem_occupiedSlots_iff slot).mp) Holds.readSlot

/-! ## Insertion and rehashing -/

theorem insertNoCheck_refines {fuel : Nat} {key : K} {value : V} {slot : Slot}
    {later : RawTable engine tag S K V} (refines : table.Refines hash map)
    (room : 0 < table.growthLeft) (absent : map key = none)
    (returned : table.insertNoCheck fuel (hash key) key value = some (slot, later)) :
    later.Refines hash (map.insert key value) ∧ later.Holds slot key value := by
  obtain ⟨vacant, rfl⟩ := insertNoCheck_returns returned
  exact insertAt_refines refines absent (refines.valid.allocated_of_growth room) vacant fun _ => room

/-- Entries left to re-insert: distinct, absent, and within the growth left. -/
structure Pending (map : PMap K V) (growthLeft : Nat) (entries : List (K × V)) : Prop where
  unique : (entries.map Prod.fst).Nodup
  fresh : ∀ entry ∈ entries, map entry.1 = none
  room : entries.length ≤ growthLeft

theorem Pending.tail {growthLeft : Nat} {entry : K × V} {entries : List (K × V)}
    (pending : Pending map growthLeft (entry :: entries)) {less : Nat}
    (charged : growthLeft ≤ less + 1) : Pending (map.insert entry.1 entry.2) less entries where
  unique := (List.nodup_cons.mp pending.unique).2
  fresh := by
    intro other member
    have different : other.1 ≠ entry.1 := fun same =>
      (List.nodup_cons.mp pending.unique).1 (same ▸ List.mem_map_of_mem member)
    rw [PMap.insert_of_ne map _ different]
    exact pending.fresh other (List.mem_cons_of_mem _ member)
  room := by
    have room := pending.room
    rw [List.length_cons] at room
    omega

theorem insertAt_growthLeft {h : UInt64} {slot : Slot} {key : K} {value : V} {fullMask : UInt8} :
    table.growthLeft ≤ (table.insertAt h slot key value fullMask).growthLeft + 1 := by
  simp only [insertAt]
  split <;> omega

/-- Re-insertion one by one, by induction on the entries left. -/
theorem reinsertNoCheck_refines {fuel : Nat} (entries : List (K × V)) :
    ∀ {table later : RawTable engine tag S K V} {map : PMap K V}, table.Refines hash map →
      Pending map table.growthLeft entries → reinsertNoCheck fuel hash entries table = some later →
      later.Refines hash (map.insertAll entries) ∧ later.mask = table.mask ∧
        table.growthLeft ≤ later.growthLeft + entries.length := by
  induction entries with
  | nil =>
      intro table later map refines _ returned
      cases returned
      exact ⟨refines, rfl, le_rfl⟩
  | cons entry entries ih =>
      intro table later map refines pending returned
      obtain ⟨⟨slot, middle⟩, inserted, rest⟩ := Option.bind_eq_some_iff.mp returned
      have room : 0 < table.growthLeft := lt_of_lt_of_le (Nat.succ_pos _) pending.room
      have absent := pending.fresh entry List.mem_cons_self
      have middleRefines := (insertNoCheck_refines refines room absent inserted).1
      obtain ⟨_, rfl⟩ := insertNoCheck_returns inserted
      have charged : table.growthLeft ≤
          (table.insertAt (hash entry.1) slot entry.1 entry.2 0).growthLeft + 1 := insertAt_growthLeft
      obtain ⟨laterRefines, laterMask, left⟩ := ih middleRefines (pending.tail charged) rest
      refine ⟨laterRefines, laterMask, ?_⟩
      rw [List.length_cons]
      omega

theorem reinsertNoCheck_total (entries : List (K × V)) :
    ∀ {table : RawTable engine tag S K V} {map : PMap K V}, table.Refines hash map →
      Pending map table.growthLeft entries →
      Returns fun fuel => reinsertNoCheck fuel hash entries table := by
  induction entries with
  | nil => intro table map _ _; exact .pure table
  | cons entry entries ih =>
      intro table map refines pending
      have room : 0 < table.growthLeft := lt_of_lt_of_le (Nat.succ_pos _) pending.room
      have absent := pending.fresh entry List.mem_cons_self
      obtain ⟨result, returns⟩ := insertNoCheck_bounded refines.valid (hash entry.1) entry.1 entry.2
      refine Returns.bind ⟨result, .of_bound returns⟩ fun ⟨slot, middle⟩ fuel inserted => ?_
      have middleRefines := (insertNoCheck_refines refines room absent inserted).1
      obtain ⟨_, rfl⟩ := insertNoCheck_returns inserted
      exact ih middleRefines (pending.tail insertAt_growthLeft)

/-- The counters as `rehash_with` settles them after a batch of `count` entries. -/
def recount (table : RawTable engine tag S K V) (count : Nat) : RawTable engine tag S K V :=
  { table with len := count, growthLeft := table.growthLeft - count }

/-- A batched insertion seen with settled counters is an ordinary one. -/
theorem insertAfterResize_recount {fuel count : Nat} {h : UInt64} {key : K} {value : V}
    {later : RawTable engine tag S K V}
    (returned : table.insertAfterResize fuel h key value = some later) :
    ∃ slot, (table.recount count).Vacant h slot ∧
      later.recount (count + 1) = (table.recount count).insertAt h slot key value 0 := by
  obtain ⟨slot, vacant, empty, rfl⟩ := insertAfterResize_returns returned
  refine ⟨slot, vacant, ?_⟩
  have emptyHere : (table.recount count).metaByte slot.1 slot.2 = EMPTY := empty
  rw [insertAt, if_pos emptyHere]
  rfl

theorem insertAfterResize_step {fuel count : Nat} {key : K} {value : V}
    {later : RawTable engine tag S K V} (refines : (table.recount count).Refines hash map)
    (room : 0 < (table.recount count).growthLeft) (absent : map key = none)
    (returned : table.insertAfterResize fuel (hash key) key value = some later) :
    (later.recount (count + 1)).Refines hash (map.insert key value) ∧ later.mask = table.mask ∧
      (table.recount count).growthLeft ≤ (later.recount (count + 1)).growthLeft + 1 := by
  obtain ⟨slot, vacant, same⟩ := insertAfterResize_recount returned
  have inserted : ((table.recount count).insertAt (hash key) slot key value 0).Refines hash
      (map.insert key value) ∧ _ :=
    insertAt_refines refines absent (refines.valid.allocated_of_growth room) vacant fun _ => room
  have sameMask : (later.recount (count + 1)).mask =
      ((table.recount count).insertAt (hash key) slot key value 0).mask := by rw [same]
  refine ⟨by rw [same]; exact inserted.1, sameMask, ?_⟩
  rw [same]
  exact insertAt_growthLeft

/-- The batch: the counters are settled once at the end. -/
theorem reinsertAfterResize_refines {fuel : Nat} (entries : List (K × V)) :
    ∀ {table later : RawTable engine tag S K V} {map : PMap K V} {count : Nat},
      (table.recount count).Refines hash map → Pending map (table.recount count).growthLeft entries →
      reinsertAfterResize fuel hash entries table = some later →
      (later.recount (count + entries.length)).Refines hash (map.insertAll entries) ∧
        later.mask = table.mask ∧ (table.recount count).growthLeft ≤
          (later.recount (count + entries.length)).growthLeft + entries.length := by
  induction entries with
  | nil =>
      intro table later map count refines _ returned
      cases returned
      exact ⟨refines, rfl, le_rfl⟩
  | cons entry entries ih =>
      intro table later map count refines pending returned
      obtain ⟨middle, inserted, rest⟩ := Option.bind_eq_some_iff.mp returned
      have room : 0 < (table.recount count).growthLeft := lt_of_lt_of_le (Nat.succ_pos _) pending.room
      have absent := pending.fresh entry List.mem_cons_self
      obtain ⟨middleRefines, mask, charged⟩ := insertAfterResize_step refines room absent inserted
      obtain ⟨laterRefines, laterMask, left⟩ := ih middleRefines (pending.tail charged) rest
      have counted : count + (entry :: entries).length = count + 1 + entries.length := by
        rw [List.length_cons]
        omega
      rw [counted]
      refine ⟨laterRefines, laterMask.trans mask, ?_⟩
      rw [List.length_cons]
      omega

theorem reinsertAfterResize_total (entries : List (K × V)) :
    ∀ {table : RawTable engine tag S K V} {map : PMap K V} {count : Nat},
      (table.recount count).Refines hash map → Pending map (table.recount count).growthLeft entries →
      Returns fun fuel => reinsertAfterResize fuel hash entries table := by
  induction entries with
  | nil => intro table map count _ _; exact .pure table
  | cons entry entries ih =>
      intro table map count refines pending
      have room : 0 < (table.recount count).growthLeft := lt_of_lt_of_le (Nat.succ_pos _) pending.room
      have absent := pending.fresh entry List.mem_cons_self
      -- The loop reads no counter, so it runs as on the table with settled counters.
      obtain ⟨last, _, stop⟩ := refines.valid.exists_empty_probe (hash entry.1)
      obtain ⟨result, returns⟩ := @insertAfterResizeLoop_bounded _ _ _ _ _ _ table _ last stop
        entry.1 entry.2 _ (Nat.zero_le last)
      refine Returns.bind ⟨result, .of_bound fun fuel (large : last + 1 ≤ fuel) =>
        returns fuel (by omega)⟩ fun middle fuel inserted => ?_
      obtain ⟨middleRefines, _, charged⟩ := insertAfterResize_step refines room absent inserted
      exact ih middleRefines (pending.tail charged)

theorem pending_entries (refines : table.Refines hash map) {newNumGroups : Nat}
    (room : table.len ≤ engine.maxLoadFor newNumGroups) :
    Pending PMap.empty (table.detached.allocate newNumGroups).growthLeft
      (table.occupiedSlots.filterMap table.readSlot) where
  unique := refines.enumerates.nodup
  fresh := by simp [PMap.empty]
  room := by
    rw [refines.valid.readSlots_length]
    exact room

/-- A rehash to any size that takes the entries keeps the contents, and charges
no more than the entries. -/
theorem rehashWith_refines {fuel newNumGroups : Nat} {later : RawTable engine tag S K V}
    (refines : table.Refines hash map) (power : ∃ bits, newNumGroups = 2 ^ bits)
    (room : table.len ≤ engine.maxLoadFor newNumGroups)
    (returned : rehashWith fuel hash table newNumGroups = some later) :
    later.Refines hash map ∧ later.mask = newNumGroups - 1 ∧
      engine.maxLoadFor newNumGroups ≤ later.growthLeft + table.len := by
  have fresh : (table.detached.allocate newNumGroups).Refines hash PMap.empty :=
    allocate_refines power rfl
  have pending := pending_entries refines room
  have rebuilt := refines.enumerates.insertAll_empty
  unfold rehashWith at returned
  simp only at returned
  split at returned
  · split at returned
    · obtain ⟨filled, ran, same⟩ := Option.bind_eq_some_iff.mp returned
      cases same
      have start : ((table.detached.allocate newNumGroups).recount 0).Refines hash PMap.empty := fresh
      have counted := reinsertAfterResize_refines _ start pending ran
      rw [rebuilt, Nat.zero_add, refines.valid.readSlots_length] at counted
      exact counted
    · have inserted := reinsertNoCheck_refines _ fresh pending returned
      rw [rebuilt, refines.valid.readSlots_length] at inserted
      exact inserted
  · rename_i dead
    cases returned
    rw [refines.map_eq_empty (refines.valid.len_of_unallocated (by simpa using dead))]
    exact ⟨fresh, rfl, Nat.le_add_right _ _⟩

theorem rehashWith_total {newNumGroups : Nat} (refines : table.Refines hash map)
    (power : ∃ bits, newNumGroups = 2 ^ bits) (room : table.len ≤ engine.maxLoadFor newNumGroups) :
    Returns fun fuel => rehashWith fuel hash table newNumGroups := by
  have fresh : (table.detached.allocate newNumGroups).Refines hash PMap.empty :=
    allocate_refines power rfl
  have pending := pending_entries refines room
  unfold rehashWith
  simp only
  split
  · split
    · exact Returns.bind (reinsertAfterResize_total _ fresh pending)
        fun filled _ _ => .pure _
    · exact reinsertNoCheck_total _ fresh pending
  · exact .pure _

end RawTable

end Optimap.Tomb
