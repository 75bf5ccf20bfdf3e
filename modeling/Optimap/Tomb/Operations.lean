import Optimap.Tomb.Refinement

/-!
# Operations of the tombstone tables

Growth, the keyed operations and cloning, each with the finite map it leads to
and with the fact that it returns.
-/

set_option autoImplicit false
set_option linter.unusedSectionVars false

namespace Optimap.Tomb

open Lib Hash Map

namespace RawTable

variable {engine : Engine} {tag : TombstoneTag} {S : Type → Type → Type} [KvStorage S] {K V : Type}
  [DecidableEq K] {hash : K → UInt64} {table : RawTable engine tag S K V} {map : PMap K V}

/-! ## Growth -/

theorem grownGroups_power (valid : table.Valid hash) : ∃ bits, table.grownGroups = 2 ^ bits := by
  obtain ⟨bits, power⟩ := valid.power
  unfold grownGroups numGroups
  split
  · split
    · exact ⟨bits + 1, by rw [power, pow_succ]⟩
    · exact ⟨bits, power⟩
  · exact ⟨0, rfl⟩

/-- Doubling or purging, the table has room for one more entry afterwards. -/
theorem len_lt_grown (valid : table.Valid hash) : table.len < engine.maxLoadFor table.grownGroups := by
  have growth := valid.growth
  have lenLe := valid.len_le
  unfold grownGroups numGroups
  split
  · rename_i live
    have maxLoad := valid.maxLoad_eq (valid.isAllocated_iff.mp live)
    split
    · have double := engine.maxLoadFor_double (table.mask + 1)
      have positive := engine.maxLoadFor_pos (table.mask + 1) (by omega)
      omega
    · omega
  · rename_i dead
    rw [valid.len_of_unallocated (by simpa using dead)]
    exact engine.maxLoadFor_pos _ (by decide)

theorem growOrRehash_refines {fuel : Nat} {later : RawTable engine tag S K V}
    (refines : table.Refines hash map) (returned : table.growOrRehash fuel hash = some later) :
    later.Refines hash map ∧ 0 < later.growthLeft := by
  have room := len_lt_grown refines.valid
  obtain ⟨laterRefines, _, left⟩ :=
    rehashWith_refines refines (grownGroups_power refines.valid) room.le returned
  exact ⟨laterRefines, by omega⟩

theorem growOrRehash_total (refines : table.Refines hash map) :
    Returns fun fuel => table.growOrRehash fuel hash :=
  rehashWith_total refines (grownGroups_power refines.valid) (len_lt_grown refines.valid).le

theorem ensureCapacity_refines {fuel : Nat} {later : RawTable engine tag S K V}
    (refines : table.Refines hash map) (returned : ensureCapacity fuel hash table = some later) :
    later.Refines hash map ∧ 0 < later.growthLeft := by
  unfold ensureCapacity at returned
  split at returned
  · exact growOrRehash_refines refines returned
  · cases returned
    exact ⟨refines, by omega⟩

theorem ensureCapacity_total (refines : table.Refines hash map) :
    Returns fun fuel => ensureCapacity fuel hash table :=
  .ite (fun _ => growOrRehash_total refines) fun _ => .pure table

theorem reserve_refines {fuel additional : Nat} {later : RawTable engine tag S K V}
    (refines : table.Refines hash map)
    (returned : reserve fuel hash table additional = some later) : later.Refines hash map := by
  unfold reserve at returned
  simp only at returned
  split at returned
  · split at returned
    · have room := engine.le_maxLoadFor_groupsForCapacity (table.len + additional)
      exact (rehashWith_refines refines (engine.groupsForCapacity_power _) (by omega) returned).1
    · cases returned
      exact refines
  · rename_i dead
    have len := refines.valid.len_of_unallocated (by simpa using dead)
    cases returned
    split
    · rw [refines.map_eq_empty len]
      exact allocate_refines (engine.groupsForCapacity_power _) len
    · exact refines

theorem reserve_total (refines : table.Refines hash map) (additional : Nat) :
    Returns fun fuel => reserve fuel hash table additional := by
  have room := engine.le_maxLoadFor_groupsForCapacity (table.len + additional)
  refine .ite (fun _ => .ite (fun _ => ?_) fun _ => .pure table) fun _ => .pure _
  exact rehashWith_total refines (engine.groupsForCapacity_power _) (by omega)

theorem shrinkToFit_refines {fuel : Nat} {later : RawTable engine tag S K V}
    (refines : table.Refines hash map) (returned : shrinkToFit fuel hash table = some later) :
    later.Refines hash map := by
  unfold shrinkToFit at returned
  split at returned
  · rename_i len
    cases returned
    rw [refines.map_eq_empty len]
    exact new_refines
  · split at returned
    · exact (rehashWith_refines refines (engine.groupsForCapacity_power _)
        (engine.le_maxLoadFor_groupsForCapacity _) returned).1
    · cases returned
      exact refines

theorem shrinkToFit_total (refines : table.Refines hash map) :
    Returns fun fuel => shrinkToFit fuel hash table := by
  refine .ite (fun _ => .pure _) fun _ => .ite (fun _ => ?_) fun _ => .pure table
  exact rehashWith_total refines (engine.groupsForCapacity_power _)
    (engine.le_maxLoadFor_groupsForCapacity _)

/-! ## Keyed operations -/

theorem absent_of_exhausted {key : K} (refines : table.Refines hash map)
    (exhausted : table.Exhausted (hash key) (fun stored => stored = key)) : map key = none := by
  cases found : map key with
  | none => rfl
  | some value =>
      obtain ⟨slot, holds⟩ := (refines.stores.lookup key value).mp found
      exact absurd holds (exhausted.absent refines.valid slot value)

/-- What a lookup says about the map. -/
def Answered (table : RawTable engine tag S K V) (map : PMap K V) (key : K) : Option Slot → Prop
  | some slot => ∃ value, table.Holds slot key value
  | none => map key = none

theorem findByHash_refines {fuel : Nat} {key : K} {result : Option Slot}
    (refines : table.Refines hash map)
    (returned : table.findByHash fuel (hash key) (fun stored => stored = key) = some result) :
    table.Answered map key result := by
  have outcome := findByHash_returns returned
  cases result with
  | some slot => exact Matches.holds refines.valid outcome
  | none => exact absent_of_exhausted refines outcome

theorem findByHash_total (refines : table.Refines hash map) (h : UInt64) (eq : K → Bool) :
    Returns fun fuel => table.findByHash fuel h eq := by
  obtain ⟨result, returns⟩ := findByHash_bounded refines.valid h eq
  exact ⟨result, .of_bound returns⟩

theorem insertNoCheck_total (refines : table.Refines hash map) (h : UInt64) (key : K) (value : V) :
    Returns fun fuel => table.insertNoCheck fuel h key value := by
  obtain ⟨result, returns⟩ := insertNoCheck_bounded refines.valid h key value
  exact ⟨result, .of_bound returns⟩

theorem replaceValue_refines {key : K} {old : V} {slot : Slot} (refines : table.Refines hash map)
    (holds : table.Holds slot key old) (value : V) :
    (table.replaceValue slot value).1 = map key ∧
      (table.replaceValue slot value).2.Refines hash (map.insert key value) :=
  ⟨holds.2.2.trans ((refines.stores.lookup key old).mpr ⟨slot, holds⟩).symm,
    writeValue_refines refines holds value⟩

theorem insertProbing_refines {fuel : Nat} {key : K} {value : V} {result : Option V}
    {later : RawTable engine tag S K V} (refines : table.Refines hash map)
    (returned : table.insertProbing fuel hash (hash key) key value = some (result, later)) :
    result = map key ∧ later.Refines hash (map.insert key value) := by
  obtain ⟨found, looked, returned⟩ := Option.bind_eq_some_iff.mp returned
  have outcome := findByHash_refines refines looked
  cases found with
  | some slot =>
      obtain ⟨old, holds⟩ := outcome
      cases returned
      exact replaceValue_refines refines holds value
  | none =>
      have absent : map key = none := outcome
      obtain ⟨grown, ran, returned⟩ := Option.bind_eq_some_iff.mp returned
      obtain ⟨⟨slot, inserted⟩, placed, same⟩ := Option.bind_eq_some_iff.mp returned
      cases same
      obtain ⟨grownRefines, room⟩ := ensureCapacity_refines refines ran
      exact ⟨absent.symm, (insertNoCheck_refines grownRefines room absent placed).1⟩

theorem insertProbing_total (refines : table.Refines hash map) (h : UInt64) (key : K) (value : V) :
    Returns fun fuel => table.insertProbing fuel hash h key value := by
  refine Returns.bind (findByHash_total refines h _) fun found _ _ => ?_
  cases found with
  | some slot => exact .pure _
  | none =>
      refine Returns.bind (ensureCapacity_total refines) fun grown _ ran => ?_
      obtain ⟨grownRefines, _⟩ := ensureCapacity_refines refines ran
      exact Returns.bind (insertNoCheck_total grownRefines h key value) fun _ _ _ => .pure _

/-- A home group without a match and with an EMPTY slot settles the lookup. -/
theorem home_settles {key : K} {si : Nat}
    (missed : table.findInGroup (hash key) (fun stored => stored = key)
      (table.groupIndex (hash key)) = none)
    (head : (table.matchEmpty (table.groupIndex (hash key))).head? = some si) :
    table.Exhausted (hash key) (fun stored => stored = key) ∧
      table.Vacant (hash key) (table.groupIndex (hash key), si) ∧
      table.metaByte (table.groupIndex (hash key)) si = EMPTY := by
  have start := Passed.start table (hash key)
  refine ⟨⟨0, (Scanned.start table _ _).extend missed, fun full => ?_⟩,
    matchEmpty_head_vacant start head⟩
  have none_here : table.matchEmpty (table.groupIndex (hash key)) = [] := full
  rw [none_here] at head
  cases head

theorem prepare_refines (refines : table.Refines hash map) :
    (if table.isAllocated then table else table.allocate 1).Refines hash map := by
  split
  · exact refines
  · rename_i dead
    have len := refines.valid.len_of_unallocated (by simpa using dead)
    rw [refines.map_eq_empty len]
    exact allocate_refines ⟨0, rfl⟩ len

theorem insertOrReplace_refines {fuel : Nat} {key : K} {value : V} {result : Option V}
    {later : RawTable engine tag S K V} (refines : table.Refines hash map)
    (returned : insertOrReplace fuel hash table key value = some (result, later)) :
    result = map key ∧ later.Refines hash (map.insert key value) := by
  have prepared := prepare_refines refines
  unfold insertOrReplace at returned
  simp only at returned
  generalize (if table.isAllocated then table else table.allocate 1) = start at prepared returned
  split at returned
  · exact insertProbing_refines prepared returned
  · rename_i left
    have room : 0 < start.growthLeft := by omega
    split at returned
    · rename_i si found
      cases returned
      obtain ⟨old, holds⟩ := Matches.holds prepared.valid
        (findInGroup_matches (start.groupIndex_le _) found)
      exact replaceValue_refines prepared holds value
    · rename_i missed
      split at returned
      · rename_i si head
        cases returned
        obtain ⟨exhausted, vacant, empty⟩ := home_settles missed head
        have absent := absent_of_exhausted prepared exhausted
        rw [putSlot_eq_insertAt_empty 0 empty]
        exact ⟨absent.symm, (insertAt_refines prepared absent
          (prepared.valid.allocated_of_growth room) vacant fun _ => room).1⟩
      · exact insertProbing_refines prepared returned

theorem insertOrReplace_total (refines : table.Refines hash map) (key : K) (value : V) :
    Returns fun fuel => insertOrReplace fuel hash table key value := by
  have prepared := prepare_refines refines
  unfold insertOrReplace
  simp only
  generalize (if table.isAllocated then table else table.allocate 1) = start at prepared
  refine .ite (fun _ => insertProbing_total prepared _ key value) fun _ => ?_
  split
  · exact .pure _
  · split
    · exact .pure _
    · exact insertProbing_total prepared _ key value

/-- What the probe of an entry says about the map. -/
def EntryAnswered (hash : K → UInt64) (table : RawTable engine tag S K V) (map : PMap K V) (key : K) :
    EntryProbe → Prop
  | .found slot => ∃ value, table.Holds slot key value
  | .vacant none => map key = none
  | .vacant (some (slot, _)) =>
      map key = none ∧ table.Vacant (hash key) slot ∧ 0 < table.growthLeft

theorem findForEntry_refines {fuel : Nat} {key : K} {probe : EntryProbe}
    (refines : table.Refines hash map)
    (returned : table.findForEntry fuel (hash key) key = some probe) :
    table.EntryAnswered hash map key probe := by
  unfold findForEntry at returned
  split at returned
  · obtain ⟨found, looked, returned⟩ := Option.bind_eq_some_iff.mp returned
    have outcome := findByHash_refines refines looked
    cases found with
    | some slot => cases returned; exact outcome
    | none => cases returned; exact outcome
  · rename_i left
    have room : 0 < table.growthLeft := by omega
    simp only at returned
    split at returned
    · rename_i si found
      cases returned
      exact Matches.holds refines.valid (findInGroup_matches (table.groupIndex_le _) found)
    · rename_i missed
      split at returned
      · rename_i si head
        cases returned
        obtain ⟨exhausted, vacant, _⟩ := home_settles missed head
        exact ⟨absent_of_exhausted refines exhausted, vacant, room⟩
      · obtain ⟨located, ran, returned⟩ := Option.bind_eq_some_iff.mp returned
        have outcome := findOrLocate_returns ran
        cases located with
        | found slot => cases returned; exact Matches.holds refines.valid outcome
        | insertSlot slot mask =>
            cases returned
            exact ⟨absent_of_exhausted refines outcome.2, outcome.1, room⟩
        | notFound => cases returned; exact absent_of_exhausted refines outcome

theorem findForEntry_total (refines : table.Refines hash map) (h : UInt64) (key : K) :
    Returns fun fuel => table.findForEntry fuel h key := by
  unfold findForEntry
  refine .ite (fun _ => ?_) fun _ => ?_
  · refine Returns.bind (findByHash_total refines h _) fun found _ _ => ?_
    cases found <;> exact .pure _
  · simp only
    split
    · exact .pure _
    · split
      · exact .pure _
      · obtain ⟨result, returns⟩ := findOrLocate_bounded refines.valid h fun stored => stored = key
        refine Returns.bind ⟨result, .of_bound returns⟩ fun located _ _ => ?_
        cases located <;> exact .pure _

theorem removeByHash_refines {fuel : Nat} {key : K} {result : Option (K × V)}
    {later : RawTable engine tag S K V} (refines : table.Refines hash map)
    (returned : table.removeByHash fuel (hash key) (fun stored => stored = key) = some (result, later)) :
    result = (map key).map (fun value => (key, value)) ∧ later.Refines hash (map.erase key) := by
  obtain ⟨found, looked, returned⟩ := Option.bind_eq_some_iff.mp returned
  have outcome := findByHash_refines refines looked
  cases found with
  | some slot =>
      obtain ⟨value, holds⟩ := outcome
      cases returned
      rw [(refines.stores.lookup key value).mpr ⟨slot, holds⟩]
      exact ⟨holds.readSlot, eraseSlot_refines refines holds⟩
  | none =>
      have absent : map key = none := outcome
      cases returned
      refine ⟨by rw [absent]; rfl, ?_⟩
      have unchanged : map.erase key = map := by
        funext other
        by_cases same : other = key <;> simp [PMap.erase, same, absent]
      rw [unchanged]
      exact refines

theorem removeByHash_total (refines : table.Refines hash map) (h : UInt64) (eq : K → Bool) :
    Returns fun fuel => table.removeByHash fuel h eq := by
  refine Returns.bind (findByHash_total refines h eq) fun found _ _ => ?_
  cases found <;> exact .pure _

/-! ## Cloning -/

/-- The copies made by a clone: each visited slot reads as in the source. -/
theorem foldl_cloneSlot_reads (slots : List Slot) :
    ∀ (store : S K V), (∀ slot ∈ slots, ∃ key value, table.Holds slot key value) →
      ∀ other, table.InRange other →
        (KvStorage.key (slots.foldl table.cloneSlot store) (engine.bucketIndex other.1 other.2) =
          if other ∈ slots then table.key other
          else KvStorage.key store (engine.bucketIndex other.1 other.2)) ∧
        (KvStorage.value (slots.foldl table.cloneSlot store) (engine.bucketIndex other.1 other.2) =
          if other ∈ slots then table.value other
          else KvStorage.value store (engine.bucketIndex other.1 other.2)) := by
  induction slots with
  | nil => intro store _ other _; simp
  | cons slot slots ih =>
      intro store held other inside
      obtain ⟨key, value, holds⟩ := held slot List.mem_cons_self
      have rest := ih (table.cloneSlot store slot)
        (fun later member => held later (List.mem_cons_of_mem _ member)) other inside
      rw [List.foldl_cons, rest.1, rest.2]
      have copied : table.cloneSlot store slot =
          KvStorage.write store (engine.bucketIndex slot.1 slot.2) key value := by
        simp [cloneSlot, holds.readSlot]
      rw [copied, KvStorage.key_write, KvStorage.value_write]
      simp only [bucketIndex_eq_iff holds.1.1 inside, List.mem_cons]
      by_cases later : other ∈ slots
      · simp [later]
      · by_cases same : other = slot
        · subst same
          simp [later, holds.2.1, holds.2.2]
        · simp [later, same]

section Clone
variable (live : table.isAllocated = true)
include live

/-- A clone of an allocated table has its size and its counters. -/
theorem cloneTable_fields :
    table.cloneTable.mask = table.mask ∧ table.cloneTable.len = table.len ∧
      table.cloneTable.growthLeft = table.growthLeft ∧
      table.cloneTable.maxLoad = engine.maxLoadFor (table.mask + 1) ∧
      table.cloneTable.shift = 64 - (table.mask + 1).log2 ∧ table.cloneTable.Allocated := by
  unfold cloneTable
  rw [if_pos live]
  exact ⟨rfl, rfl, rfl, rfl, rfl, _, rfl⟩

theorem cloneTable_metaByte {slot : Slot} (inside : table.InRange slot) :
    table.cloneTable.metaByte slot.1 slot.2 = table.metaByte slot.1 slot.2 := by
  have below : slot.1 * engine.groupSize + slot.2 < table.numGroups * engine.groupSize :=
    strided_lt inside.2 inside.1
  unfold cloneTable
  rw [if_pos live]
  exact if_pos below

theorem cloneTable_inRange_iff (slot : Slot) : table.cloneTable.InRange slot ↔ table.InRange slot := by
  unfold InRange
  rw [(cloneTable_fields live).1]

theorem cloneTable_slotsWhere (test : UInt8 → Bool) :
    (table.cloneTable.slotsWhere test).length = (table.slotsWhere test).length := by
  refine List.Perm.length_eq ?_
  rw [List.perm_ext_iff_of_nodup (slotsWhere_nodup _ _) (slotsWhere_nodup _ _)]
  intro slot
  rw [mem_slotsWhere, mem_slotsWhere, cloneTable_inRange_iff live]
  exact and_congr_right fun inside => by rw [cloneTable_metaByte live inside]

theorem cloneTable_occupied_iff (slot : Slot) : table.cloneTable.Occupied slot ↔ table.Occupied slot := by
  unfold Occupied
  rw [cloneTable_inRange_iff live]
  exact and_congr_right fun inside => by rw [cloneTable_metaByte live inside]

theorem cloneTable_holds_iff (valid : table.Valid hash) (slot : Slot) (key : K) (value : V) :
    table.cloneTable.Holds slot key value ↔ table.Holds slot key value := by
  have held : ∀ slot ∈ table.occupiedSlots, ∃ key value, table.Holds slot key value :=
    fun slot => (valid.mem_occupiedSlots_iff slot).mp
  have buckets : table.cloneTable.buckets = table.occupiedSlots.foldl table.cloneSlot
      ((new : RawTable engine tag S K V).allocate table.numGroups).buckets := by
    unfold cloneTable
    rw [if_pos live]
  unfold Holds
  rw [cloneTable_occupied_iff live]
  refine and_congr_right fun here => ?_
  have reads := foldl_cloneSlot_reads table.occupiedSlots
    ((new : RawTable engine tag S K V).allocate table.numGroups).buckets held slot here.1
  rw [if_pos (mem_occupiedSlots.mpr here), if_pos (mem_occupiedSlots.mpr here), ← buckets] at reads
  rw [show table.cloneTable.key slot = table.key slot from reads.1,
    show table.cloneTable.value slot = table.value slot from reads.2]

theorem cloneTable_probeAt (valid : table.Valid hash) (h : UInt64) (probe : Nat) :
    table.cloneTable.probeAt h probe = table.probeAt h probe := by
  obtain ⟨mask, _, _, _, shift, _⟩ := cloneTable_fields live
  unfold probeAt groupIndex
  rw [mask, shift, valid.shift]

theorem cloneTable_passed (valid : table.Valid hash) {h : UInt64} {probe : Nat}
    (passed : table.Passed h probe) : table.cloneTable.Passed h probe := by
  intro earlier below
  have full := matchEmpty_eq_nil.mp (passed earlier below)
  rw [cloneTable_probeAt live valid]
  refine matchEmpty_eq_nil.mpr fun si inside => ?_
  have same := @cloneTable_metaByte _ _ _ _ _ _ _ _ live (table.probeAt h earlier, si)
    ⟨table.probeAt_le h earlier, inside⟩
  rw [show table.cloneTable.metaByte (table.probeAt h earlier) si = _ from same]
  exact full si inside

end Clone

theorem cloneTable_refines (refines : table.Refines hash map) : table.cloneTable.Refines hash map := by
  have valid := refines.valid
  cases live : table.isAllocated with
  | false =>
      unfold cloneTable
      rw [if_neg (by simp [live]), refines.map_eq_empty (valid.len_of_unallocated live)]
      exact new_refines
  | true =>
      obtain ⟨mask, len, growthLeft, maxLoad, shift, allocated⟩ := cloneTable_fields live
      have holds := cloneTable_holds_iff live valid
      have sourceLoad := valid.maxLoad_eq (valid.isAllocated_iff.mp live)
      constructor
      · exact
          { power := mask ▸ valid.power
            shift := by rw [shift, mask]
            shaped := .inr ⟨allocated, by rw [maxLoad, mask]⟩
            len_eq := by rw [len, valid.len_eq]; exact (cloneTable_slotsWhere live _).symm
            growth := by
              rw [growthLeft, maxLoad, ← sourceLoad, ← valid.growth]
              exact congrArg (table.growthLeft + ·) (cloneTable_slotsWhere live _)
            stored := by
              intro slot here
              have before := (cloneTable_occupied_iff live slot).mp here
              obtain ⟨key, value, stored, tagged, probe, reached, passed⟩ := valid.stored slot before
              refine ⟨key, value, (holds _ _ _).mpr stored, ?_, probe, ?_,
                cloneTable_passed live valid passed⟩
              · rw [cloneTable_metaByte live before.1, tagged]
              · rw [cloneTable_probeAt live valid, reached] }
      · exact refines.stores.congr holds

end RawTable

end Optimap.Tomb
