import Optimap.HashEngines.Reserve
import Optimap.Opti.Capacity
import Optimap.Opti.Engines

/-!
# `reserve` under a policy of hash backends

The capacity of the two hash tables, and from it what `OptiMap::reserve` leaves of the
capacity that the map had.
-/

set_option autoImplicit false
set_option linter.unusedSectionVars false

namespace Optimap

open Lib Hash Map

/-! ## Capacities of the tables -/

namespace Overflow

/-- The slots that `with_capacity` allocates. -/
def GroupLayout.slotsFor (L : GroupLayout) (wanted : Nat) : Nat :=
  if wanted = 0 then 0 else L.groupsForCapacity wanted * L.groupSize

theorem GroupLayout.groupsForCapacity_pos (L : GroupLayout) (wanted : Nat) : 0 < L.groupsForCapacity wanted := by
  obtain ⟨bits, power⟩ := L.groupsForCapacity_power wanted
  rw [power]
  exact Nat.two_pow_pos bits

/-- The groups for a request have more slots than that. -/
theorem GroupLayout.lt_slots (L : GroupLayout) (wanted : Nat) : wanted < L.groupsForCapacity wanted * L.groupSize :=
  (L.le_maxLoadFor_groupsForCapacity wanted).trans_lt (L.maxLoadFor_lt _ (L.groupsForCapacity_pos wanted))

namespace RawTable

variable {L : GroupLayout} {S : Type → Type → Type} [KvStorage S] {K V : Type} [DecidableEq K]
  {hash : K → UInt64} {table later : RawTable L S K V} {map : PMap K V} {key : K} {value : V}

theorem capacity_of_loaded (loaded : 0 < table.maxLoad) : table.capacity = table.numGroups * L.groupSize :=
  if_pos (decide_eq_true loaded)

theorem capacity_allocate {groups : Nat} (positive : 0 < groups) :
    (table.allocate groups).capacity = groups * L.groupSize := by
  rw [capacity_of_loaded (L.maxLoadFor_pos groups positive)]
  exact congrArg (· * L.groupSize) (Nat.sub_add_cancel positive)

theorem capacity_withCapacity (wanted : Nat) :
    (withCapacity wanted : RawTable L S K V).capacity = L.slotsFor wanted := by
  unfold withCapacity GroupLayout.slotsFor
  split
  · rfl
  · exact capacity_allocate (L.groupsForCapacity_pos wanted)

theorem roomFor_withCapacity {wanted count : Nat} (positive : 0 < wanted) (fits : count ≤ wanted) :
    (withCapacity wanted : RawTable L S K V).RoomFor count := by
  have enough := L.le_maxLoadFor_groupsForCapacity wanted
  rw [withCapacity, if_neg (by omega), RoomFor]
  change 0 + count ≤ L.maxLoadFor (L.groupsForCapacity wanted)
  omega

theorem insert_capacity {fuel left : Nat} {result : Option V} (refines : table.Refines hash map)
    (absent : map key = none) (room : table.RoomFor (left + 1))
    (returned : table.insertOrReplace fuel hash key value = some (result, later)) :
    later.capacity = table.capacity := by
  have room' := room
  unfold RoomFor at room'
  obtain ⟨mask, maxLoad, _⟩ := insert_below_limit refines absent (by omega) returned
  rw [capacity_of_loaded (by omega), capacity_of_loaded (by omega), numGroups, numGroups, mask]

/-- `reserve` never gives slots back, and has slots for the request. -/
theorem reserve_capacity {fuel additional : Nat} (refines : table.Refines hash map)
    (returned : reserve fuel hash table additional = some later) :
    table.capacity ≤ later.capacity ∧ table.len + additional ≤ later.capacity := by
  have lenLe := refines.valid.len_le
  have enough := L.lt_slots (table.len + additional)
  have positive := L.groupsForCapacity_pos (table.len + additional)
  unfold reserve at returned
  simp only at returned
  split at returned
  · rename_i unloaded
    have nothing : table.capacity = 0 := if_neg (by simp [isAllocated, unloaded])
    cases returned
    rw [nothing]
    refine ⟨Nat.zero_le _, ?_⟩
    split
    · rw [capacity_allocate positive]
      exact enough.le
    · omega
  · rename_i loaded
    have before := capacity_of_loaded (Nat.pos_of_ne_zero loaded)
    split at returned
    · rename_i short
      obtain ⟨_, mask, maxLoad, _⟩ := rehashWith_refines refines (L.groupsForCapacity_power _)
        (by have := L.le_maxLoadFor_groupsForCapacity (table.len + additional); omega) returned
      have after := capacity_of_loaded (maxLoad ▸ L.maxLoadFor_pos _ positive)
      have groups : later.numGroups = L.groupsForCapacity (table.len + additional) := by
        rw [numGroups, mask, Nat.sub_add_cancel positive]
      rw [before, after, groups]
      exact ⟨Nat.mul_le_mul_right _ (le_of_lt short.2), enough.le⟩
    · rename_i kept
      cases returned
      refine ⟨le_rfl, ?_⟩
      rw [before]
      by_cases covered : table.len + additional ≤ table.maxLoad
      · have limit := L.maxLoadFor_lt table.numGroups (Nat.succ_pos _)
        exact covered.trans (refines.valid.maxLoad_le.trans limit.le)
      · have groups : L.groupsForCapacity (table.len + additional) ≤ table.numGroups := by
          rw [numGroups]
          omega
        exact enough.le.trans (Nat.mul_le_mul_right _ groups)

end RawTable

end Overflow

namespace Tomb

/-- The slots that `with_capacity` allocates. -/
def Engine.slotsFor (engine : Engine) (wanted : Nat) : Nat :=
  if wanted = 0 then 0 else engine.groupsForCapacity wanted * engine.groupSize

theorem Engine.groupsForCapacity_pos (engine : Engine) (wanted : Nat) : 0 < engine.groupsForCapacity wanted := by
  obtain ⟨bits, power⟩ := engine.groupsForCapacity_power wanted
  rw [power]
  exact Nat.two_pow_pos bits

theorem Engine.lt_slots (engine : Engine) (wanted : Nat) :
    wanted < engine.groupsForCapacity wanted * engine.groupSize :=
  (engine.le_maxLoadFor_groupsForCapacity wanted).trans_lt
    (engine.maxLoadFor_lt _ (engine.groupsForCapacity_pos wanted))

namespace RawTable

variable {engine : Engine} {tag : TombstoneTag} {S : Type → Type → Type} [KvStorage S] {K V : Type}
  [DecidableEq K] {hash : K → UInt64} {table later : RawTable engine tag S K V} {map : PMap K V} {key : K}
  {value : V}

theorem capacity_of_allocated (allocated : table.isAllocated = true) :
    table.capacity = table.numGroups * engine.groupSize :=
  if_pos allocated

theorem numGroups_allocate {groups : Nat} (positive : 0 < groups) : (table.allocate groups).numGroups = groups :=
  Nat.sub_add_cancel positive

theorem capacity_allocate {groups : Nat} (positive : 0 < groups) :
    (table.allocate groups).capacity = groups * engine.groupSize := by
  rw [capacity_of_allocated (isAllocated_allocate groups positive), numGroups_allocate positive]

theorem capacity_withCapacity (wanted : Nat) :
    (withCapacity wanted : RawTable engine tag S K V).capacity = engine.slotsFor wanted := by
  unfold withCapacity Engine.slotsFor
  split
  · cases engine <;> rfl
  · exact capacity_allocate (engine.groupsForCapacity_pos wanted)

theorem roomFor_withCapacity {wanted count : Nat} (positive : 0 < wanted) (fits : count ≤ wanted) :
    (withCapacity wanted : RawTable engine tag S K V).RoomFor count := by
  have enough := engine.le_maxLoadFor_groupsForCapacity wanted
  have groups := engine.groupsForCapacity_pos wanted
  rw [withCapacity, if_neg (by omega)]
  refine ⟨isAllocated_allocate _ groups, ?_⟩
  rw [numGroups_allocate groups]
  change 0 + count ≤ _
  omega

theorem insert_capacity {fuel left : Nat} {result : Option V} (refines : table.Refines hash map)
    (absent : map key = none) (room : table.RoomFor (left + 1))
    (returned : table.insertOrReplace fuel hash key value = some (result, later)) :
    later.capacity = table.capacity := by
  obtain ⟨groups, later_room⟩ := RoomFor.insert refines absent room returned
  rw [capacity_of_allocated later_room.1, capacity_of_allocated room.1, groups]

/-- `reserve` never gives slots back, and has slots for the request. -/
theorem reserve_capacity {fuel additional : Nat} (refines : table.Refines hash map)
    (returned : reserve fuel hash table additional = some later) :
    table.capacity ≤ later.capacity ∧ table.len + additional ≤ later.capacity := by
  have enough := engine.lt_slots (table.len + additional)
  have positive := engine.groupsForCapacity_pos (table.len + additional)
  unfold reserve at returned
  simp only at returned
  split at returned
  · rename_i allocated
    have before := capacity_of_allocated allocated
    split at returned
    · rename_i short
      have fits := refines.len_le_load
      have load := engine.le_maxLoadFor_groupsForCapacity (table.len + additional)
      obtain ⟨groups, _, later_allocated⟩ := rehashWith_fields refines (engine.groupsForCapacity_power _)
        (by omega) returned
      rw [before, capacity_of_allocated later_allocated, groups]
      exact ⟨Nat.mul_le_mul_right _ (le_of_lt short.2), enough.le⟩
    · rename_i kept
      cases returned
      refine ⟨le_rfl, ?_⟩
      rw [before]
      by_cases covered : table.len + additional ≤ engine.maxLoadFor table.numGroups
      · exact covered.trans (engine.maxLoadFor_lt table.numGroups (Nat.succ_pos _)).le
      · have groups : engine.groupsForCapacity (table.len + additional) ≤ table.numGroups := by omega
        exact enough.le.trans (Nat.mul_le_mul_right _ groups)
  · rename_i unallocated
    have nothing : table.capacity = 0 := if_neg unallocated
    have len := refines.valid.len_of_unallocated (Bool.not_eq_true _ ▸ unallocated)
    cases returned
    rw [nothing]
    refine ⟨Nat.zero_le _, ?_⟩
    split
    · rw [capacity_allocate positive]
      exact enough.le
    · omega

end RawTable

end Tomb

/-! ## Capacities of the backends -/

namespace Opti

variable {K V : Type} [DecidableEq K] {T : Type} [RawTableApi T K V] {hash : K → UInt64}
  {Refines : T → PMap K V → Prop} {Holds : T → Slot → K → V → Prop} {Ready : T → Prop} {Room : T → Nat → Prop}
  {slotsFor : Nat → Nat}

/-- What a table says about its capacity. -/
structure TableCapacity (T : Type) [RawTableApi T K V] (hash : K → UInt64) (Refines : T → PMap K V → Prop)
    (Room : T → Nat → Prop) (slotsFor : Nat → Nat) : Prop where
  built (wanted : Nat) : RawTableApi.capacity (RawTableApi.withCapacity wanted : T) = slotsFor wanted
  covers (wanted : Nat) : wanted ≤ slotsFor wanted
  room {wanted count : Nat} (positive : 0 < wanted) (fits : count ≤ wanted) :
    Room (RawTableApi.withCapacity wanted) count
  insert {fuel left : Nat} {table later : T} {map : PMap K V} {key : K} {value : V} {result : Option V}
    (refines : Refines table map) (absent : map key = none) (room : Room table (left + 1))
    (returned : RawTableApi.insertOrReplace fuel hash table key value = some (result, later)) :
    RawTableApi.capacity later = RawTableApi.capacity table ∧ Room later left
  reserve {fuel additional : Nat} {table later : T} {map : PMap K V} (refines : Refines table map)
    (returned : RawTableApi.reserve fuel hash table additional = some later) :
    RawTableApi.capacity table ≤ RawTableApi.capacity later ∧
      RawTableApi.len table + additional ≤ RawTableApi.capacity later

theorem hashEngine_capacity (laws : RawTableLaws hash Refines Holds Ready)
    (table : TableCapacity T hash Refines Room slotsFor) :
    CapacityLaws (hashEngine T hash) (HashRefines hash Refines) (fun map => Room map.table) slotsFor where
  built := table.built
  covers := table.covers
  room := table.room
  insert {_ _ state _ _ _ _ _} refines absent room returned := by
    obtain ⟨current, _⟩ := state
    obtain ⟨rfl, tableRefines⟩ := refines
    obtain ⟨⟨answer, next⟩, inserted, same⟩ := Option.bind_eq_some_iff.mp returned
    cases same
    obtain ⟨⟨old, later⟩, stored, same⟩ := Option.bind_eq_some_iff.mp inserted
    cases same
    exact table.insert tableRefines absent room stored
  counts {state _ _} refines listed := by
    obtain ⟨current, _⟩ := state
    obtain ⟨rfl, tableRefines⟩ := refines
    exact (listed.perm (laws.iter_enumerates tableRefines)).length_eq.trans (laws.iter_length tableRefines)
  reserve {_ _ state _ _ _} refines returned := by
    obtain ⟨current, _⟩ := state
    obtain ⟨rfl, tableRefines⟩ := refines
    obtain ⟨next, reserved, same⟩ := Option.bind_eq_some_iff.mp returned
    cases same
    obtain ⟨later, stored, same⟩ := Option.bind_eq_some_iff.mp reserved
    cases same
    exact table.reserve tableRefines stored

theorem overflow_capacity (L : Overflow.GroupLayout) {S : Type → Type → Type} [KvStorage S] (hash : K → UInt64) :
    TableCapacity (Overflow.RawTable L S K V) hash (Overflow.RawTable.Refines hash) Overflow.RawTable.RoomFor
      L.slotsFor where
  built := Overflow.RawTable.capacity_withCapacity
  covers wanted := by
    unfold Overflow.GroupLayout.slotsFor
    split
    · omega
    · exact (L.lt_slots wanted).le
  room := Overflow.RawTable.roomFor_withCapacity
  insert refines absent room returned :=
    ⟨Overflow.RawTable.insert_capacity refines absent room returned,
      (Overflow.RawTable.RoomFor.insert refines absent room returned).2⟩
  reserve := Overflow.RawTable.reserve_capacity

theorem tomb_capacity (engine : Tomb.Engine) (tag : Tomb.TombstoneTag) {S : Type → Type → Type} [KvStorage S]
    (hash : K → UInt64) :
    TableCapacity (Tomb.RawTable engine tag S K V) hash (Tomb.RawTable.Refines hash) Tomb.RawTable.RoomFor
      engine.slotsFor where
  built := Tomb.RawTable.capacity_withCapacity
  covers wanted := by
    unfold Tomb.Engine.slotsFor
    split
    · omega
    · exact (engine.lt_slots wanted).le
  room := Tomb.RawTable.roomFor_withCapacity
  insert refines absent room returned :=
    ⟨Tomb.RawTable.insert_capacity refines absent room returned,
      (Tomb.RawTable.RoomFor.insert refines absent room returned).2⟩
  reserve := Tomb.RawTable.reserve_capacity

section HashBackends
variable {sorted : Engine K V}

/-- The slots that `build_inner` allocates in a hash backend. -/
def hashSlots : MapType → Nat → Nat
  | .ufm => (Overflow.ufmLayout .asm).slotsFor
  | .splitsies => (Overflow.splitsiesLayout .asm).slotsFor
  | .gaps => (Overflow.gapsLayout .asm).slotsFor
  | .ipo | .tomb => Tomb.Engine.inPlaceOverflow.slotsFor
  | .ipo64 => Tomb.Engine.ipo64.slotsFor
  | .flatBTree => fun _ => 0

/-- Nothing is said about the sorted backend. -/
def HashBackendRefines (hash : K → UInt64) :
    ∀ mapType, (backends sorted hash mapType).State → PMap K V → Prop :=
  BackendRefines (fun _ _ => False) hash

def HashBackendRoom (hash : K → UInt64) : ∀ mapType, (backends sorted hash mapType).State → Nat → Prop
  | .ufm | .splitsies | .gaps => fun map => Overflow.RawTable.RoomFor map.table
  | .ipo | .tomb | .ipo64 => fun map => Tomb.RawTable.RoomFor map.table
  | .flatBTree => fun _ _ => False

theorem hashBackends_laws (hash : K → UInt64) (mapType : MapType) (isHash : mapType ≠ .flatBTree) :
    EngineLaws (backends sorted hash mapType) (HashBackendRefines hash mapType) := by
  cases mapType with
  | ufm | splitsies | gaps => exact hashEngine_laws (Overflow.RawTable.rawTableLaws hash)
  | ipo | tomb | ipo64 => exact hashEngine_laws (Tomb.RawTable.rawTableLaws hash)
  | flatBTree => exact absurd rfl isHash

theorem hashBackends_capacity (hash : K → UInt64) (mapType : MapType) (isHash : mapType ≠ .flatBTree) :
    CapacityLaws (backends sorted hash mapType) (HashBackendRefines hash mapType) (HashBackendRoom hash mapType)
      (hashSlots mapType) := by
  cases mapType with
  | ufm | splitsies | gaps =>
      exact hashEngine_capacity (Overflow.RawTable.rawTableLaws hash) (overflow_capacity _ hash)
  | ipo | tomb | ipo64 =>
      exact hashEngine_capacity (Tomb.RawTable.rawTableLaws hash) (tomb_capacity _ _ hash)
  | flatBTree => exact absurd rfl isHash

/-- No band of the policy is the sorted backend. -/
def Policy.HashOnly (policy : Policy) : Prop := ∀ band ∈ policy.bands, band.2 ≠ .flatBTree

theorem Policy.HashOnly.backendFor {policy : Policy} (hashOnly : policy.HashOnly) (capacity : Nat) :
    policy.backendFor capacity ≠ .flatBTree := by
  unfold Policy.backendFor
  cases found : policy.bands[policy.partitionPoint capacity - 1]? with
  | none => exact fun same => by cases same
  | some band => exact hashOnly band (List.mem_of_getElem? found)

/-- In every state a policy of hash backends leads to, `reserve` keeps the capacity and
makes room for the request if and only if it stays in the active backend or moves to
one whose slots for the request are as many. -/
theorem reserve_keeps_capacity_iff (sorted : Engine K V) (hash : K → UInt64) (policy : Policy)
    (hashOnly : policy.HashOnly) (capacity fuel rounds additional : Nat) (ops : List (MapOp K V))
    (results : List (MapResult K V)) (result : MapResult K V) (final next : OptiMap (backends sorted hash))
    (returned : (OptiMap.withPolicyAndCapacity policy capacity).run fuel ops = some (results, final))
    (reserved : final.reserve rounds additional = some (result, next)) :
    max final.capacity (final.len + additional) ≤ next.capacity ↔
      final.ReserveKeeps hashSlots policy additional := by
  have maintained := @maintained_allowed _ _ (backends sorted hash) _ _ (· ≠ .flatBTree) (hashBackends_laws hash)
    policy hashOnly.backendFor
  have driven := maintained.run ops (maintained.start capacity) returned
  exact reserve_capacity_iff (hashBackends_laws hash) (hashBackends_capacity hash) hashOnly.backendFor driven
    reserved

end HashBackends

/-- Splitsies for small maps, Tomb from a capacity of 64 on. -/
def twoBands : Policy := (Policy.new.band 0 .splitsies).band 64 .tomb

/-- A map with one entry, built for a hundred. -/
def roomyRun : Option (List (MapResult UInt64 Nat) × OptiMap (backends (listEngine : Engine UInt64 Nat) id)) :=
  (OptiMap.withPolicyAndCapacity twoBands 100).run 4 [.insert 7 0]

/-- For sixty more entries the map moves to Splitsies with as many slots as before. -/
theorem reserve_moves_within_capacity :
    ∃ results result final next, roomyRun = some (results, final) ∧ final.mapType = .tomb ∧
      final.reserve 4 60 = some (result, next) ∧ next.mapType = .splitsies ∧
      (max final.capacity (final.len + 60) ≤ next.capacity ↔ final.ReserveKeeps hashSlots twoBands 60) := by
  have checked : roomyRun.any (fun outcome => decide (outcome.2.mapType = .tomb) &&
      (outcome.2.reserve 4 60).any fun moved => decide (moved.2.mapType = .splitsies)) = true := by
    decide +kernel
  obtain ⟨⟨results, final⟩, returned, outcome⟩ := (Option.any_eq_true _ _).mp checked
  simp only [Bool.and_eq_true, decide_eq_true_eq] at outcome
  obtain ⟨⟨result, next⟩, reserved, moved⟩ := (Option.any_eq_true _ _).mp outcome.2
  refine ⟨results, result, final, next, returned, outcome.1, reserved, of_decide_eq_true moved, ?_⟩
  have hashOnly : ∀ band ∈ twoBands.bands, band.2 ≠ .flatBTree := by decide
  exact reserve_keeps_capacity_iff listEngine id twoBands hashOnly 100 4 4 60 [.insert 7 0] results result final
    next returned reserved

/-- For one more entry it moves to Splitsies with a single group: 16 slots of 128. -/
theorem reserve_discards_capacity :
    ∃ results result final next, roomyRun = some (results, final) ∧ final.capacity = 128 ∧
      final.reserve 4 1 = some (result, next) ∧ next.capacity = 16 ∧
      ¬ max final.capacity (final.len + 1) ≤ next.capacity := by
  have checked : roomyRun.any (fun outcome => decide (outcome.2.capacity = 128) &&
      (outcome.2.reserve 4 1).any fun moved => decide (moved.2.capacity = 16)) = true := by
    decide +kernel
  obtain ⟨⟨results, final⟩, returned, outcome⟩ := (Option.any_eq_true _ _).mp checked
  simp only [Bool.and_eq_true, decide_eq_true_eq] at outcome
  obtain ⟨⟨result, next⟩, reserved, shrunk⟩ := (Option.any_eq_true _ _).mp outcome.2
  have small : next.capacity = 16 := of_decide_eq_true shrunk
  refine ⟨results, result, final, next, returned, outcome.1, reserved, small, fun kept => ?_⟩
  have before := (le_max_left _ _).trans kept
  omega

end Opti

end Optimap
