import Optimap.Overflow.Refinement

/-!
# The map over the overflow-bit table

The engine meets the raw table contract, so `GenericMap` over any layout and
storage answers as a finite map over whole runs.
-/

set_option autoImplicit false

namespace Optimap.Overflow

open Lib Hash Map

namespace RawTable

variable {L : GroupLayout} {S : Type → Type → Type} [KvStorage S] {K V : Type} [DecidableEq K]

/-- One more entry fits. -/
def Ready (table : RawTable L S K V) : Prop := table.len < table.maxLoad

theorem rawTableLaws (hash : K → UInt64) :
    RawTableLaws (T := RawTable L S K V) hash (Refines hash) Holds Ready where
  new := new_refines
  withCapacity capacity := by
    change (withCapacity capacity).Refines hash PMap.empty
    unfold withCapacity
    split
    · exact new_refines
    · exact allocate_refines (L.groupsForCapacity_power capacity) rfl
  stores refines := refines.stores
  holds_entry holds := holds.readSlot
  writeValue refines holds value := by
    refine ⟨writeValue_refines refines holds value,
      (writeValue_holds_iff holds value _ _ _).mpr (.inl ⟨rfl, rfl, rfl⟩), ?_⟩
    intro other otherKey otherValue different otherHolds
    exact (writeValue_holds_iff holds value _ _ _).mpr (.inr ⟨different, otherHolds⟩)
  isAllocated {table _} refines unallocated := by
    have lenLe := refines.valid.len_le
    have unloaded : ¬ 0 < table.maxLoad := of_decide_eq_false unallocated
    exact refines.map_eq_empty (by omega)
  clear := clear_refines
  findByHash_none refines := findByHash_refines refines
  findByHash_some refines := findByHash_refines refines
  insertOrReplace := insertOrReplace_refines
  findForEntry_found refines := findForEntry_refines refines
  findForEntry_vacant {_ _ _ _ slot} refines returned := by
    have outcome := findForEntry_refines refines returned
    cases slot with
    | none => exact outcome
    | some slot => exact outcome.1
  insertAt refines returned value := by
    obtain ⟨absent, vacant, room, _⟩ := findForEntry_refines refines returned
    exact insertAt_refines refines absent vacant room _ value
  ensureCapacity := ensureCapacity_refines
  insertNoCheck := insertNoCheck_refines
  removeByHash := removeByHash_refines
  eraseSlot refines holds := by
    refine ⟨eraseSlot_refines refines holds, ?_⟩
    intro other otherKey otherValue different otherHolds
    exact (eraseSlot_holds_iff holds.1.allocated holds.1.1 _ _ _ _).mpr ⟨different, otherHolds⟩
  reserve := reserve_refines
  shrinkToFit := shrinkToFit_refines
  iterSlots_nodup {table _} refines := by
    change table.iterSlots.Nodup
    rw [refines.valid.iterSlots_eq]
    exact occupiedSlots_nodup _
  mem_iterSlots {table _} refines slot := by
    change slot ∈ table.iterSlots ↔ _
    rw [refines.valid.iterSlots_eq]
    exact refines.valid.mem_occupiedSlots_iff slot
  len {table _} refines := by
    change table.len = table.iterSlots.length
    rw [refines.valid.iterSlots_eq, refines.valid.len_eq]
  intoIter _ := rfl
  cloneTable := cloneTable_refines

/-- How a table stands for a finite map: each entry in one slot, the length the
number of occupied slots, both iterations enumerations, and every stored key
behind groups with its channel's bit set. -/
structure StandsFor (hash : K → UInt64) (table : RawTable L S K V) (map : PMap K V) : Prop where
  lookup : ∀ key value, map key = some value ↔ ∃ slot, table.Holds slot key value
  keys_unique : ∀ first second key left right, table.Holds first key left →
    table.Holds second key right → first = second
  len_occupied : table.len = table.occupiedSlots.length
  iter : PMap.Enumerates (table.iterSlots.filterMap (RawTableApi.entryAt table)) map
  intoIter : PMap.Enumerates (RawTableApi.intoIter table) map
  bits : ∀ slot key value, table.Holds slot key value → ∃ probe < table.numGroups,
    table.probeAt (hash key) probe = slot.1 ∧ table.Passed (hash key) probe

theorem Refines.standsFor {hash : K → UInt64} {table : RawTable L S K V} {map : PMap K V}
    (refines : table.Refines hash map) : table.StandsFor hash map where
  lookup := refines.stores.lookup
  keys_unique _ _ _ _ _ first second := refines.stores.unique first second
  len_occupied := refines.valid.len_eq
  iter := (rawTableLaws hash).iter_enumerates refines
  intoIter := (rawTableLaws hash).iter_enumerates refines
  bits slot key value holds := by
    obtain ⟨bits, power⟩ := refines.valid.power
    obtain ⟨_, probe, reached, passed⟩ := refines.valid.locate holds
    obtain ⟨first, bound, same, earlier⟩ :=
      @exists_early_probe _ _ _ power (table.groupIndex_le (hash key)) _ (fun group =>
        table.hasOverflowBit group (L.tags.overflowChannel (hash key)) = true) passed
    exact ⟨first, Nat.lt_succ_of_le bound, same.trans reached, earlier⟩

/-- Every run of a map over the overflow-bit table that returns is answered as by
a finite map, and comparing the maps two runs end in compares their contents. -/
theorem overflow_run_refines_finiteMap [DecidableEq V] (hash : K → UInt64) (capacity fuel : Nat)
    (ops : List (GenericOp K V)) {results : List (MapResult K V)}
    {final : GenericMap (RawTable L S K V) K}
    (returned : (GenericMap.withCapacityAndHasher capacity hash :
      GenericMap (RawTable L S K V) K).run fuel ops = some (results, final)) :
    (∃ map, AnswersAll GenericAnswers PMap.empty ops results map ∧ final.table.StandsFor hash map) ∧
      ∀ (otherHash : K → UInt64) (otherCapacity : Nat) (otherOps : List (GenericOp K V))
        (otherResults : List (MapResult K V)) (other : GenericMap (RawTable L S K V) K) (same : Bool),
        (GenericMap.withCapacityAndHasher otherCapacity otherHash :
          GenericMap (RawTable L S K V) K).run fuel otherOps = some (otherResults, other) →
        GenericMap.eq fuel final other = some same →
        (same = true ↔ ∀ key value, (∃ slot, final.table.Holds slot key value) ↔
          ∃ slot, other.table.Holds slot key value) := by
  obtain ⟨map, answers, refines, builder⟩ := GenericMap.run_refines (rawTableLaws hash) ops
    (RawTableApi.withCapacity capacity) PMap.empty results ((rawTableLaws hash).withCapacity capacity)
    returned
  refine ⟨⟨map, answers, refines.standsFor⟩, ?_⟩
  intro otherHash otherCapacity otherOps otherResults other same otherReturned compared
  obtain ⟨otherMap, _, otherRefines, otherBuilder⟩ := GenericMap.run_refines (rawTableLaws otherHash)
    otherOps (RawTableApi.withCapacity otherCapacity) PMap.empty otherResults
    ((rawTableLaws otherHash).withCapacity otherCapacity) otherReturned
  obtain ⟨table, _⟩ := final
  obtain ⟨otherTable, _⟩ := other
  cases builder
  cases otherBuilder
  rw [GenericMap.eq_refines (rawTableLaws _) (rawTableLaws _) refines otherRefines compared]
  constructor
  · rintro rfl key value
    rw [← refines.stores.lookup, ← otherRefines.stores.lookup]
  · intro contents
    funext key
    ext value
    rw [refines.stores.lookup, otherRefines.stores.lookup, contents]

/-- A run over the UFM layout that overflows a group: sixteen keys of one home
group, one of them replaced and one removed. -/
theorem ufm_overflowing_run_refines_finiteMap :
    ∃ results final,
      (GenericMap.withCapacityAndHasher 20 id :
        GenericMap (RawTable (ufmLayout .asm) AoS UInt64 Nat) UInt64).run 4
        [.common (.extend ((List.range 16).map fun i => (UInt64.ofNat i, i))),
          .rawInsert 3 7, .common (.insert 3 8), .common (.remove 5), .common .iter] =
        some (results, final) ∧
      ∃ map, AnswersAll GenericAnswers PMap.empty
        [.common (.extend ((List.range 16).map fun i => (UInt64.ofNat i, i))),
          .rawInsert 3 7, .common (.insert 3 8), .common (.remove 5), .common .iter] results map ∧
        final.table.StandsFor id map := by
  have returns : ((GenericMap.withCapacityAndHasher 20 id :
      GenericMap (RawTable (ufmLayout .asm) AoS UInt64 Nat) UInt64).run 4
      [.common (.extend ((List.range 16).map fun i => (UInt64.ofNat i, i))),
        .rawInsert 3 7, .common (.insert 3 8), .common (.remove 5), .common .iter]).isSome = true := by
    decide +kernel
  obtain ⟨⟨results, final⟩, returned⟩ := Option.isSome_iff_exists.mp returns
  exact ⟨results, final, returned, (overflow_run_refines_finiteMap id 20 4 _ returned).1⟩

end RawTable

end Optimap.Overflow
