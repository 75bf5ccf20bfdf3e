import Optimap.Overflow.SingleBit

/-!
# Insertion always finds a free slot

The loops behind `insert_no_check` and `rehash_with` have no counter. They end
because the load limit stays below the number of slots, whatever the anti-drift
step did to it.
-/

set_option autoImplicit false
set_option linter.unusedSectionVars false

namespace Optimap.Overflow

open Lib Hash Map

namespace RawTable

variable {L : GroupLayout} {S : Type → Type → Type} [KvStorage S] {K V : Type} [DecidableEq K]
  {hash : K → UInt64} {table : RawTable L S K V} {map : PMap K V}

/-- `insert_no_check` ends within one cycle of the probe sequence, in a slot that
was EMPTY. -/
def FindsSlot (table : RawTable L S K V) : Prop :=
  ∀ h key value, ∃ slot later, table.insertNoCheck table.numGroups h key value = some (slot, later) ∧
    table.InRange slot ∧ table.metaByte slot.1 slot.2 = EMPTY ∧
    ∃ probe < table.numGroups, table.probeAt h probe = slot.1

/-- The group counts `rehash_with` is called with. -/
inductive RehashSize (table : RawTable L S K V) : Nat → Prop where
  | grow : RehashSize table table.grownGroups
  | same : RehashSize table table.numGroups
  | shrink : RehashSize table (L.groupsForCapacity table.len)
  | reserve (additional : Nat) : RehashSize table (L.groupsForCapacity (table.len + additional))

theorem Valid.findsSlot (valid : table.Valid hash) : table.FindsSlot := by
  intro h key value
  obtain ⟨⟨slot, later⟩, inserted⟩ := insertNoCheck_within valid h key value
  have returned := inserted table.numGroups (Nat.lt_succ_self _)
  obtain ⟨last, _, reached, head, full, _⟩ :=
    @insertLoop_returns _ _ _ _ _ _ _ _ table.numGroups table 0 _ _ returned
  obtain ⟨inside, empty⟩ := mem_matchEmpty.mp (List.mem_of_head? head)
  obtain ⟨stop, early, room⟩ := valid.exists_empty_probe h
  have bound : last ≤ stop := by
    by_contra beyond
    exact room (full _ (mem_probeRange.mpr ⟨stop, Nat.zero_le _, by omega, rfl⟩))
  refine ⟨slot, later, returned, ⟨?_, inside⟩, empty, last, Nat.lt_succ_of_le (bound.trans early),
    reached.symm⟩
  rw [reached]
  exact table.probeAt_le h last

theorem RehashSize.power {newNumGroups : Nat} (size : table.RehashSize newNumGroups)
    (valid : table.Valid hash) : ∃ bits, newNumGroups = 2 ^ bits := by
  cases size with
  | grow => exact grownGroups_power valid
  | same => exact valid.power
  | shrink => exact L.groupsForCapacity_power _
  | reserve additional => exact L.groupsForCapacity_power _

theorem RehashSize.room {newNumGroups : Nat} (size : table.RehashSize newNumGroups)
    (valid : table.Valid hash) : table.len ≤ L.maxLoadFor newNumGroups := by
  cases size with
  | grow => exact (len_lt_grown valid).le
  | same => exact valid.len_le.trans valid.maxLoad_le
  | shrink => exact L.le_maxLoadFor_groupsForCapacity _
  | reserve additional => exact (Nat.le_add_right _ _).trans (L.le_maxLoadFor_groupsForCapacity _)

/-- Rehashing returns when every re-insertion may visit each new group once. -/
theorem rehashWith_findsSlot {newNumGroups : Nat} (refines : table.Refines hash map)
    (size : table.RehashSize newNumGroups) :
    ∃ later, rehashWith newNumGroups hash table newNumGroups = some later ∧
      later.numGroups = newNumGroups ∧ later.FindsSlot := by
  have power := size.power refines.valid
  have room := size.room refines.valid
  obtain ⟨later, rehashed⟩ := rehashWith_within refines power room
  have returned := rehashed newNumGroups le_rfl
  obtain ⟨laterRefines, mask, _, _⟩ := rehashWith_refines refines power room returned
  obtain ⟨bits, rfl⟩ := power
  have positive := Nat.two_pow_pos bits
  exact ⟨later, returned, by rw [numGroups, mask]; omega, laterRefines.valid.findsSlot⟩

/-- In every allocated state of every run the entries stay within the load limit, the
limit within the nominal one and that below the slots; insertion without check, there
and after any rehash, and every re-insertion of the rehash end within one probe cycle. -/
theorem insertion_finds_free_slot (hash : K → UInt64) (capacity fuel : Nat) (ops : List (GenericOp K V))
    {results : List (MapResult K V)} {final : GenericMap (RawTable L S K V) K}
    (returned : (GenericMap.withCapacityAndHasher capacity hash :
      GenericMap (RawTable L S K V) K).run fuel ops = some (results, final))
    (allocated : final.table.isAllocated = true) :
    final.table.len ≤ final.table.maxLoad ∧ 0 < final.table.maxLoad ∧
      final.table.maxLoad ≤ L.maxLoadFor final.table.numGroups ∧
      L.maxLoadFor final.table.numGroups < final.table.numGroups * L.groupSize ∧
      final.table.FindsSlot ∧
      ∀ newNumGroups, final.table.RehashSize newNumGroups →
        ∃ later, rehashWith newNumGroups hash final.table newNumGroups = some later ∧
          later.numGroups = newNumGroups ∧ later.FindsSlot := by
  obtain ⟨map, _, refines, _⟩ := GenericMap.run_refines (rawTableLaws hash) ops _ _ results
    ((rawTableLaws hash).withCapacity capacity) returned
  have valid := refines.valid
  exact ⟨valid.len_le, of_decide_eq_true allocated, valid.maxLoad_le,
    L.maxLoadFor_lt _ (Nat.succ_pos _), valid.findsSlot, fun _ size => rehashWith_findsSlot refines size⟩

/-- A group overflows and a removal lowers the limit; the table still takes keys. -/
theorem ufm_drifted_table_finds_slot :
    ∃ results final, (GenericMap.withCapacityAndHasher 20 id :
        GenericMap (RawTable (ufmLayout .asm) AoS UInt64 Nat) UInt64).run 4
        [.common (.extend (driftKeys 0 1 17)), .common (.remove 1)] = some (results, final) ∧
      final.table.len ≤ final.table.maxLoad ∧ final.table.FindsSlot := by
  have checked : ((GenericMap.withCapacityAndHasher 20 id :
      GenericMap (RawTable (ufmLayout .asm) AoS UInt64 Nat) UInt64).run 4
      [.common (.extend (driftKeys 0 1 17)), .common (.remove 1)]).any
        (fun outcome => outcome.2.table.isAllocated) = true := by
    decide +kernel
  obtain ⟨⟨results, final⟩, returned, allocated⟩ := (Option.any_eq_true _ _).mp checked
  have reached := insertion_finds_free_slot id 20 4 _ returned allocated
  exact ⟨results, final, returned, reached.1, reached.2.2.2.2.1⟩

end RawTable

end Optimap.Overflow
