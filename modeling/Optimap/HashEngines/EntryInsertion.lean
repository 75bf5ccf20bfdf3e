import Optimap.Overflow.EntryInsertion
import Optimap.Tomb.EntryInsertion

/-!
# Entries insert as `insert` does

The statement for all three engines: the overflow-bit table on every layout, and the
two tombstone tables.
-/

set_option autoImplicit false

namespace Optimap.HashEngines

open Lib Hash Map

variable {K V : Type} [DecidableEq K]

/-- Locating a slot and filling it later leaves exactly the table that a plain
insertion leaves: control bytes, overflow bits, slots, `len` and the load counter. -/
theorem entry_insertion_equals_insertion (layout : Overflow.GroupLayout) (engine : Tomb.Engine)
    (tag : Tomb.TombstoneTag) (S : Type → Type → Type) [KvStorage S] :
    GenericMap.EntriesInsertPlainly (Overflow.RawTable layout S K V) ∧
      GenericMap.EntriesInsertPlainly (Tomb.RawTable engine tag S K V) :=
  ⟨GenericMap.entriesInsertPlainly_of_laws Overflow.RawTable.rawTableLaws
      fun _ _ _ _ value refines absent => Overflow.RawTable.sameInsertion refines absent value,
    GenericMap.entriesInsertPlainly_of_laws Tomb.RawTable.rawTableLaws
      fun _ _ _ _ value refines absent => Tomb.RawTable.sameInsertion refines absent value⟩

/-- On the UFM layout seventeen keys overflow their home group; an eighteenth is located behind it and goes the
same way on both paths. -/
theorem overflowed_entry_insertion :
    ∃ results final, (GenericMap.withCapacityAndHasher 20 id :
        GenericMap (Overflow.RawTable (Overflow.ufmLayout .asm) AoS UInt64 Nat) UInt64).run 4
        [.common (.extend (Overflow.RawTable.driftKeys 0 1 17))] = some (results, final) ∧
      final.SameInsertion 137 5 := by
  have checked : ((GenericMap.withCapacityAndHasher 20 id :
      GenericMap (Overflow.RawTable (Overflow.ufmLayout .asm) AoS UInt64 Nat) UInt64).run 4
      [.common (.extend (Overflow.RawTable.driftKeys 0 1 17))]).any
        (fun outcome => decide (137 ∉ outcome.2.iter.map Prod.fst)) = true := by
    decide +kernel
  obtain ⟨⟨results, final⟩, returned, missing⟩ := (Option.any_eq_true _ _).mp checked
  exact ⟨results, final, returned,
    (entry_insertion_equals_insertion (Overflow.ufmLayout .asm) .ipo64 Tomb.highTomb AoS).1 id 20 4 _ _ _
      returned 137 (of_decide_eq_true missing) 5⟩

end Optimap.HashEngines
