import Optimap.Overflow.ReserveLaw
import Optimap.Tomb.ReserveLaw

/-!
# What `reserve` guarantees, for every engine

The tombstone tables always keep their promise. The overflow-bit table rehashes for it
only when the capacity formula asks for more groups, and then forgets what removals
took from the load limit.
-/

set_option autoImplicit false

namespace Optimap.HashEngines

open Lib Hash Map

variable {K V : Type} [DecidableEq K]

/-- After `reserve n`, inserting `n` new keys leaves the group count alone: always in
the tombstone tables, exactly when the reservation is covered in the overflow-bit
table. -/
theorem reserve_guarantee (layout : Overflow.GroupLayout) (engine : Tomb.Engine) (tag : Tomb.TombstoneTag)
    (S : Type → Type → Type) [KvStorage S] (hash : K → UInt64) (capacity fuel rounds : Nat)
    (ops : List (GenericOp K V)) (results : List (MapResult K V)) (entries : List (K × V)) :
    (∀ final reserved last : GenericMap (Overflow.RawTable layout S K V) K,
      (GenericMap.withCapacityAndHasher capacity hash).run fuel ops = some (results, final) →
      final.NewEntries entries → final.reserve rounds entries.length = some reserved →
      reserved.extend rounds entries = some last →
      (GenericMap.KeepsGroups Overflow.RawTable.numGroups rounds entries reserved ↔
        final.table.ReserveCovers entries.length)) ∧
    (∀ final reserved : GenericMap (Tomb.RawTable engine tag S K V) K,
      (GenericMap.withCapacityAndHasher capacity hash).run fuel ops = some (results, final) →
      final.NewEntries entries → final.reserve rounds entries.length = some reserved →
      GenericMap.KeepsGroups Tomb.RawTable.numGroups rounds entries reserved) := by
  constructor
  · intro final reserved last returned new reservedRan extended
    obtain ⟨map, _, refines, hasher⟩ := GenericMap.run_refines (Overflow.RawTable.rawTableLaws hash) ops _ _
      results ((Overflow.RawTable.rawTableLaws hash).withCapacity capacity) returned
    cases final with
    | mk table hashBuilder =>
        cases hasher
        obtain ⟨later, resized, same⟩ := Option.bind_eq_some_iff.mp reservedRan
        cases same
        exact Overflow.RawTable.reserve_keeps_groups_iff refines resized new.distinct
          (new.fresh (Overflow.RawTable.rawTableLaws hashBuilder) refines) extended
  · intro final reserved returned new reservedRan
    obtain ⟨map, _, refines, hasher⟩ := GenericMap.run_refines (Tomb.RawTable.rawTableLaws hash) ops _ _
      results ((Tomb.RawTable.rawTableLaws hash).withCapacity capacity) returned
    cases final with
    | mk table hashBuilder =>
        cases hasher
        obtain ⟨later, resized, same⟩ := Option.bind_eq_some_iff.mp reservedRan
        cases same
        exact Tomb.RawTable.reserve_keeps_groups refines resized new.distinct
          (new.fresh (Tomb.RawTable.rawTableLaws hashBuilder) refines)

/-- Seventeen keys of one home group in a UFM table of two, all but one removed again. -/
def thinnedOps : List (GenericOp UInt64 Nat) :=
  .common (.extend (Overflow.RawTable.driftKeys 0 1 17)) ::
    (Overflow.RawTable.driftKeys 0 1 16).map fun entry => .common (.remove entry.1)

/-- The map after those operations, and what reserving and then inserting makes of it. -/
def thinnedRun : Option (List (MapResult UInt64 Nat) ×
    GenericMap (Overflow.RawTable (Overflow.ufmLayout .asm) AoS UInt64 Nat) UInt64) :=
  (GenericMap.withCapacityAndHasher 20 id).run 4 thinnedOps

/-- Every removal lowered the load limit, to ten: `reserve 20` then does nothing, for
one entry and twenty more fit two groups nominally, and the insertions double the
groups. -/
theorem ufm_reserve_not_honoured :
    ∃ results final reserved, thinnedRun = some (results, final) ∧
      final.NewEntries (Overflow.RawTable.driftKeys 1 0 20) ∧
      final.reserve 4 (Overflow.RawTable.driftKeys 1 0 20).length = some reserved ∧
      ¬ GenericMap.KeepsGroups Overflow.RawTable.numGroups 4 (Overflow.RawTable.driftKeys 1 0 20) reserved := by
  have checked : thinnedRun.any (fun outcome =>
      decide (((Overflow.RawTable.driftKeys 1 0 20).map Prod.fst).Nodup) &&
      decide (∀ entry ∈ Overflow.RawTable.driftKeys 1 0 20, entry.1 ∉ outcome.2.iter.map Prod.fst) &&
      (outcome.2.reserve 4 (Overflow.RawTable.driftKeys 1 0 20).length).any fun reserved =>
        (reserved.extend 4 (Overflow.RawTable.driftKeys 1 0 20)).any fun last =>
          decide (last.table.numGroups ≠ reserved.table.numGroups)) = true := by
    decide +kernel
  obtain ⟨⟨results, final⟩, returned, outcome⟩ := (Option.any_eq_true _ _).mp checked
  simp only [Bool.and_eq_true, decide_eq_true_eq] at outcome
  obtain ⟨⟨distinct, absent⟩, grown⟩ := outcome
  obtain ⟨reserved, reservedRan, inserted⟩ := (Option.any_eq_true _ _).mp grown
  obtain ⟨last, extended, changed⟩ := (Option.any_eq_true _ _).mp inserted
  refine ⟨results, final, reserved, returned, ⟨distinct, absent⟩, reservedRan, fun keeps => ?_⟩
  exact of_decide_eq_true changed (keeps.extend _ extended)

/-- Nine more entries fit under the lowered limit, and the group count stays. -/
theorem ufm_reserve_within_limit :
    ∃ results final reserved, thinnedRun = some (results, final) ∧
      final.reserve 4 (Overflow.RawTable.driftKeys 1 0 9).length = some reserved ∧
      GenericMap.KeepsGroups Overflow.RawTable.numGroups 4 (Overflow.RawTable.driftKeys 1 0 9) reserved := by
  have checked : thinnedRun.any (fun outcome =>
      decide (((Overflow.RawTable.driftKeys 1 0 9).map Prod.fst).Nodup) &&
      decide (∀ entry ∈ Overflow.RawTable.driftKeys 1 0 9, entry.1 ∉ outcome.2.iter.map Prod.fst) &&
      decide (outcome.2.table.len + (Overflow.RawTable.driftKeys 1 0 9).length ≤ outcome.2.table.maxLoad) &&
      (outcome.2.reserve 4 (Overflow.RawTable.driftKeys 1 0 9).length).any fun reserved =>
        (reserved.extend 4 (Overflow.RawTable.driftKeys 1 0 9)).isSome) = true := by
    decide +kernel
  obtain ⟨⟨results, final⟩, returned, outcome⟩ := (Option.any_eq_true _ _).mp checked
  simp only [Bool.and_eq_true, decide_eq_true_eq] at outcome
  obtain ⟨⟨⟨distinct, absent⟩, covered⟩, kept⟩ := outcome
  obtain ⟨reserved, reservedRan, inserted⟩ := (Option.any_eq_true _ _).mp kept
  obtain ⟨last, extended⟩ := Option.isSome_iff_exists.mp inserted
  refine ⟨results, final, reserved, returned, reservedRan, ?_⟩
  exact ((reserve_guarantee (Overflow.ufmLayout .asm) .ipo64 Tomb.highTomb AoS id 20 4 4 thinnedOps results
    (Overflow.RawTable.driftKeys 1 0 9)).1 final reserved last returned ⟨distinct, absent⟩ reservedRan extended).mpr
      (Or.inr (Or.inl covered))

end Optimap.HashEngines
