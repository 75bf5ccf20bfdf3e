import Optimap.Map.GenericMapRefinement

/-!
# Insertions without growth

A sequence of insertions of new keys, watched for changes of the group count.
-/

set_option autoImplicit false
set_option linter.unusedSectionVars false

namespace Optimap.Map

open Lib RawTableApi

namespace GenericMap

variable {T K V : Type} [DecidableEq K] [RawTableApi T K V] {hash : K → UInt64}
  {Refines : T → PMap K V → Prop} {Holds : T → Slot → K → V → Prop} {Ready : T → Prop}

/-- No insertion of the sequence changes the number of groups. -/
def KeepsGroups (numGroups : T → Nat) (fuel : Nat) : List (K × V) → GenericMap T K → Prop
  | [], _ => True
  | (key, value) :: rest, map => ∀ result next, map.insert fuel key value = some (result, next) →
      numGroups next.table = numGroups map.table ∧ KeepsGroups numGroups fuel rest next

/-- What no insertion changes, the whole sequence leaves. -/
theorem KeepsGroups.extend {numGroups : T → Nat} {fuel : Nat} {last : GenericMap T K} (entries : List (K × V)) :
    ∀ {map : GenericMap T K}, KeepsGroups numGroups fuel entries map → map.extend fuel entries = some last →
      numGroups last.table = numGroups map.table := by
  induction entries with
  | nil =>
      intro map _ extended
      cases extended
      rfl
  | cons entry entries ih =>
      intro map keeps extended
      obtain ⟨⟨result, next⟩, inserted, rest⟩ := Option.bind_eq_some_iff.mp extended
      obtain ⟨groups, later⟩ := keeps result next inserted
      exact (ih later rest).trans groups

/-- Entries with distinct keys that the map does not have. -/
structure NewEntries (map : GenericMap T K) (entries : List (K × V)) : Prop where
  distinct : (entries.map Prod.fst).Nodup
  absent : ∀ entry ∈ entries, entry.1 ∉ map.iter.map Prod.fst

theorem NewEntries.fresh (laws : RawTableLaws hash Refines Holds Ready) {table : T} {map : PMap K V}
    {entries : List (K × V)} (refines : Refines table map)
    (new : (⟨table, hash⟩ : GenericMap T K).NewEntries entries) : ∀ entry ∈ entries, map entry.1 = none := by
  intro entry member
  cases found : map entry.1 with
  | none => rfl
  | some stored =>
      have listed := ((laws.iter_enumerates refines).mem_iff entry.1 stored).mpr found
      exact absurd (List.mem_map_of_mem listed) (new.absent entry member)

/-- The keys still to insert stay new. -/
theorem insert_fresh {entry : K × V} {entries : List (K × V)} {map : PMap K V}
    (distinct : ((entry :: entries).map Prod.fst).Nodup)
    (fresh : ∀ other ∈ entry :: entries, map other.1 = none) :
    (entries.map Prod.fst).Nodup ∧ ∀ other ∈ entries, map.insert entry.1 entry.2 other.1 = none := by
  obtain ⟨headFresh, rest⟩ := List.nodup_cons.mp distinct
  refine ⟨rest, fun other member => ?_⟩
  have different : other.1 ≠ entry.1 := fun same => headFresh (same ▸ List.mem_map_of_mem member)
  rw [PMap.insert_of_ne map _ different]
  exact fresh other (List.mem_cons_of_mem _ member)

/-- By induction on the entries: `Room table n` says that `n` more fit, and an
insertion uses up one place. -/
theorem keepsGroups_of_room (laws : RawTableLaws hash Refines Holds Ready) {numGroups : T → Nat} {fuel : Nat}
    {Room : T → Nat → Prop}
    (step : ∀ {table later : T} {map : PMap K V} {key : K} {value : V} {result : Option V} {left : Nat},
      Refines table map → map key = none → Room table (left + 1) →
      insertOrReplace fuel hash table key value = some (result, later) →
      numGroups later = numGroups table ∧ Room later left) (entries : List (K × V)) :
    ∀ {table : T} {map : PMap K V}, Refines table map → (entries.map Prod.fst).Nodup →
      (∀ entry ∈ entries, map entry.1 = none) → Room table entries.length →
      KeepsGroups numGroups fuel entries (⟨table, hash⟩ : GenericMap T K) := by
  induction entries with
  | nil => intro table map _ _ _ _; trivial
  | cons entry entries ih =>
      intro table map refines distinct fresh room result next inserted
      obtain ⟨⟨answer, later⟩, returned, same⟩ := Option.bind_eq_some_iff.mp inserted
      cases same
      obtain ⟨groups, laterRoom⟩ := step refines (fresh entry List.mem_cons_self) room returned
      obtain ⟨rest, laterFresh⟩ := insert_fresh distinct fresh
      exact ⟨groups, ih (laws.insertOrReplace refines returned).2 rest laterFresh laterRoom⟩

end GenericMap

end Optimap.Map
