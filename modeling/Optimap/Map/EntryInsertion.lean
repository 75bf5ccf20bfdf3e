import Optimap.Lib.Fuel
import Optimap.Map.GenericMapRefinement

/-!
# Insertion through an entry

The entry path inserts in two phases: a probe that remembers a free slot, and a
commit that fills it. Both paths are compared by the maps they end in.
-/

set_option autoImplicit false

namespace Optimap.Map

open Lib RawTableApi

namespace GenericMap

variable {T K V : Type} [DecidableEq K] [RawTableApi T K V] {hash : K → UInt64}
  {Refines : T → PMap K V → Prop} {Holds : T → Slot → K → V → Prop} {Ready : T → Prop}

/-- `find_for_entry` on the table as it is, then `VacantEntry::insert`. -/
def probedInsert (fuel : Nat) (map : GenericMap T K) (key : K) (value : V) :
    Option (GenericMap T K) := do
  match ← findForEntry fuel map.table (map.hashBuilder key) key with
  | .found _ => return map
  | .vacant slot =>
      let (_, inserted) ← map.vacantInsert fuel slot key value
      return inserted

/-- Inserting through an entry ends in the very table a plain insertion ends in.
`try_insert` allocates before it probes. Probing an unallocated table directly gives
the same table too, if it returns. -/
structure SameInsertion (map : GenericMap T K) (key : K) (value : V) : Prop where
  entry : ∀ next, Settles (fun fuel => map.tryInsert fuel key value) (none, next) ↔
    Settles (fun fuel => map.insert fuel key value) (none, next)
  probed : ∀ next, Settles (fun fuel => map.probedInsert fuel key value) next →
    Settles (fun fuel => map.insert fuel key value) (none, next)
  allocated : isAllocated map.table = true → ∀ next,
    (Settles (fun fuel => map.probedInsert fuel key value) next ↔
      Settles (fun fuel => map.insert fuel key value) (none, next))

/-- The probe of an absent key cannot find it. -/
theorem tryInsert_eq_probed (laws : RawTableLaws hash Refines Holds Ready) {table : T} {map : PMap K V}
    {key : K} (refines : Refines table map) (absent : map key = none)
    (allocated : isAllocated table = true) (fuel : Nat) (value : V) :
    (⟨table, hash⟩ : GenericMap T K).tryInsert fuel key value =
      ((⟨table, hash⟩ : GenericMap T K).probedInsert fuel key value).map fun next => (none, next) := by
  have started : (⟨table, hash⟩ : GenericMap T K).allocate fuel = some table := if_pos allocated
  simp only [tryInsert, probedInsert, entry, started, Option.bind_eq_bind, Option.bind_some]
  cases probed : findForEntry fuel table (hash key) key with
  | none => rfl
  | some probe =>
      cases probe with
      | found slot =>
          obtain ⟨value, holds⟩ := laws.findForEntry_found refines probed
          rw [((laws.stores refines).lookup key value).mpr ⟨slot, holds⟩] at absent
          cases absent
      | vacant slot =>
          simp only [Option.bind_some, Option.pure_def]
          cases (⟨table, hash⟩ : GenericMap T K).vacantInsert fuel slot key value <;> rfl

/-- In every reachable map, for every absent key, an entry inserts as `insert` does. -/
def EntriesInsertPlainly (T : Type) {K V : Type} [DecidableEq K] [RawTableApi T K V] : Prop :=
  ∀ (hash : K → UInt64) (capacity fuel : Nat) (ops : List (GenericOp K V)) (results : List (MapResult K V))
    (final : GenericMap T K), (withCapacityAndHasher capacity hash : GenericMap T K).run fuel ops =
      some (results, final) →
    ∀ key ∉ final.iter.map Prod.fst, ∀ value, final.SameInsertion key value

theorem entriesInsertPlainly_of_laws {Refines : (K → UInt64) → T → PMap K V → Prop}
    (laws : ∀ hash, RawTableLaws hash (Refines hash) Holds Ready)
    (same : ∀ hash table map key value, Refines hash table map → map key = none →
      (⟨table, hash⟩ : GenericMap T K).SameInsertion key value) : EntriesInsertPlainly T := by
  intro hash capacity fuel ops results final returned key missing value
  obtain ⟨map, _, refines, builder⟩ :=
    run_refines (laws hash) ops _ PMap.empty results ((laws hash).withCapacity capacity) returned
  have absent : map key = none := by
    cases found : map key with
    | none => rfl
    | some stored =>
        have listed := (((laws hash).iter_enumerates refines).mem_iff key stored).mpr found
        exact absurd (List.mem_map_of_mem listed) missing
  cases final
  cases builder
  exact same _ _ map key value refines absent

end GenericMap

end Optimap.Map
