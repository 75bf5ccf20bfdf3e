import Optimap.Opti.Refinement
import Optimap.Overflow.Contract
import Optimap.Tomb.Contract

/-!
# The backends of the adaptive map

The six hash backends, each a `GenericMap` over its engine, and an ordered list
of entries standing in for the sorted backend.
-/

set_option autoImplicit false

namespace Optimap.Opti

open Lib Hash Map

variable {K V : Type} [DecidableEq K]

/-! ## Hash backends -/

/-- A hash map over an engine, as a backend. -/
def hashEngine (T : Type) [RawTableApi T K V] (hash : K → UInt64) : Engine K V where
  State := GenericMap T K
  withCapacity capacity := GenericMap.withCapacityAndHasher capacity hash
  len := GenericMap.len
  capacity := GenericMap.capacity
  step := GenericMap.stepCommon

section Hash
variable {T : Type} [RawTableApi T K V] {hash : K → UInt64} {Refines : T → PMap K V → Prop}
  {Holds : T → Slot → K → V → Prop} {Ready : T → Prop}

/-- The map uses the given hash and its table stands for the contents. -/
def HashRefines (hash : K → UInt64) (Refines : T → PMap K V → Prop) (map : GenericMap T K)
    (contents : PMap K V) : Prop :=
  map.hashBuilder = hash ∧ Refines map.table contents

theorem hashEngine_laws (laws : RawTableLaws hash Refines Holds Ready) :
    EngineLaws (hashEngine T hash) (HashRefines hash Refines) where
  withCapacity capacity := ⟨rfl, laws.withCapacity capacity⟩
  answers {_ state _ _ _ _} refines returned := by
    obtain ⟨table, _⟩ := state
    obtain ⟨rfl, tableRefines⟩ := refines
    obtain ⟨contents, answer, nextRefines, builder⟩ :=
      GenericMap.stepCommon_refines laws tableRefines returned
    exact ⟨contents, answer, builder, nextRefines⟩

theorem hashEngine_total (laws : RawTableLaws hash Refines Holds Ready)
    (total : RawTableTotal hash Refines) :
    EngineTotal (hashEngine T hash) (HashRefines hash Refines) := by
  rintro ⟨table, _⟩ contents ⟨rfl, tableRefines⟩ op
  exact GenericMap.stepCommon_total laws total tableRefines op

end Hash

/-! ## A list of entries -/

/-- Entries in a list, each key once. -/
def EntryList (K V : Type) := { entries : List (K × V) // (entries.map Prod.fst).Nodup }

namespace EntryList

def lookup (list : EntryList K V) : PMap K V :=
  fun key => (list.1.find? fun entry => entry.1 = key).map Prod.snd

def erase (list : EntryList K V) (key : K) : EntryList K V :=
  ⟨list.1.filter fun entry => entry.1 ≠ key, list.2.sublist (List.filter_sublist.map _)⟩

def insert (list : EntryList K V) (key : K) (value : V) : EntryList K V :=
  ⟨(key, value) :: (list.erase key).1, List.nodup_cons.mpr ⟨by simp [erase], (list.erase key).2⟩⟩

def retain (list : EntryList K V) (predicate : K → V → Bool × V) : EntryList K V :=
  ⟨(list.1.filter fun entry => (predicate entry.1 entry.2).1).map
      fun entry => (entry.1, (predicate entry.1 entry.2).2),
    by
      rw [List.map_map]
      exact list.2.sublist (List.filter_sublist.map _)⟩

def extend (list : EntryList K V) (entries : List (K × V)) : EntryList K V :=
  entries.foldl (fun current entry => current.insert entry.1 entry.2) list

def step (list : EntryList K V) : MapOp K V → MapResult K V × EntryList K V
  | .get key => (.value (list.lookup key), list)
  | .insert key value => (.value (list.lookup key), list.insert key value)
  | .remove key => (.value (list.lookup key), list.erase key)
  | .removeEntry key => (.entry ((list.lookup key).map fun value => (key, value)), list.erase key)
  | .entryInsert key value =>
      (.value (some ((list.lookup key).getD value)), list.insert key ((list.lookup key).getD value))
  | .tryInsert key value =>
      match list.lookup key with
      | some _ => (.tried (some (key, value)), list)
      | none => (.tried none, list.insert key value)
  | .extend entries => (.unit, list.extend entries)
  | .retain predicate => (.unit, list.retain predicate)
  | .clear => (.unit, ⟨[], .nil⟩)
  | .reserve _ | .shrinkToFit | .clone => (.unit, list)
  | .drain => (.entries list.1, ⟨[], .nil⟩)
  | .iter => (.entries list.1, list)
  | .len => (.count list.1.length, list)

def Refines (list : EntryList K V) (contents : PMap K V) : Prop := contents = list.lookup

theorem mem_iff_lookup (list : EntryList K V) (key : K) (value : V) :
    (key, value) ∈ list.1 ↔ list.lookup key = some value := by
  obtain ⟨entries, unique⟩ := list
  unfold lookup
  simp only
  induction entries with
  | nil => simp
  | cons entry entries ih =>
      obtain ⟨headFresh, restUnique⟩ := List.nodup_cons.mp unique
      rw [List.mem_cons, List.find?_cons]
      by_cases same : entry.1 = key
      · subst same
        have notLater : (entry.1, value) ∉ entries := fun member =>
          headFresh (List.mem_map.mpr ⟨_, member, rfl⟩)
        simp only [notLater, or_false, decide_true, Option.map_some, Option.some.injEq]
        constructor
        · intro equal
          rw [← equal]
        · rintro rfl
          rfl
      · have different : (key, value) ≠ entry := fun equal => same (congrArg Prod.fst equal).symm
        simp only [different, false_or, same, decide_false]
        exact ih restUnique

theorem enumerates (list : EntryList K V) : PMap.Enumerates list.1 list.lookup :=
  ⟨list.2, list.mem_iff_lookup⟩

/-- Two lists with the same entries look the same. -/
theorem lookup_eq {list : EntryList K V} {contents : PMap K V}
    (listed : ∀ key value, (key, value) ∈ list.1 ↔ contents key = some value) :
    list.lookup = contents :=
  list.enumerates.map_eq ⟨list.2, listed⟩

theorem lookup_erase (list : EntryList K V) (key : K) :
    (list.erase key).lookup = list.lookup.erase key := by
  refine lookup_eq fun other value => ?_
  simp only [erase, ne_eq, decide_not, List.mem_filter, Bool.not_eq_eq_eq_not, Bool.not_true,
    decide_eq_false_iff_not, mem_iff_lookup, PMap.erase]
  by_cases same : other = key <;> simp [same]

theorem lookup_insert (list : EntryList K V) (key : K) (value : V) :
    (list.insert key value).lookup = list.lookup.insert key value := by
  refine lookup_eq fun other otherValue => ?_
  rw [insert, List.mem_cons, mem_iff_lookup, lookup_erase]
  by_cases same : other = key
  · subst same
    simp [PMap.insert, PMap.erase, eq_comm]
  · simp [PMap.insert, PMap.erase, same]

theorem lookup_retain (list : EntryList K V) (predicate : K → V → Bool × V) :
    (list.retain predicate).lookup = list.lookup.retain predicate := by
  refine lookup_eq fun key value => ?_
  simp only [retain, List.mem_map, List.mem_filter, Prod.mk.injEq, PMap.retain,
    Option.bind_eq_some_iff, Option.ite_none_right_eq_some, Option.some.injEq]
  constructor
  · rintro ⟨⟨otherKey, old⟩, ⟨member, kept⟩, rfl, rfl⟩
    exact ⟨old, (list.mem_iff_lookup _ _).mp member, kept, rfl⟩
  · rintro ⟨old, found, kept, rfl⟩
    exact ⟨(key, old), ⟨(list.mem_iff_lookup _ _).mpr found, kept⟩, rfl, rfl⟩

theorem lookup_extend (entries : List (K × V)) :
    ∀ list : EntryList K V,
      (list.extend entries).lookup = list.lookup.insertAll entries := by
  induction entries with
  | nil => intro list; rfl
  | cons entry entries ih =>
      intro list
      rw [extend, List.foldl_cons, ← extend, ih, lookup_insert]
      rfl

theorem step_answers (list : EntryList K V) (op : MapOp K V) :
    Answers list.lookup op (list.step op).1 (list.step op).2.lookup := by
  cases op with
  | insert key value => exact ⟨rfl, list.lookup_insert key value⟩
  | remove key => exact ⟨rfl, list.lookup_erase key⟩
  | removeEntry key => exact ⟨rfl, list.lookup_erase key⟩
  | entryInsert key value => exact ⟨rfl, list.lookup_insert key _⟩
  | tryInsert key value =>
      simp only [Answers, step]
      cases found : list.lookup key with
      | some old => exact ⟨rfl, rfl⟩
      | none => exact ⟨rfl, list.lookup_insert key value⟩
  | extend entries => exact ⟨rfl, lookup_extend entries list⟩
  | retain predicate => exact ⟨rfl, list.lookup_retain predicate⟩
  | drain => exact ⟨⟨list.1, list.enumerates, rfl⟩, rfl⟩
  | iter => exact ⟨⟨list.1, list.enumerates, rfl⟩, rfl⟩
  | len => exact ⟨⟨list.1, list.enumerates, rfl⟩, rfl⟩
  | get | clear | reserve | shrinkToFit | clone => exact ⟨rfl, rfl⟩

end EntryList

def listEngine : Engine K V where
  State := EntryList K V
  withCapacity _ := ⟨[], .nil⟩
  len list := list.1.length
  capacity list := list.1.length
  step _ list op := some (list.step op)

theorem listEngine_laws : EngineLaws (listEngine : Engine K V) EntryList.Refines where
  withCapacity _ := rfl
  answers {_ state _ op result next} refines returned := by
    cases refines
    have pair : state.step op = (result, next) := Option.some.inj returned
    have answer := EntryList.step_answers state op
    rw [pair] at answer
    exact ⟨_, answer, rfl⟩

/-! ## The seven backends -/

section Backends
variable {sorted : Engine K V} {SortedRefines : sorted.State → PMap K V → Prop}

/-- `build_inner` for each type, over the sorted backend given. -/
def backends (sorted : Engine K V) (hash : K → UInt64) : MapType → Engine K V
  | .ufm => hashEngine (Overflow.RawTable (Overflow.ufmLayout .asm) AoS K V) hash
  | .splitsies => hashEngine (Overflow.RawTable (Overflow.splitsiesLayout .asm) AoS K V) hash
  | .ipo => hashEngine (Tomb.RawTable .inPlaceOverflow Tomb.highTomb AoS K V) hash
  | .tomb => hashEngine (Tomb.RawTable .inPlaceOverflow Tomb.highTag128 AoS K V) hash
  | .gaps => hashEngine (Overflow.RawTable (Overflow.gapsLayout .asm) AoS K V) hash
  | .ipo64 => hashEngine (Tomb.RawTable .ipo64 Tomb.lowTomb AoS K V) hash
  | .flatBTree => sorted

def BackendRefines (SortedRefines : sorted.State → PMap K V → Prop) (hash : K → UInt64) :
    ∀ mapType, (backends sorted hash mapType).State → PMap K V → Prop
  | .ufm | .splitsies | .gaps => HashRefines hash (Overflow.RawTable.Refines hash)
  | .ipo | .tomb | .ipo64 => HashRefines hash (Tomb.RawTable.Refines hash)
  | .flatBTree => SortedRefines

theorem backends_laws (sortedLaws : EngineLaws sorted SortedRefines) (hash : K → UInt64)
    (mapType : MapType) :
    EngineLaws (backends sorted hash mapType) (BackendRefines SortedRefines hash mapType) := by
  cases mapType with
  | ufm | splitsies | gaps => exact hashEngine_laws (Overflow.RawTable.rawTableLaws hash)
  | ipo | tomb | ipo64 => exact hashEngine_laws (Tomb.RawTable.rawTableLaws hash)
  | flatBTree => exact sortedLaws

end Backends

/-- A policy that moves from Splitsies through Tomb to Gaps as entries come in,
against a map pinned to Ipo. -/
theorem optimap_transitions_agree_with_ipo :
    ∃ results final otherResults otherFinal,
      (Construction.auto (((Policy.new.band 64 .gaps).band 0 .splitsies).band 20 .tomb) 0).build.run 4
        ([.extend ((List.range 60).map fun i => (UInt64.ofNat i, i)), .remove 7, .len, .iter]) =
        some (results, (final : OptiMap (backends (listEngine : Engine UInt64 Nat) id))) ∧
      final.mapType = .gaps ∧
      (Construction.pinned .ipo 0).build.run 4
        ([.extend ((List.range 60).map fun i => (UInt64.ofNat i, i)), .remove 7, .len, .iter]) =
        some (otherResults, (otherFinal : OptiMap (backends (listEngine : Engine UInt64 Nat) id))) ∧
      List.Forall₂ MapResult.SameUpToOrder results otherResults := by
  have moved : (((Construction.auto (((Policy.new.band 64 .gaps).band 0 .splitsies).band 20 .tomb)
      0).build.run 4 ([.extend ((List.range 60).map fun i => (UInt64.ofNat i, i)), .remove 7, .len,
        .iter]) : Option (_ × OptiMap (backends (listEngine : Engine UInt64 Nat) id))).map
      fun final => final.2.mapType) = some .gaps := by
    decide +kernel
  have pinned : (((Construction.pinned .ipo 0).build.run 4
      ([.extend ((List.range 60).map fun i => (UInt64.ofNat i, i)), .remove 7, .len, .iter]) :
      Option (_ × OptiMap (backends (listEngine : Engine UInt64 Nat) id)))).isSome = true := by
    decide +kernel
  obtain ⟨⟨results, final⟩, returned, same⟩ := Option.map_eq_some_iff.mp moved
  obtain ⟨⟨otherResults, otherFinal⟩, otherReturned⟩ := Option.isSome_iff_exists.mp pinned
  obtain ⟨_, _, _, _, agree⟩ := (optimap_run_independent_of_policy
    (backends_laws listEngine_laws id) _ _).2 _ _ _ returned
  exact ⟨results, final, otherResults, otherFinal, returned, same, otherReturned,
    (agree _ _ _ _ otherReturned).1⟩

end Optimap.Opti
