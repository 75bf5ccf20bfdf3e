import Optimap.Perfect.PerfectMap

/-!
# The dense map without stored keys

Only the values are kept, at the slot of the hash of their key. A lookup reads
that slot without a bounds check and compares nothing.
-/

set_option autoImplicit false
set_option linter.unusedSectionVars false

namespace Optimap.Perfect

open Lib Chd

/-- Values in slot order. -/
structure PerfectMapUnchecked (K V P : Type) where
  values : List V
  phf : P
  hashBuilder : K → UInt64

namespace PerfectMapUnchecked

section Operations
variable {K V P : Type}

def fromEntries (ops : PerfectHashFunction P) (entries : List (K × V)) (hashBuilder : K → UInt64) :
    Except Failure (PerfectMapUnchecked K V P) := do
  let n := entries.length
  let hashes := entries.map fun entry => hashBuilder entry.1
  let phf ← ops.build hashes n
  let placed ← faulting (placeAll (ops.index phf) ((entries.map Prod.snd).zip hashes) (List.replicate n none))
  let values ← faulting (expectFilled placed)
  return { values, phf, hashBuilder }

/-- The value at the slot of the key, whatever key was placed there. -/
def getUnchecked (ops : PerfectHashFunction P) (map : PerfectMapUnchecked K V P) (key : K) :
    Except Fault V := do
  let slot ← ops.index map.phf (map.hashBuilder key)
  match map.values[slot]? with
  | none => .error .invalidRead
  | some value => .ok value

def len (map : PerfectMapUnchecked K V P) : Nat := map.values.length

end Operations

section Placement
variable {K V : Type}

/-- Placing the values is placing the entries and keeping their values. -/
theorem placeAll_map {α β : Type} (index : UInt64 → Except Fault Nat) (f : α → β) (items : List (α × UInt64))
    (placed : List (Option α)) :
    placeAll index (items.map fun item => (f item.1, item.2)) (placed.map (Option.map f)) =
      (placeAll index items placed).map (List.map (Option.map f)) := by
  induction items generalizing placed with
  | nil => rfl
  | cons item items ih =>
      simp only [List.map_cons, placeAll]
      cases index item.2 with
      | error fault => rfl
      | ok slot =>
          simp only [bind, Except.bind, List.length_map]
          by_cases inside : slot < placed.length
          · rw [if_pos inside, if_pos inside, ← ih, List.map_set]
            rfl
          · rw [if_neg inside, if_neg inside]
            rfl

theorem expectFilled_map_some {α : Type} (slots : List α) : expectFilled (slots.map some) = .ok slots := by
  induction slots with
  | nil => rfl
  | cons slot slots ih => simp [expectFilled, ih, Except.map]

end Placement

section Lookups
variable {K V P : Type} {ops : PerfectHashFunction P} {hash : K → UInt64} {entries : List (K × V)}
  {map : PerfectMapUnchecked K V P}

/-- The values are those of the dense table of entries. -/
theorem fromEntries_table (lawful : Lawful ops) (built : fromEntries ops entries hash = .ok map) :
    ∃ slots : List (K × V), map.values = slots.map Prod.snd ∧ map.hashBuilder = hash ∧
      ops.build (entries.map fun entry => hash entry.1) entries.length = .ok map.phf ∧
      Table ops map.phf (fun entry => hash entry.1) entries (slots.map some) := by
  cases phfBuilt : ops.build (entries.map fun entry => hash entry.1) entries.length with
  | error failure => simp [fromEntries, phfBuilt, bind, Except.bind] at built
  | ok phf =>
      obtain ⟨cells, placed, table, filled⟩ := table_of_built lawful phfBuilt fun none => by rw [none]; rfl
      obtain ⟨slots, _, rfl⟩ := filled rfl
      have values : placeAll (ops.index phf)
          ((entries.map Prod.snd).zip (entries.map fun entry => hash entry.1))
          (List.replicate entries.length none) = .ok ((slots.map Prod.snd).map some) := by
        have mapped := placeAll_map (ops.index phf) Prod.snd
          (entries.zip (entries.map fun entry => hash entry.1)) (List.replicate entries.length none)
        rw [placed, List.map_replicate] at mapped
        have zipped : (entries.zip (entries.map fun entry => hash entry.1)).map
            (fun item => (item.1.2, item.2)) =
            (entries.map Prod.snd).zip (entries.map fun entry => hash entry.1) := by
          rw [List.zip_map_left]
          rfl
        rw [zipped] at mapped
        rw [show (none : Option V) = Option.map Prod.snd (none : Option (K × V)) from rfl, mapped]
        simp [Except.map]
      simp only [fromEntries, phfBuilt, values, expectFilled_map_some, faulting, bind, Except.bind,
        Except.mapError, pure, Except.pure, Except.ok.injEq] at built
      subst built
      exact ⟨slots, rfl, rfl, rfl, table⟩

/-- With an entry in it, every slot that a hash leads to holds a value, and the
slot of a member holds its own. -/
theorem reads_of_table {slots : List (K × V)} (kept : map.values = slots.map Prod.snd)
    (hashes : map.hashBuilder = hash)
    (table : Table ops map.phf (fun entry => hash entry.1) entries (slots.map some))
    (nonempty : entries ≠ []) (key : K) :
    ∃ slot value, ops.index map.phf (hash key) = .ok slot ∧ slot < map.values.length ∧
      map.getUnchecked ops key = .ok value ∧ ∀ own, (key, own) ∈ entries → value = own := by
  obtain ⟨position, entry, index, found, _, matching⟩ := table.read_dense nonempty (hash key)
  have read : map.values[position]? = some entry.2 := by rw [kept, List.getElem?_map, found, Option.map_some]
  refine ⟨position, entry.2, index, (List.getElem?_eq_some_iff.mp read).1, ?_, fun own member => ?_⟩
  · simp [getUnchecked, hashes, index, read, bind, Except.bind]
  · rw [matching (key, own) member rfl]

end Lookups

/-- The unchecked read stays inside of the value array, and answers members with
their own value, unless the map was built from no entries. -/
theorem get_unchecked_in_range_iff {K V : Type} (sorter : UnstableSort) {entries : List (K × V)}
    {hash : K → UInt64} {map : PerfectMapUnchecked K V ChdPhf}
    (built : fromEntries (chd sorter) entries hash = .ok map) (key : K) :
    ((∃ slot, map.phf.index (hash key) = .ok slot ∧ slot < map.values.length) ∧
      ∀ value, (key, value) ∈ entries → map.getUnchecked (chd sorter) key = .ok value) ↔ entries ≠ [] := by
  obtain ⟨slots, kept, hashes, _, table⟩ := fromEntries_table (chd_lawful sorter) built
  constructor
  · rintro ⟨⟨slot, _, inside⟩, _⟩ empty
    subst empty
    have noSlots : slots = [] := List.perm_nil.mp table.dense_perm
    rw [kept, noSlots] at inside
    exact absurd inside (Nat.not_lt_zero slot)
  · intro nonempty
    obtain ⟨slot, value, index, inside, read, own⟩ := reads_of_table kept hashes table nonempty key
    exact ⟨⟨slot, index, inside⟩, fun other member => own other member ▸ read⟩

/-- A map of no entries reads the first slot of an empty array. -/
theorem empty_map_read_out_of_range :
    ∃ map : PerfectMapUnchecked UInt64 Nat ChdPhf, fromEntries (chd insertionSorter) [] id = .ok map ∧
      map.phf.index 7 = .ok 0 ∧ ¬ 0 < map.values.length ∧
      map.getUnchecked (chd insertionSorter) 7 = .error .invalidRead :=
  ⟨_, rfl, rfl, by decide, rfl⟩

/-- A stranger to a map of two entries reads one of its slots. -/
theorem two_entries_read_in_range :
    ∃ map, fromEntries (chd insertionSorter) [((1 : UInt64), 10), (2, 20)] id = .ok map ∧
      ∃ slot, map.phf.index 99 = .ok slot ∧ slot < map.values.length := by
  have built : (fromEntries (chd insertionSorter) [((1 : UInt64), 10), (2, 20)] id).isOk = true := by
    decide +kernel
  cases returned : fromEntries (chd insertionSorter) [((1 : UInt64), 10), (2, 20)] id with
  | error failure =>
      rw [returned] at built
      cases built
  | ok map => exact ⟨map, rfl, ((get_unchecked_in_range_iff insertionSorter returned 99).mpr (by simp)).1⟩

end PerfectMapUnchecked

end Optimap.Perfect
