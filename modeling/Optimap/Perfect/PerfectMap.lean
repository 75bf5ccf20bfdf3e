import Optimap.Lib.Placement
import Optimap.Perfect.ChdProperties

/-!
# Maps and sets over a perfect hash function

Dense and sparse tables place every entry at the slot of its hash. A lookup
compares the one key it finds there.
-/

set_option autoImplicit false
set_option linter.unusedSectionVars false

namespace Optimap.Perfect

open Lib Chd

/-- Write each item to the slot of its hash. -/
def placeAll {α : Type} (index : UInt64 → Except Fault Nat) :
    List (α × UInt64) → List (Option α) → Except Fault (List (Option α))
  | [], placed => .ok placed
  | (item, h) :: items, placed => do
      let slot ← index h
      if slot < placed.length then placeAll index items (placed.set slot (some item))
      else .error .indexOutOfBounds

/-- `expect("minimal PHF must fill every slot")` on every slot. -/
def expectFilled {α : Type} : List (Option α) → Except Fault (List α)
  | [] => .ok []
  | none :: _ => .error .slotNotFilled
  | some item :: placed => (expectFilled placed).map (item :: ·)

/-- A fault of the construction stops it as well. -/
def faulting {α : Type} (result : Except Fault α) : Except Failure α := result.mapError .fault

/-- Dense table: every slot holds one entry. -/
structure PerfectMap (K V P : Type) where
  slots : List (K × V)
  phf : P
  hashBuilder : K → UInt64

/-- Sparse table: slack slots stay empty. -/
structure PerfectMapSparse (K V P : Type) where
  slots : List (Option (K × V))
  phf : P
  hashBuilder : K → UInt64
  len : Nat

structure PerfectSet (K P : Type) where
  slots : List K
  phf : P
  hashBuilder : K → UInt64

/-- The load factor, by what it makes of a key count: `scaled n` is the `f64`
product `n * load_factor`, rounded up. -/
structure PerfectMapConfig where
  scaled : Nat → Nat

def PerfectMapConfig.tableSize (config : PerfectMapConfig) (n : Nat) : Nat :=
  if n = 0 then 0 else config.scaled n

section Operations
variable {K V P : Type} [DecidableEq K]

namespace PerfectMap

def fromEntries (ops : PerfectHashFunction P) (entries : List (K × V)) (hashBuilder : K → UInt64) :
    Except Failure (PerfectMap K V P) := do
  let n := entries.length
  let hashes := entries.map fun entry => hashBuilder entry.1
  let phf ← ops.build hashes n
  let placed ← faulting (placeAll (ops.index phf) (entries.zip hashes) (List.replicate n none))
  let slots ← faulting (expectFilled placed)
  return { slots, phf, hashBuilder }

def get (ops : PerfectHashFunction P) (map : PerfectMap K V P) (key : K) : Except Fault (Option V) :=
  if map.slots.isEmpty then .ok none
  else do
    let slot ← ops.index map.phf (map.hashBuilder key)
    match map.slots[slot]? with
    | none => .error .invalidRead
    | some (k, v) => .ok (if k = key then some v else none)

def len (map : PerfectMap K V P) : Nat := map.slots.length

def iter (map : PerfectMap K V P) : List (K × V) := map.slots

end PerfectMap

namespace PerfectMapSparse

def fromEntriesWith (ops : PerfectHashFunction P) (entries : List (K × V)) (hashBuilder : K → UInt64)
    (config : PerfectMapConfig) : Except Failure (PerfectMapSparse K V P) := do
  let n := entries.length
  let m := config.tableSize n
  let hashes := entries.map fun entry => hashBuilder entry.1
  let phf ← ops.build hashes m
  let slots ← faulting (placeAll (ops.index phf) (entries.zip hashes) (List.replicate m none))
  return { slots, phf, hashBuilder, len := n }

def get (ops : PerfectHashFunction P) (map : PerfectMapSparse K V P) (key : K) :
    Except Fault (Option V) :=
  if map.slots.isEmpty then .ok none
  else do
    let slot ← ops.index map.phf (map.hashBuilder key)
    match map.slots[slot]? with
    | some (some (k, v)) => .ok (if k = key then some v else none)
    | _ => .ok none

def iter (map : PerfectMapSparse K V P) : List (K × V) := map.slots.filterMap id

end PerfectMapSparse

namespace PerfectSet

def fromKeys (ops : PerfectHashFunction P) (keys : List K) (hashBuilder : K → UInt64) :
    Except Failure (PerfectSet K P) := do
  let n := keys.length
  let hashes := keys.map hashBuilder
  let phf ← ops.build hashes n
  let placed ← faulting (placeAll (ops.index phf) (keys.zip hashes) (List.replicate n none))
  let slots ← faulting (expectFilled placed)
  return { slots, phf, hashBuilder }

def contains (ops : PerfectHashFunction P) (set : PerfectSet K P) (key : K) : Except Fault Bool :=
  if set.slots.isEmpty then .ok false
  else do
    let slot ← ops.index set.phf (set.hashBuilder key)
    match set.slots[slot]? with
    | none => .error .invalidRead
    | some stored => .ok (stored == key)

def get (ops : PerfectHashFunction P) (set : PerfectSet K P) (key : K) : Except Fault (Option K) :=
  if set.slots.isEmpty then .ok none
  else do
    let slot ← ops.index set.phf (set.hashBuilder key)
    match set.slots[slot]? with
    | none => .error .invalidRead
    | some stored => .ok (if stored = key then some stored else none)

def len (set : PerfectSet K P) : Nat := set.slots.length

def iter (set : PerfectSet K P) : List K := set.slots

end PerfectSet

end Operations

/-- A read-only map answers as the list of entries it was built from. -/
structure ExactMap {K V : Type} (entries : List (K × V)) (get : K → Except Fault (Option V))
    (iter : List (K × V)) (len : Nat) : Prop where
  distinct : (entries.map Prod.fst).Nodup
  get_returns : ∀ key, ∃ answer, get key = .ok answer
  get_iff : ∀ key value, get key = .ok (some value) ↔ (key, value) ∈ entries
  iter_perm : iter.Perm entries
  len_eq : len = entries.length

/-- The same for a set and its keys. -/
structure ExactSet {K : Type} (keys : List K) (contains : K → Except Fault Bool)
    (get : K → Except Fault (Option K)) (iter : List K) (len : Nat) : Prop where
  distinct : keys.Nodup
  contains_iff : ∀ key, ∃ answer, contains key = .ok answer ∧ (answer = true ↔ key ∈ keys)
  get_iff : ∀ key stored, get key = .ok (some stored) ↔ stored = key ∧ key ∈ keys
  get_returns : ∀ key, ∃ answer, get key = .ok answer
  iter_perm : iter.Perm keys
  len_eq : len = keys.length

theorem ExactMap.of_answers {K V : Type} {entries iter : List (K × V)} {get : K → Except Fault (Option V)} {len : Nat}
    (distinct : (entries.map Prod.fst).Nodup)
    (answers : ∀ key, ∃ answer, get key = .ok answer ∧ ∀ value, answer = some value ↔ (key, value) ∈ entries)
    (same : iter.Perm entries) (counted : len = entries.length) : ExactMap entries get iter len := by
  refine ⟨distinct, fun key => ?_, fun key value => ?_, same, counted⟩
  · obtain ⟨answer, returned, _⟩ := answers key
    exact ⟨answer, returned⟩
  · obtain ⟨answer, returned, iff⟩ := answers key
    rw [returned, Except.ok.injEq]
    exact iff value

/-- A set whose `contains` asks its `get`. -/
theorem ExactSet.of_answers {K : Type} {keys iter : List K} {contains : K → Except Fault Bool}
    {get : K → Except Fault (Option K)} {len : Nat} (distinct : keys.Nodup)
    (answers : ∀ key, ∃ answer, get key = .ok answer ∧ ∀ stored, answer = some stored ↔ stored = key ∧ key ∈ keys)
    (asks : ∀ key, contains key = (get key).map Option.isSome) (same : iter.Perm keys)
    (counted : len = keys.length) : ExactSet keys contains get iter len := by
  refine ⟨distinct, fun key => ?_, fun key stored => ?_, fun key => ?_, same, counted⟩
  · obtain ⟨answer, returned, iff⟩ := answers key
    refine ⟨answer.isSome, by rw [asks, returned]; rfl, ?_⟩
    rw [Option.isSome_iff_exists]
    simp only [iff, exists_eq_left]
  · obtain ⟨answer, returned, iff⟩ := answers key
    rw [returned, Except.ok.injEq]
    exact iff stored
  · obtain ⟨answer, returned, _⟩ := answers key
    exact ⟨answer, returned⟩

/-- The contract of the trait: a function built over some hashes is defined
everywhere, stays inside the table and is injective on the hashes. -/
def Lawful {P : Type} (ops : PerfectHashFunction P) : Prop :=
  ∀ ⦃hashes : List UInt64⦄ ⦃m : Nat⦄ ⦃phf : P⦄, ops.build hashes m = .ok phf → hashes ≠ [] →
    hashes.length ≤ m ∧ hashes.Nodup ∧
      ∃ slot : UInt64 → Nat, (∀ hash, ops.index phf hash = .ok (slot hash)) ∧ (∀ hash, slot hash < m) ∧
        Set.InjOn slot {hash | hash ∈ hashes}

theorem chd_lawful (sorter : UnstableSort) : Lawful (chd sorter) := fun _ _ _ built nonempty =>
  build_spec built nonempty

section Cells
variable {α : Type} {index : UInt64 → Except Fault Nat} {slot : UInt64 → Nat} {m : Nat}
  {items : List α} {f : α → UInt64}

theorem zip_map_self (items : List α) (f : α → UInt64) :
    items.zip (items.map f) = items.map fun item => (item, f item) := by
  induction items with
  | nil => rfl
  | cons item items ih => simp [ih]

theorem placeAll_eq (returns : ∀ h, index h = .ok (slot h)) (below : ∀ h, slot h < m)
    (items : List (α × UInt64)) (placed : List (Option α)) (length : placed.length = m) :
    placeAll index items placed =
      .ok ((listMemory (Option α)).writeAll placed (items.map fun item => (slot item.2, some item.1))) := by
  induction items generalizing placed with
  | nil => rfl
  | cons item items ih =>
      obtain ⟨item, h⟩ := item
      simp only [placeAll, returns, bind, Except.bind]
      rw [if_pos (by rw [length]; exact below h), ih _ (by rw [List.length_set, length])]
      rfl

/-- After the placement, the slot of each item holds it, and no other slot does. -/
theorem placeAll_cells (returns : ∀ h, index h = .ok (slot h)) (below : ∀ h, slot h < m)
    (nodup : (items.map f).Nodup) (injective : Set.InjOn slot {h | h ∈ items.map f}) :
    ∃ placed, placeAll index (items.zip (items.map f)) (List.replicate m none) = .ok placed ∧
      placed.length = m ∧
      ∀ position item, placed[position]? = some (some item) ↔ item ∈ items ∧ slot (f item) = position := by
  have lengths : ∀ (writes : List (Nat × Option α)) (cells : List (Option α)),
      ((listMemory (Option α)).writeAll cells writes).length = cells.length := by
    intro writes
    induction writes with
    | nil => intro cells; rfl
    | cons entry writes ih =>
        intro cells
        have step := ih (cells.set entry.1 entry.2)
        rw [List.length_set] at step
        exact step
  refine ⟨_, placeAll_eq returns below _ _ List.length_replicate, ?_, ?_⟩
  · rw [lengths, List.length_replicate]
  · intro position item
    have writesEq : (items.zip (items.map f)).map (fun item => (slot item.2, some item.1)) =
        items.map fun item => (slot (f item), some item) := by
      rw [zip_map_self, List.map_map]
      rfl
    have positions : ((items.map fun item => (slot (f item), some item)).map Prod.fst).Nodup := by
      rw [List.map_map]
      have slots : (items.map f).map slot = items.map (Prod.fst ∘ fun item => (slot (f item), some item)) := by
        rw [List.map_map]
        rfl
      rw [← slots]
      exact nodup.map_on fun first inside second inside' same => injective inside inside' same
    have read := (listMemory (Option α)).read_writeAll (List.replicate m none) positions ?_ position (some item)
    · rw [writesEq]
      refine Iff.trans read ?_
      constructor
      · rintro (member | ⟨initial, _⟩)
        · obtain ⟨other, inside, same⟩ := List.mem_map.mp member
          rw [Prod.mk.injEq, Option.some.injEq] at same
          obtain ⟨rfl, rfl⟩ := same
          exact ⟨inside, rfl⟩
        · have none := List.eq_of_mem_replicate (List.mem_of_getElem? (show _[_]? = _ from initial))
          cases none
      · rintro ⟨inside, rfl⟩
        exact .inl (List.mem_map.mpr ⟨item, inside, rfl⟩)
    · intro entry member
      obtain ⟨other, _, rfl⟩ := List.mem_map.mp member
      simp [listMemory, below]

/-- Where the cells hold the items at their slots, listing the cells lists the items. -/
theorem cells_perm {placed : List (Option α)} (nodup : (items.map f).Nodup)
    (cells : ∀ position item, placed[position]? = some (some item) ↔
      item ∈ items ∧ slot (f item) = position) : (placed.filterMap id).Perm items := by
  rw [List.perm_ext_iff_of_nodup _ (List.Nodup.of_map f nodup)]
  · intro item
    simp only [List.mem_filterMap, id_eq, exists_eq_right]
    constructor
    · intro member
      obtain ⟨position, bound, found⟩ := List.getElem_of_mem member
      exact ((cells position item).mp (List.getElem?_eq_some_iff.mpr ⟨bound, found⟩)).1
    · intro member
      exact List.mem_of_getElem? ((cells _ item).mpr ⟨member, rfl⟩)
  · rw [List.Nodup, List.pairwise_filterMap, List.pairwise_iff_getElem]
    intro first second firstBound secondBound before item firstRead other secondRead same
    have firstCell := (cells first item).mp (List.getElem?_eq_some_iff.mpr ⟨firstBound, firstRead⟩)
    have secondCell := (cells second other).mp (List.getElem?_eq_some_iff.mpr ⟨secondBound, secondRead⟩)
    rw [same] at firstCell
    exact absurd (firstCell.2.symm.trans secondCell.2) (Nat.ne_of_lt before)

theorem expectFilled_ok {placed : List (Option α)} (filled : none ∉ placed) :
    ∃ slots, expectFilled placed = .ok slots ∧ placed = slots.map some := by
  induction placed with
  | nil => exact ⟨[], rfl, rfl⟩
  | cons cell placed ih =>
      cases cell with
      | none => exact absurd List.mem_cons_self filled
      | some item =>
          obtain ⟨slots, returned, same⟩ := ih fun member => filled (List.mem_cons_of_mem _ member)
          exact ⟨item :: slots, by simp [expectFilled, returned, Except.map], by simp [same]⟩

/-- As many slots as items: none stays empty. -/
theorem expectFilled_placed {placed : List (Option α)} (nodup : (items.map f).Nodup)
    (injective : Set.InjOn slot {h | h ∈ items.map f}) (below : ∀ h, slot h < items.length)
    (length : placed.length = items.length)
    (cells : ∀ position item, placed[position]? = some (some item) ↔
      item ∈ items ∧ slot (f item) = position) :
    ∃ slots, expectFilled placed = .ok slots ∧ placed = slots.map some := by
  apply expectFilled_ok
  intro empty
  obtain ⟨position, bound, read⟩ := List.getElem_of_mem empty
  have onto := (bijOn_of_full nodup injective fun h _ => by
    rw [List.length_map]
    exact below h).surjOn
  obtain ⟨h, member, same⟩ := onto (show position < (items.map f).length by
    rw [List.length_map, ← length]
    exact bound)
  obtain ⟨item, inside, rfl⟩ := List.mem_map.mp member
  have held := (cells position item).mpr ⟨inside, same⟩
  rw [List.getElem?_eq_getElem bound, read] at held
  cases held

end Cells

section Tables
variable {α P : Type} {ops : PerfectHashFunction P} {phf : P} {items : List α} {f : α → UInt64}

/-- What a table built over the hashes of `items` reads: for each hash one cell,
which holds the item of that hash if there is one. -/
structure Table (ops : PerfectHashFunction P) (phf : P) (f : α → UInt64) (items : List α)
    (cells : List (Option α)) : Prop where
  nodup : (items.map f).Nodup
  perm : (cells.filterMap id).Perm items
  empty_iff : cells = [] ↔ items = []
  read : items ≠ [] → ∀ h, ∃ position cell, ops.index phf h = .ok position ∧
    cells[position]? = some cell ∧ (∀ item, cell = some item → item ∈ items) ∧
    ∀ item ∈ items, f item = h → cell = some item

theorem table_of_built {m : Nat} (lawful : Lawful ops) (built : ops.build (items.map f) m = .ok phf)
    (noSlots : items = [] → m = 0) :
    ∃ cells, placeAll (ops.index phf) (items.zip (items.map f)) (List.replicate m none) = .ok cells ∧
      Table ops phf f items cells ∧
      (m = items.length → ∃ slots, expectFilled cells = .ok slots ∧ cells = slots.map some) := by
  by_cases none : items = []
  · subst none
    rw [noSlots rfl]
    exact ⟨[], rfl, ⟨List.nodup_nil, .nil, by simp, by simp⟩, fun _ => ⟨[], rfl, rfl⟩⟩
  · obtain ⟨large, nodup, slot, returns, below, injective⟩ := lawful built (by simpa using none)
    rw [List.length_map] at large
    obtain ⟨cells, placed, length, read⟩ := placeAll_cells returns below nodup injective
    refine ⟨cells, placed, ⟨nodup, cells_perm nodup read, ?_, fun _ h => ?_⟩, fun minimal => ?_⟩
    · have some : 0 < items.length := List.length_pos_iff.mpr none
      refine ⟨fun empty => absurd (congrArg List.length empty) ?_, fun empty => absurd empty none⟩
      rw [length, List.length_nil]
      omega
    · have inside : slot h < cells.length := length ▸ below h
      refine ⟨slot h, cells[slot h], returns h, List.getElem?_eq_getElem inside, fun item held => ?_,
        fun item member same => ?_⟩
      · exact ((read (slot h) item).mp (List.getElem?_eq_some_iff.mpr ⟨inside, held⟩)).1
      · have held := (read (slot h) item).mpr ⟨member, by rw [same]⟩
        rw [List.getElem?_eq_getElem inside, Option.some.injEq] at held
        exact held
    · subst minimal
      exact expectFilled_placed nodup injective below length read

/-- The cell of a dense table. -/
theorem Table.read_dense {slots : List α} (table : Table ops phf f items (slots.map some))
    (nonempty : items ≠ []) (h : UInt64) :
    ∃ position item, ops.index phf h = .ok position ∧ slots[position]? = some item ∧ item ∈ items ∧
      ∀ other ∈ items, f other = h → item = other := by
  obtain ⟨position, cell, index, found, inside, matching⟩ := table.read nonempty h
  rw [List.getElem?_map, Option.map_eq_some_iff] at found
  obtain ⟨item, foundItem, rfl⟩ := found
  refine ⟨position, item, index, foundItem, inside item rfl, fun other member same => ?_⟩
  exact Option.some.inj (matching other member same)

theorem Table.dense_perm {slots : List α} (table : Table ops phf f items (slots.map some)) :
    slots.Perm items := by
  have same := table.perm
  rwa [List.filterMap_map, show id ∘ (some : α → Option α) = some from rfl, List.filterMap_some] at same

end Tables

section Maps
variable {K V P : Type} [DecidableEq K] {ops : PerfectHashFunction P} {hash : K → UInt64}
  {entries : List (K × V)}

theorem keys_nodup (nodup : (entries.map fun entry => hash entry.1).Nodup) :
    (entries.map Prod.fst).Nodup := by
  have hashes : entries.map (fun entry => hash entry.1) = (entries.map Prod.fst).map hash := by
    rw [List.map_map]
    rfl
  rw [hashes] at nodup
  exact List.Nodup.of_map hash nodup

/-- The comparison with the one entry of the cell decides the lookup. -/
theorem compare_iff {cell : Option (K × V)} {key : K} (inside : ∀ entry, cell = some entry → entry ∈ entries)
    (matching : ∀ entry ∈ entries, hash entry.1 = hash key → cell = some entry) (value : V) :
    (cell.bind fun entry => if entry.1 = key then some entry.2 else none) = some value ↔
      (key, value) ∈ entries := by
  constructor
  · intro answer
    obtain ⟨⟨k, v⟩, rfl, compared⟩ := Option.bind_eq_some_iff.mp answer
    split at compared
    · rename_i equal
      cases equal
      cases compared
      exact inside _ rfl
    · cases compared
  · intro member
    rw [matching _ member rfl]
    exact if_pos rfl

/-- A dense construction can only fail in the construction of its hash function. -/
theorem PerfectMap.fromEntries_cases (lawful : Lawful ops) (entries : List (K × V)) (hash : K → UInt64) :
    (∃ failure, ops.build (entries.map fun entry => hash entry.1) entries.length = .error failure ∧
      PerfectMap.fromEntries ops entries hash = .error failure) ∨
    ∃ phf slots, PerfectMap.fromEntries ops entries hash = .ok ⟨slots, phf, hash⟩ ∧
      Table ops phf (fun entry => hash entry.1) entries (slots.map some) := by
  cases built : ops.build (entries.map fun entry => hash entry.1) entries.length with
  | error failure =>
      refine .inl ⟨failure, rfl, ?_⟩
      simp [PerfectMap.fromEntries, built, bind, Except.bind]
  | ok phf =>
      obtain ⟨cells, placed, table, filled⟩ := table_of_built lawful built fun none => by rw [none]; rfl
      obtain ⟨slots, expected, rfl⟩ := filled rfl
      refine .inr ⟨phf, slots, ?_, table⟩
      simp [PerfectMap.fromEntries, built, placed, expected, faulting, bind, Except.bind, Except.mapError,
        pure, Except.pure]

theorem PerfectMap.exact (lawful : Lawful ops) {map : PerfectMap K V P}
    (built : PerfectMap.fromEntries ops entries hash = .ok map) :
    ExactMap entries (map.get ops) map.iter map.len := by
  rcases PerfectMap.fromEntries_cases lawful entries hash with
    ⟨failure, _, failed⟩ | ⟨phf, slots, returned, table⟩
  · rw [failed] at built
    cases built
  · rw [returned] at built
    cases built
    have same := table.dense_perm
    have answers : ∀ key, ∃ answer, PerfectMap.get ops ⟨slots, phf, hash⟩ key = .ok answer ∧
        ∀ value, answer = some value ↔ (key, value) ∈ entries := by
      intro key
      by_cases nonempty : entries = []
      · subst nonempty
        obtain rfl := List.perm_nil.mp same
        exact ⟨none, rfl, by simp⟩
      · obtain ⟨position, entry, index, found, inside, matching⟩ := table.read_dense nonempty (hash key)
        have someSlot : slots.isEmpty = false := by
          rw [List.isEmpty_eq_false_iff]
          rintro rfl
          exact nonempty (List.nil_perm.mp same)
        refine ⟨if entry.1 = key then some entry.2 else none, ?_, fun value => ?_⟩
        · simp [PerfectMap.get, someSlot, index, found, bind, Except.bind]
        · have held : ∀ other, some entry = some other → other ∈ entries := by
            rintro other ⟨⟩
            exact inside
          exact compare_iff held (fun other member equal => congrArg some (matching other member equal)) value
    exact .of_answers (keys_nodup table.nodup) answers same same.length_eq

theorem PerfectMapSparse.exact (lawful : Lawful ops) {config : PerfectMapConfig}
    {map : PerfectMapSparse K V P}
    (built : PerfectMapSparse.fromEntriesWith ops entries hash config = .ok map) :
    ExactMap entries (map.get ops) map.iter map.len := by
  cases phfBuilt : ops.build (entries.map fun entry => hash entry.1) (config.tableSize entries.length) with
  | error failure => simp [PerfectMapSparse.fromEntriesWith, phfBuilt, bind, Except.bind] at built
  | ok phf =>
      have noSlots : entries = [] → config.tableSize entries.length = 0 := by
        rintro rfl
        rfl
      obtain ⟨cells, placed, table, _⟩ := table_of_built lawful phfBuilt noSlots
      simp only [PerfectMapSparse.fromEntriesWith, phfBuilt, placed, faulting, bind, Except.bind,
        Except.mapError, pure, Except.pure, Except.ok.injEq] at built
      subst built
      have answers : ∀ key, ∃ answer,
          PerfectMapSparse.get ops ⟨cells, phf, hash, entries.length⟩ key = .ok answer ∧
          ∀ value, answer = some value ↔ (key, value) ∈ entries := by
        intro key
        by_cases nonempty : entries = []
        · obtain rfl := table.empty_iff.mpr nonempty
          exact ⟨none, rfl, by simp [nonempty]⟩
        · obtain ⟨position, cell, index, found, inside, matching⟩ := table.read nonempty (hash key)
          have someCell : cells.isEmpty = false := by
            rw [List.isEmpty_eq_false_iff]
            exact fun empty => nonempty (table.empty_iff.mp empty)
          refine ⟨cell.bind fun entry => if entry.1 = key then some entry.2 else none, ?_,
            compare_iff inside matching⟩
          cases cell with
          | none => simp [PerfectMapSparse.get, someCell, index, found, bind, Except.bind]
          | some entry => simp [PerfectMapSparse.get, someCell, index, found, bind, Except.bind]
      exact .of_answers (keys_nodup table.nodup) answers table.perm rfl

end Maps

section Sets
variable {K P : Type} [DecidableEq K] {ops : PerfectHashFunction P}

theorem PerfectSet.fromKeys_cases (lawful : Lawful ops) (keys : List K) (hash : K → UInt64) :
    (∃ failure, ops.build (keys.map hash) keys.length = .error failure ∧
      PerfectSet.fromKeys ops keys hash = .error failure) ∨
    ∃ phf slots, PerfectSet.fromKeys ops keys hash = .ok ⟨slots, phf, hash⟩ ∧
      Table ops phf hash keys (slots.map some) := by
  cases built : ops.build (keys.map hash) keys.length with
  | error failure =>
      refine .inl ⟨failure, rfl, ?_⟩
      simp [PerfectSet.fromKeys, built, bind, Except.bind]
  | ok phf =>
      obtain ⟨cells, placed, table, filled⟩ := table_of_built lawful built fun none => by rw [none]; rfl
      obtain ⟨slots, expected, rfl⟩ := filled rfl
      refine .inr ⟨phf, slots, ?_, table⟩
      simp [PerfectSet.fromKeys, built, placed, expected, faulting, bind, Except.bind, Except.mapError,
        pure, Except.pure]

theorem PerfectSet.exact (lawful : Lawful ops) {keys : List K} {hash : K → UInt64} {set : PerfectSet K P}
    (built : PerfectSet.fromKeys ops keys hash = .ok set) :
    ExactSet keys (set.contains ops) (set.get ops) set.iter set.len := by
  rcases PerfectSet.fromKeys_cases lawful keys hash with ⟨failure, _, failed⟩ | ⟨phf, slots, returned, table⟩
  · rw [failed] at built
    cases built
  · rw [returned] at built
    cases built
    have same := table.dense_perm
    -- Both lookups compare the key of one slot, which holds the query if any slot does.
    have answers : ∀ key, ∃ answer : Bool, (answer = true ↔ key ∈ keys) ∧
        PerfectSet.contains ops ⟨slots, phf, hash⟩ key = .ok answer ∧
        PerfectSet.get ops ⟨slots, phf, hash⟩ key = .ok (if answer then some key else none) := by
      intro key
      by_cases nonempty : keys = []
      · subst nonempty
        obtain rfl := List.perm_nil.mp same
        exact ⟨false, by simp, rfl, rfl⟩
      · obtain ⟨position, stored, index, found, inside, matching⟩ := table.read_dense nonempty (hash key)
        have someSlot : slots.isEmpty = false := by
          rw [List.isEmpty_eq_false_iff]
          rintro rfl
          exact nonempty (List.nil_perm.mp same)
        refine ⟨stored == key, ?_, ?_, ?_⟩
        · rw [beq_iff_eq]
          constructor
          · rintro rfl
            exact inside
          · intro member
            exact matching key member rfl
        · simp [PerfectSet.contains, someSlot, index, found, bind, Except.bind]
        · by_cases equal : stored = key
          · subst equal
            simp [PerfectSet.get, someSlot, index, found, bind, Except.bind]
          · simp [PerfectSet.get, someSlot, index, found, bind, Except.bind, equal]
    refine ⟨List.Nodup.of_map hash table.nodup, fun key => ?_, fun key stored => ?_, fun key => ?_, same,
      same.length_eq⟩
    · obtain ⟨answer, iff, contained, _⟩ := answers key
      exact ⟨answer, contained, iff⟩
    · obtain ⟨answer, iff, _, read⟩ := answers key
      rw [read, Except.ok.injEq, ← iff]
      cases answer with
      | true => simp [eq_comm]
      | false => simp
    · obtain ⟨answer, _, _, read⟩ := answers key
      exact ⟨_, read⟩

end Sets

/-- The construction of the hash function never leaves a slot unfilled behind. -/
theorem build_ne_slotNotFilled (sorter : UnstableSort) (hashes : List UInt64) (m : Nat) :
    ChdPhf.build sorter hashes m ≠ .error (.fault .slotNotFilled) := by
  simp only [ChdPhf.build]
  split
  · simp
  · split
    · simp
    · split
      · simp
      · split
        · simp
        · intro failed
          cases trySeeds_error failed

/-- Lookups in the three kinds of table are exact. -/
theorem perfect_tables_exact {K V : Type} [DecidableEq K] (sorter : UnstableSort) (hash : K → UInt64) :
    (∀ (entries : List (K × V)) map, PerfectMap.fromEntries (chd sorter) entries hash = .ok map →
      ExactMap entries (map.get (chd sorter)) map.iter map.len) ∧
    (∀ (entries : List (K × V)) config map,
      PerfectMapSparse.fromEntriesWith (chd sorter) entries hash config = .ok map →
      ExactMap entries (map.get (chd sorter)) map.iter map.len) ∧
    (∀ (keys : List K) set, PerfectSet.fromKeys (chd sorter) keys hash = .ok set →
      ExactSet keys (set.contains (chd sorter)) (set.get (chd sorter)) set.iter set.len) ∧
    (∀ entries : List (K × V),
      PerfectMap.fromEntries (chd sorter) entries hash ≠ .error (.fault .slotNotFilled)) ∧
    (∀ keys : List K, PerfectSet.fromKeys (chd sorter) keys hash ≠ .error (.fault .slotNotFilled)) := by
  have lawful := chd_lawful sorter
  refine ⟨fun entries map built => PerfectMap.exact lawful built,
    fun entries config map built => PerfectMapSparse.exact lawful built,
    fun keys set built => PerfectSet.exact lawful built, fun entries failed => ?_, fun keys failed => ?_⟩
  · rcases PerfectMap.fromEntries_cases lawful entries hash with ⟨failure, notBuilt, returned⟩ | ⟨_, _, built, _⟩
    · rw [returned, Except.error.injEq] at failed
      exact build_ne_slotNotFilled sorter _ _ (failed ▸ notBuilt)
    · rw [built] at failed
      cases failed
  · rcases PerfectSet.fromKeys_cases lawful keys hash with ⟨failure, notBuilt, returned⟩ | ⟨_, _, built, _⟩
    · rw [returned, Except.error.injEq] at failed
      exact build_ne_slotNotFilled sorter _ _ (failed ▸ notBuilt)
    · rw [built] at failed
      cases failed

/-- Two entries in a dense table, looked up by member and stranger. -/
theorem perfect_map_two_exact :
    ∃ map, PerfectMap.fromEntries (chd insertionSorter) [((1 : UInt64), 10), (2, 20)] id = .ok map ∧
      (map.get (chd insertionSorter) 2 = .ok (some 20) ↔ (2, 20) ∈ [((1 : UInt64), 10), (2, 20)]) := by
  have built : (PerfectMap.fromEntries (chd insertionSorter) [((1 : UInt64), 10), (2, 20)] id).isOk = true := by
    decide +kernel
  cases returned : PerfectMap.fromEntries (chd insertionSorter) [((1 : UInt64), 10), (2, 20)] id with
  | error failure =>
      rw [returned] at built
      cases built
  | ok map =>
      exact ⟨map, rfl, ((perfect_tables_exact insertionSorter id).1 _ map returned).get_iff 2 20⟩

end Optimap.Perfect
