import Optimap.Lib.FiniteMap

/-!
# Entries spread over cells

A container that keeps each entry of a finite map in one of its cells. What
writing and freeing a cell does to the map does not depend on how the cells are
found.
-/

set_option autoImplicit false

namespace Optimap.Lib

/-- `Holds cell key value`: the cell carries the entry. No cell carries two
entries, no key is in two cells, and together the cells carry the map. -/
structure Stores {Cell K V : Type} (Holds : Cell → K → V → Prop) (map : PMap K V) : Prop where
  functional : ∀ {cell firstKey secondKey firstValue secondValue}, Holds cell firstKey firstValue →
    Holds cell secondKey secondValue → firstKey = secondKey ∧ firstValue = secondValue
  unique : ∀ {first second key left right}, Holds first key left → Holds second key right →
    first = second
  lookup : ∀ key value, map key = some value ↔ ∃ cell, Holds cell key value

namespace Stores

variable {Cell K V : Type} {Holds Later : Cell → K → V → Prop} {map : PMap K V}

theorem empty (vacant : ∀ cell key value, ¬ Holds cell key value) : Stores Holds PMap.empty where
  functional first _ := absurd first (vacant _ _ _)
  unique first _ := absurd first (vacant _ _ _)
  lookup key value := by
    simp only [PMap.empty, reduceCtorEq, false_iff, not_exists]
    exact fun cell => vacant cell key value

theorem congr (stores : Stores Holds map)
    (same : ∀ cell key value, Later cell key value ↔ Holds cell key value) : Stores Later map where
  functional first second := stores.functional ((same _ _ _).mp first) ((same _ _ _).mp second)
  unique first second := stores.unique ((same _ _ _).mp first) ((same _ _ _).mp second)
  lookup key value := by
    rw [stores.lookup]
    exact exists_congr fun cell => (same cell key value).symm

theorem absent (stores : Stores Holds map) {key : K} (missing : map key = none) (cell : Cell)
    (value : V) : ¬ Holds cell key value := by
  intro holds
  rw [(stores.lookup key value).mpr ⟨cell, holds⟩] at missing
  cases missing

theorem eq_empty (stores : Stores Holds map) (vacant : ∀ cell key value, ¬ Holds cell key value) :
    map = PMap.empty := by
  funext key
  cases found : map key with
  | none => rfl
  | some value =>
      obtain ⟨cell, holds⟩ := (stores.lookup key value).mp found
      exact absurd holds (vacant cell key value)

section Update
variable [DecidableEq K] {cell : Cell} {key : K} {value : V}

/-- Writing an entry into a cell that is free or carries the same key already,
when no other cell carries the key. -/
theorem put (stores : Stores Holds map)
    (written : ∀ other otherKey otherValue, Later other otherKey otherValue ↔
      (other = cell ∧ otherKey = key ∧ otherValue = value) ∨
        (other ≠ cell ∧ Holds other otherKey otherValue))
    (same : ∀ otherKey otherValue, Holds cell otherKey otherValue → otherKey = key)
    (here : ∀ other otherValue, Holds other key otherValue → other = cell) :
    Stores Later (map.insert key value) where
  functional := by
    intro other firstKey secondKey firstValue secondValue first second
    rcases (written _ _ _).mp first with ⟨rfl, rfl, rfl⟩ | ⟨away, firstHolds⟩
    · rcases (written _ _ _).mp second with ⟨_, rfl, rfl⟩ | ⟨away, _⟩
      · exact ⟨rfl, rfl⟩
      · exact absurd rfl away
    · rcases (written _ _ _).mp second with ⟨rfl, _, _⟩ | ⟨_, secondHolds⟩
      · exact absurd rfl away
      · exact stores.functional firstHolds secondHolds
  unique := by
    intro first second otherKey left right firstLater secondLater
    rcases (written _ _ _).mp firstLater with ⟨rfl, rfl, _⟩ | ⟨firstAway, firstHolds⟩
    · rcases (written _ _ _).mp secondLater with ⟨rfl, _, _⟩ | ⟨secondAway, secondHolds⟩
      · rfl
      · exact absurd (here _ _ secondHolds) secondAway
    · rcases (written _ _ _).mp secondLater with ⟨rfl, rfl, _⟩ | ⟨_, secondHolds⟩
      · exact absurd (here _ _ firstHolds) firstAway
      · exact stores.unique firstHolds secondHolds
  lookup := by
    intro otherKey otherValue
    simp only [written]
    by_cases equal : otherKey = key
    · subst equal
      rw [PMap.insert_self, Option.some.injEq]
      constructor
      · rintro rfl
        exact ⟨cell, .inl ⟨rfl, rfl, rfl⟩⟩
      · rintro ⟨other, ⟨_, _, stored⟩ | ⟨away, holds⟩⟩
        · exact stored.symm
        · exact absurd (here other otherValue holds) away
    · rw [PMap.insert_of_ne map _ equal, stores.lookup]
      refine exists_congr fun other => ⟨fun holds => .inr ⟨?_, holds⟩, ?_⟩
      · rintro rfl
        exact equal (same _ _ holds)
      · rintro (⟨_, keys, _⟩ | ⟨_, holds⟩)
        · exact absurd keys equal
        · exact holds

/-- Freeing a cell erases the key it carried. -/
theorem drop (stores : Stores Holds map) (held : Holds cell key value)
    (freed : ∀ other otherKey otherValue, Later other otherKey otherValue ↔
      other ≠ cell ∧ Holds other otherKey otherValue) :
    Stores Later (map.erase key) where
  functional first second :=
    stores.functional ((freed _ _ _).mp first).2 ((freed _ _ _).mp second).2
  unique first second := stores.unique ((freed _ _ _).mp first).2 ((freed _ _ _).mp second).2
  lookup := by
    intro otherKey otherValue
    simp only [freed]
    by_cases equal : otherKey = key
    · subst equal
      simp only [PMap.erase, ↓reduceIte, reduceCtorEq, false_iff, not_exists, not_and]
      intro other away holds
      exact away (stores.unique holds held)
    · simp only [PMap.erase, equal, ↓reduceIte, stores.lookup]
      refine exists_congr fun other => ⟨fun holds => ⟨?_, holds⟩, And.right⟩
      rintro rfl
      exact equal (stores.functional holds held).1

end Update

/-- The occupied cells, read one by one, enumerate the map. -/
theorem enumerates (stores : Stores Holds map) {cells : List Cell} {read : Cell → Option (K × V)}
    (nodup : cells.Nodup) (occupied : ∀ cell, cell ∈ cells ↔ ∃ key value, Holds cell key value)
    (reads : ∀ {cell key value}, Holds cell key value → read cell = some (key, value)) :
    PMap.Enumerates (cells.filterMap read) map := by
  constructor
  · rw [List.Nodup, List.pairwise_map, List.pairwise_filterMap]
    refine nodup.imp_of_mem ?_
    rintro first second firstMember secondMember different ⟨leftKey, left⟩ leftRead
      ⟨rightKey, right⟩ rightRead sameKey
    cases (sameKey : leftKey = rightKey)
    obtain ⟨firstKey, firstValue, firstHolds⟩ := (occupied first).mp firstMember
    obtain ⟨secondKey, secondValue, secondHolds⟩ := (occupied second).mp secondMember
    rw [reads firstHolds, Option.some.injEq, Prod.mk.injEq] at leftRead
    rw [reads secondHolds, Option.some.injEq, Prod.mk.injEq] at rightRead
    rw [leftRead.1] at firstHolds
    rw [rightRead.1] at secondHolds
    exact different (stores.unique firstHolds secondHolds)
  · intro key value
    rw [List.mem_filterMap, stores.lookup]
    constructor
    · rintro ⟨cell, member, read⟩
      obtain ⟨storedKey, storedValue, holds⟩ := (occupied cell).mp member
      rw [reads holds, Option.some.injEq, Prod.mk.injEq] at read
      exact ⟨cell, read.1 ▸ read.2 ▸ holds⟩
    · rintro ⟨cell, holds⟩
      exact ⟨cell, (occupied cell).mpr ⟨key, value, holds⟩, reads holds⟩

theorem reads_length {cells : List Cell} {read : Cell → Option (K × V)}
    (occupied : ∀ cell ∈ cells, ∃ key value, Holds cell key value)
    (reads : ∀ {cell key value}, Holds cell key value → read cell = some (key, value)) :
    (cells.filterMap read).length = cells.length := by
  rw [List.filterMap_length_eq_length]
  intro cell member
  obtain ⟨key, value, holds⟩ := occupied cell member
  rw [reads holds]
  rfl

end Stores

end Optimap.Lib
