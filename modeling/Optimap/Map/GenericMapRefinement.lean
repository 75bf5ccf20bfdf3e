import Optimap.Map.GenericMap

/-!
# The generic hash map refines a finite map

Every engine that meets `RawTableLaws` makes `GenericMap` answer as a finite
map does, over whole runs. Nothing here looks inside an engine.
-/

set_option autoImplicit false

namespace Optimap.Map

open Lib RawTableApi

namespace GenericMap

variable {T K V : Type} [DecidableEq K] [RawTableApi T K V] {hash : K → UInt64}
  {Refines : T → PMap K V → Prop} {Holds : T → Slot → K → V → Prop} {Ready : T → Prop}

omit [DecidableEq K] in
private theorem value_of_entryAt {table : T} {slot : Slot} {key : K} {stored : V}
    (read : entryAt table slot = some (key, stored)) : value table slot = some stored := by
  unfold entryAt at read
  obtain ⟨storedKey, _, read⟩ := Option.bind_eq_some_iff.mp read
  obtain ⟨storedValue, found, pair⟩ := Option.map_eq_some_iff.mp read
  rw [found, (Prod.mk.inj pair).2]

theorem holds_value (laws : RawTableLaws hash Refines Holds Ready) {table : T} {slot : Slot} {key : K}
    {stored : V} (holds : Holds table slot key stored) : value table slot = some stored :=
  value_of_entryAt (laws.holds_entry holds)

theorem get_refines (laws : RawTableLaws hash Refines Holds Ready) {fuel : Nat} {table : T}
    {map : PMap K V} {key : K} {result : Option V} (refines : Refines table map)
    (returned : (⟨table, hash⟩ : GenericMap T K).get fuel key = some result) : result = map key := by
  obtain ⟨slot, found, same⟩ := Option.bind_eq_some_iff.mp returned
  cases Option.some.inj same
  cases slot with
  | none => exact (laws.findByHash_none refines found).symm
  | some slot =>
      obtain ⟨stored, holds⟩ := laws.findByHash_some refines found
      rw [Option.bind_some, holds_value laws holds]
      exact (((laws.stores refines).lookup key stored).mpr ⟨slot, holds⟩).symm

theorem insert_refines (laws : RawTableLaws hash Refines Holds Ready) {fuel : Nat} {table : T}
    {map : PMap K V} {key : K} {value : V} {result : Option V} {next : GenericMap T K}
    (refines : Refines table map)
    (returned : (⟨table, hash⟩ : GenericMap T K).insert fuel key value = some (result, next)) :
    result = map key ∧ Refines next.table (map.insert key value) ∧ next.hashBuilder = hash := by
  obtain ⟨⟨found, table'⟩, ran, same⟩ := Option.bind_eq_some_iff.mp returned
  cases same
  obtain ⟨answer, refines'⟩ := laws.insertOrReplace refines ran
  exact ⟨answer, refines', rfl⟩

theorem removeEntry_refines (laws : RawTableLaws hash Refines Holds Ready) {fuel : Nat} {table : T}
    {map : PMap K V} {key : K} {result : Option (K × V)} {next : GenericMap T K}
    (refines : Refines table map)
    (returned : (⟨table, hash⟩ : GenericMap T K).removeEntry fuel key = some (result, next)) :
    result = (map key).map (fun value => (key, value)) ∧ Refines next.table (map.erase key) ∧
      next.hashBuilder = hash := by
  obtain ⟨⟨found, table'⟩, ran, same⟩ := Option.bind_eq_some_iff.mp returned
  cases same
  obtain ⟨answer, refines'⟩ := laws.removeByHash refines ran
  exact ⟨answer, refines', rfl⟩

theorem insertGrowing_refines (laws : RawTableLaws hash Refines Holds Ready) {fuel : Nat} {table : T}
    {map : PMap K V} {key : K} {value : V} {slot : Slot} {next : GenericMap T K}
    (refines : Refines table map) (absent : map key = none)
    (returned : (⟨table, hash⟩ : GenericMap T K).insertGrowing fuel key value = some (slot, next)) :
    Refines next.table (map.insert key value) ∧ Holds next.table slot key value ∧
      next.hashBuilder = hash := by
  obtain ⟨grown, ensured, returned⟩ := Option.bind_eq_some_iff.mp returned
  obtain ⟨⟨found, table'⟩, ran, same⟩ := Option.bind_eq_some_iff.mp returned
  cases same
  obtain ⟨grownRefines, ready⟩ := laws.ensureCapacity refines ensured
  obtain ⟨refines', holds⟩ := laws.insertNoCheck grownRefines ready absent ran
  exact ⟨refines', holds, rfl⟩

/-- The probe of `entry` runs on a table that still stands for the same map. -/
theorem entry_refines (laws : RawTableLaws hash Refines Holds Ready) {fuel : Nat} {table : T}
    {map : PMap K V} {key : K} {probe : EntryProbe} {next : GenericMap T K}
    (refines : Refines table map)
    (returned : (⟨table, hash⟩ : GenericMap T K).entry fuel key = some (probe, next)) :
    Refines next.table map ∧ next.hashBuilder = hash ∧
      findForEntry fuel next.table (hash key) key = some probe := by
  obtain ⟨prepared, allocated, returned⟩ := Option.bind_eq_some_iff.mp returned
  obtain ⟨found, probed, same⟩ := Option.bind_eq_some_iff.mp returned
  cases same
  refine ⟨?_, rfl, probed⟩
  unfold allocate at allocated
  split at allocated
  · cases allocated
    exact refines
  · exact laws.reserve refines allocated

theorem vacantInsert_refines (laws : RawTableLaws hash Refines Holds Ready) {fuel : Nat} {table : T}
    {map : PMap K V} {key : K} {value : V} {vacant : Option (Slot × UInt8)} {slot : Slot}
    {next : GenericMap T K} (refines : Refines table map)
    (probed : findForEntry fuel table (hash key) key = some (.vacant vacant))
    (returned : (⟨table, hash⟩ : GenericMap T K).vacantInsert fuel vacant key value = some (slot, next)) :
    Refines next.table (map.insert key value) ∧ Holds next.table slot key value ∧
      next.hashBuilder = hash := by
  cases vacant with
  | none =>
      exact insertGrowing_refines laws refines (laws.findForEntry_vacant refines probed) returned
  | some located =>
      obtain ⟨located, mask⟩ := located
      cases returned
      obtain ⟨refines', holds⟩ := laws.insertAt refines probed value
      exact ⟨refines', holds, rfl⟩

theorem orInsert_refines (laws : RawTableLaws hash Refines Holds Ready) {fuel : Nat} {table : T}
    {map : PMap K V} {key : K} {value : V} {result : Option V} {next : GenericMap T K}
    (refines : Refines table map)
    (returned : (⟨table, hash⟩ : GenericMap T K).orInsert fuel key value = some (result, next)) :
    result = some ((map key).getD value) ∧
      Refines next.table (map.insert key ((map key).getD value)) ∧ next.hashBuilder = hash := by
  obtain ⟨⟨probe, ⟨prepared, prehash⟩⟩, entered, returned⟩ := Option.bind_eq_some_iff.mp returned
  obtain ⟨preparedRefines, rfl, probed⟩ := entry_refines laws refines entered
  cases probe with
  | found slot =>
      cases returned
      obtain ⟨stored, holds⟩ := laws.findForEntry_found preparedRefines probed
      have present := ((laws.stores preparedRefines).lookup key stored).mpr ⟨slot, holds⟩
      have kept : map.insert key stored = map := by
        funext other
        by_cases same : other = key
        · rw [same, PMap.insert_self, present]
        · rw [PMap.insert_of_ne map _ same]
      refine ⟨?_, ?_, rfl⟩
      · rw [present, Option.getD_some]
        exact holds_value laws holds
      · rw [present, Option.getD_some, kept]
        exact preparedRefines
  | vacant slot =>
      have absent := laws.findForEntry_vacant preparedRefines probed
      obtain ⟨⟨located, inserted⟩, ran, same⟩ := Option.bind_eq_some_iff.mp returned
      cases same
      obtain ⟨refines', holds, builder⟩ := vacantInsert_refines laws preparedRefines probed ran
      rw [absent, Option.getD_none]
      exact ⟨holds_value laws holds, refines', builder⟩

theorem tryInsert_refines (laws : RawTableLaws hash Refines Holds Ready) {fuel : Nat} {table : T}
    {map : PMap K V} {key : K} {value : V} {result : Option (K × V)} {next : GenericMap T K}
    (refines : Refines table map)
    (returned : (⟨table, hash⟩ : GenericMap T K).tryInsert fuel key value = some (result, next)) :
    ∃ map', Answers map (.tryInsert key value) (.tried result) map' ∧ Refines next.table map' ∧
      next.hashBuilder = hash := by
  obtain ⟨⟨probe, ⟨prepared, prehash⟩⟩, entered, returned⟩ := Option.bind_eq_some_iff.mp returned
  obtain ⟨preparedRefines, rfl, probed⟩ := entry_refines laws refines entered
  cases probe with
  | found slot =>
      cases returned
      obtain ⟨stored, holds⟩ := laws.findForEntry_found preparedRefines probed
      have present := ((laws.stores preparedRefines).lookup key stored).mpr ⟨slot, holds⟩
      exact ⟨map, by simp [Answers, present], preparedRefines, rfl⟩
  | vacant slot =>
      have absent := laws.findForEntry_vacant preparedRefines probed
      obtain ⟨⟨located, inserted⟩, ran, same⟩ := Option.bind_eq_some_iff.mp returned
      cases same
      obtain ⟨refines', _, builder⟩ := vacantInsert_refines laws preparedRefines probed ran
      exact ⟨map.insert key value, by simp [Answers, absent], refines', builder⟩

theorem rawOrInsert_refines (laws : RawTableLaws hash Refines Holds Ready) {fuel : Nat} {table : T}
    {map : PMap K V} {key : K} {value : V} {result : Option V} {next : GenericMap T K}
    (refines : Refines table map)
    (returned : (⟨table, hash⟩ : GenericMap T K).rawOrInsert fuel key value = some (result, next)) :
    result = some ((map key).getD value) ∧
      Refines next.table (map.insert key ((map key).getD value)) ∧ next.hashBuilder = hash := by
  obtain ⟨found, probed, returned⟩ := Option.bind_eq_some_iff.mp returned
  cases found with
  | some slot =>
      cases returned
      obtain ⟨stored, holds⟩ := laws.findByHash_some refines probed
      have present := ((laws.stores refines).lookup key stored).mpr ⟨slot, holds⟩
      have kept : map.insert key stored = map := by
        funext other
        by_cases same : other = key
        · rw [same, PMap.insert_self, present]
        · rw [PMap.insert_of_ne map _ same]
      rw [present, Option.getD_some, kept]
      exact ⟨holds_value laws holds, refines, rfl⟩
  | none =>
      have absent := laws.findByHash_none refines probed
      obtain ⟨⟨located, inserted⟩, ran, same⟩ := Option.bind_eq_some_iff.mp returned
      cases same
      obtain ⟨refines', holds, builder⟩ := insertGrowing_refines laws refines absent ran
      rw [absent, Option.getD_none]
      exact ⟨holds_value laws holds, refines', builder⟩

private theorem erase_absent {map : PMap K V} {key : K} (absent : map key = none) :
    map.erase key = map := by
  funext other
  by_cases same : other = key <;> simp [PMap.erase, same, absent]

theorem rawRemoveEntry_refines (laws : RawTableLaws hash Refines Holds Ready) {fuel : Nat} {table : T}
    {map : PMap K V} {key : K} {result : Option (K × V)} {next : GenericMap T K}
    (refines : Refines table map)
    (returned : (⟨table, hash⟩ : GenericMap T K).rawRemoveEntry fuel key = some (result, next)) :
    result = (map key).map (fun value => (key, value)) ∧ Refines next.table (map.erase key) ∧
      next.hashBuilder = hash := by
  obtain ⟨found, probed, returned⟩ := Option.bind_eq_some_iff.mp returned
  cases found with
  | some slot =>
      cases returned
      obtain ⟨stored, holds⟩ := laws.findByHash_some refines probed
      have present := ((laws.stores refines).lookup key stored).mpr ⟨slot, holds⟩
      rw [present, laws.holds_entry holds]
      exact ⟨rfl, (laws.eraseSlot refines holds).1, rfl⟩
  | none =>
      cases returned
      have absent := laws.findByHash_none refines probed
      rw [absent, erase_absent absent]
      exact ⟨rfl, refines, rfl⟩

/-- One round of `retain` on an occupied slot updates that key only and leaves
the other slots readable. -/
private theorem retainSlot_refines (laws : RawTableLaws hash Refines Holds Ready)
    (predicate : K → V → Bool × V) {table : T} {map : PMap K V} {slot : Slot} {key : K} {stored : V}
    (refines : Refines table map) (holds : Holds table slot key stored) :
    ∃ map', Refines (retainSlot predicate hash table slot) map' ∧
      map' key = map.retain predicate key ∧ (∀ other, other ≠ key → map' other = map other) ∧
      ∀ other otherKey otherValue, other ≠ slot → Holds table other otherKey otherValue →
        Holds (retainSlot predicate hash table slot) other otherKey otherValue := by
  have present := ((laws.stores refines).lookup key stored).mpr ⟨slot, holds⟩
  obtain ⟨written, writtenHolds, writtenOthers⟩ :=
    laws.writeValue refines holds (predicate key stored).2
  unfold retainSlot
  rw [laws.holds_entry holds]
  by_cases keep : (predicate key stored).1
  · simp only [keep, ↓reduceIte]
    refine ⟨_, written, ?_, ?_, writtenOthers⟩
    · rw [PMap.insert_self]
      simp [PMap.retain, present, keep]
    · intro other different
      exact PMap.insert_of_ne map _ different
  · simp only [keep, Bool.false_eq_true, ↓reduceIte]
    obtain ⟨erased, erasedOthers⟩ := laws.eraseSlot written writtenHolds
    refine ⟨_, erased, ?_, ?_, ?_⟩
    · simp [PMap.retain, PMap.erase, present, keep]
    · intro other different
      simp [PMap.erase, PMap.insert, different]
    · intro other otherKey otherValue different otherHolds
      exact erasedOthers other otherKey otherValue different
        (writtenOthers other otherKey otherValue different otherHolds)

/-- The loop of `retain`, by induction on the positions still to visit. Each
position is visited once, so the slots ahead still carry their old entries. -/
private theorem foldl_retainSlot_refines (laws : RawTableLaws hash Refines Holds Ready)
    (predicate : K → V → Bool × V) (slots : List Slot) :
    ∀ (table : T) (map : PMap K V), Refines table map → slots.Nodup →
      (∀ slot ∈ slots, ∃ key stored, Holds table slot key stored) →
      ∃ map', Refines (slots.foldl (retainSlot predicate hash) table) map' ∧
        (∀ slot ∈ slots, ∀ key stored, Holds table slot key stored →
          map' key = map.retain predicate key) ∧
        ∀ key, (∀ slot ∈ slots, ∀ stored, ¬ Holds table slot key stored) → map' key = map key := by
  induction slots with
  | nil => intro table map refines _ _; exact ⟨map, refines, by simp, by simp⟩
  | cons slot slots ih =>
      intro table map refines unique held
      obtain ⟨slotFresh, restUnique⟩ := List.nodup_cons.mp unique
      obtain ⟨key, stored, holds⟩ := held slot List.mem_cons_self
      obtain ⟨middle, middleRefines, middleKey, middleOther, keepsOthers⟩ :=
        retainSlot_refines laws predicate refines holds
      have ahead : ∀ other ∈ slots, other ≠ slot := fun other member same => slotFresh (same ▸ member)
      have heldAhead : ∀ other ∈ slots, ∃ otherKey otherStored,
          Holds table other otherKey otherStored ∧
          Holds (retainSlot predicate hash table slot) other otherKey otherStored := by
        intro other member
        obtain ⟨otherKey, otherStored, otherHolds⟩ := held other (List.mem_cons_of_mem _ member)
        exact ⟨otherKey, otherStored, otherHolds,
          keepsOthers other otherKey otherStored (ahead other member) otherHolds⟩
      obtain ⟨final, finalRefines, visited, unvisited⟩ :=
        ih (retainSlot predicate hash table slot) middle middleRefines restUnique
          (fun other member => by
            obtain ⟨otherKey, otherStored, _, otherHolds⟩ := heldAhead other member
            exact ⟨otherKey, otherStored, otherHolds⟩)
      -- The key of this slot sits in no slot still ahead.
      have keyAhead : ∀ other ∈ slots, ∀ otherStored,
          ¬ Holds (retainSlot predicate hash table slot) other key otherStored := by
        intro other member otherStored otherHolds
        obtain ⟨oldKey, oldStored, oldHolds, keptHolds⟩ := heldAhead other member
        obtain ⟨rfl, _⟩ := (laws.stores middleRefines).functional keptHolds otherHolds
        exact ahead other member ((laws.stores refines).unique oldHolds holds)
      refine ⟨final, finalRefines, ?_, ?_⟩
      · intro other member otherKey otherStored otherHolds
        rcases List.mem_cons.mp member with rfl | member
        · obtain ⟨rfl, _⟩ := (laws.stores refines).functional holds otherHolds
          rw [unvisited key keyAhead, middleKey]
        · have different : otherKey ≠ key := by
            rintro rfl
            exact ahead other member ((laws.stores refines).unique otherHolds holds)
          have kept := keepsOthers other otherKey otherStored (ahead other member) otherHolds
          rw [visited other member otherKey otherStored kept]
          simp only [PMap.retain, middleOther otherKey different]
      · intro other absent
        have different : other ≠ key := by
          rintro rfl
          exact absent slot List.mem_cons_self stored holds
        rw [unvisited other ?_, middleOther other different]
        intro position member otherStored otherHolds
        obtain ⟨oldKey, oldStored, oldHolds, keptHolds⟩ := heldAhead position member
        obtain ⟨rfl, _⟩ := (laws.stores middleRefines).functional keptHolds otherHolds
        exact absent position (List.mem_cons_of_mem _ member) oldStored oldHolds

theorem retain_refines (laws : RawTableLaws hash Refines Holds Ready) (predicate : K → V → Bool × V)
    {table : T} {map : PMap K V} (refines : Refines table map) :
    Refines ((⟨table, hash⟩ : GenericMap T K).retain predicate).table (map.retain predicate) := by
  unfold retain
  split
  · obtain ⟨final, finalRefines, visited, unvisited⟩ :=
      foldl_retainSlot_refines laws predicate (iterSlots table) table map refines
        (laws.iterSlots_nodup refines) (fun slot member => (laws.mem_iterSlots refines slot).mp member)
    have same : final = map.retain predicate := by
      funext key
      cases found : map key with
      | none =>
          rw [unvisited key]
          · simp [PMap.retain, found]
          · intro slot _ stored holds
            rw [((laws.stores refines).lookup key stored).mpr ⟨slot, holds⟩] at found
            cases found
      | some stored =>
          obtain ⟨slot, holds⟩ := ((laws.stores refines).lookup key stored).mp found
          exact visited slot ((laws.mem_iterSlots refines slot).mpr ⟨key, stored, holds⟩) key stored holds
    exact same ▸ finalRefines
  · rename_i unallocated
    have vacuous := laws.isAllocated refines (by simpa using unallocated)
    subst vacuous
    exact refines

theorem extend_refines (laws : RawTableLaws hash Refines Holds Ready) {fuel : Nat}
    {next : GenericMap T K} (entries : List (K × V)) :
    ∀ (table : T) (map : PMap K V), Refines table map →
      (⟨table, hash⟩ : GenericMap T K).extend fuel entries = some next →
      Refines next.table (map.insertAll entries) ∧ next.hashBuilder = hash := by
  induction entries with
  | nil =>
      intro table map refines returned
      cases returned
      exact ⟨refines, rfl⟩
  | cons entry entries ih =>
      intro table map refines returned
      obtain ⟨⟨result, ⟨middle, builder⟩⟩, inserted, rest⟩ := Option.bind_eq_some_iff.mp returned
      obtain ⟨_, middleRefines, rfl⟩ := insert_refines laws refines inserted
      exact ih middle _ middleRefines rest

/-- One operation of a map over a lawful engine is answered as by a finite map. -/
theorem stepCommon_refines (laws : RawTableLaws hash Refines Holds Ready) {fuel : Nat} {table : T}
    {map : PMap K V} {op : MapOp K V} {result : MapResult K V} {next : GenericMap T K}
    (refines : Refines table map)
    (returned : (⟨table, hash⟩ : GenericMap T K).stepCommon fuel op = some (result, next)) :
    ∃ map', Answers map op result map' ∧ Refines next.table map' ∧ next.hashBuilder = hash := by
  cases op with
  | get key =>
      obtain ⟨answer, ran, same⟩ := Option.bind_eq_some_iff.mp returned
      cases same
      rw [get_refines laws refines ran]
      exact ⟨map, ⟨rfl, rfl⟩, refines, rfl⟩
  | insert key value =>
      obtain ⟨⟨answer, inserted⟩, ran, same⟩ := Option.bind_eq_some_iff.mp returned
      cases same
      obtain ⟨rfl, refines', builder⟩ := insert_refines laws refines ran
      exact ⟨_, ⟨rfl, rfl⟩, refines', builder⟩
  | remove key =>
      obtain ⟨⟨answer, removed⟩, ran, same⟩ := Option.bind_eq_some_iff.mp returned
      cases same
      obtain ⟨⟨pair, rest⟩, ran, same⟩ := Option.bind_eq_some_iff.mp ran
      cases same
      obtain ⟨rfl, refines', builder⟩ := removeEntry_refines laws refines ran
      refine ⟨_, ⟨?_, rfl⟩, refines', builder⟩
      cases map key <;> rfl
  | removeEntry key =>
      obtain ⟨⟨answer, removed⟩, ran, same⟩ := Option.bind_eq_some_iff.mp returned
      cases same
      obtain ⟨rfl, refines', builder⟩ := removeEntry_refines laws refines ran
      exact ⟨_, ⟨rfl, rfl⟩, refines', builder⟩
  | entryInsert key value =>
      obtain ⟨⟨answer, inserted⟩, ran, same⟩ := Option.bind_eq_some_iff.mp returned
      cases same
      obtain ⟨rfl, refines', builder⟩ := orInsert_refines laws refines ran
      exact ⟨_, ⟨rfl, rfl⟩, refines', builder⟩
  | tryInsert key value =>
      obtain ⟨⟨answer, inserted⟩, ran, same⟩ := Option.bind_eq_some_iff.mp returned
      cases same
      exact tryInsert_refines laws refines ran
  | extend entries =>
      obtain ⟨extended, ran, same⟩ := Option.bind_eq_some_iff.mp returned
      cases same
      obtain ⟨refines', builder⟩ := extend_refines laws entries table map refines ran
      exact ⟨_, ⟨rfl, rfl⟩, refines', builder⟩
  | retain predicate =>
      cases returned
      refine ⟨_, ⟨rfl, rfl⟩, retain_refines laws predicate refines, ?_⟩
      unfold retain
      split <;> rfl
  | clear =>
      cases returned
      exact ⟨_, ⟨rfl, rfl⟩, laws.clear refines, rfl⟩
  | reserve additional =>
      obtain ⟨reserved, ran, same⟩ := Option.bind_eq_some_iff.mp returned
      cases same
      obtain ⟨table', resized, same⟩ := Option.bind_eq_some_iff.mp ran
      cases same
      exact ⟨_, ⟨rfl, rfl⟩, laws.reserve refines resized, rfl⟩
  | shrinkToFit =>
      obtain ⟨shrunk, ran, same⟩ := Option.bind_eq_some_iff.mp returned
      cases same
      obtain ⟨table', resized, same⟩ := Option.bind_eq_some_iff.mp ran
      cases same
      exact ⟨_, ⟨rfl, rfl⟩, laws.shrinkToFit refines resized, rfl⟩
  | clone =>
      cases returned
      exact ⟨_, ⟨rfl, rfl⟩, laws.cloneTable refines, rfl⟩
  | drain =>
      cases returned
      refine ⟨_, ⟨⟨_, ?_, rfl⟩, rfl⟩, laws.new, rfl⟩
      rw [drain, laws.intoIter refines]
      exact laws.iter_enumerates refines
  | iter =>
      cases returned
      exact ⟨_, ⟨⟨_, laws.iter_enumerates refines, rfl⟩, rfl⟩, refines, rfl⟩
  | len =>
      cases returned
      refine ⟨_, ⟨⟨_, laws.iter_enumerates refines, ?_⟩, rfl⟩, refines, rfl⟩
      rw [laws.iter_length refines]
      rfl

theorem step_refines (laws : RawTableLaws hash Refines Holds Ready) {fuel : Nat} {table : T}
    {map : PMap K V} {op : GenericOp K V} {result : MapResult K V} {next : GenericMap T K}
    (refines : Refines table map)
    (returned : (⟨table, hash⟩ : GenericMap T K).step fuel op = some (result, next)) :
    ∃ map', GenericAnswers map op result map' ∧ Refines next.table map' ∧
      next.hashBuilder = hash := by
  cases op with
  | common op => exact stepCommon_refines laws refines returned
  | rawInsert key value =>
      obtain ⟨⟨answer, inserted⟩, ran, same⟩ := Option.bind_eq_some_iff.mp returned
      cases same
      obtain ⟨rfl, refines', builder⟩ := rawOrInsert_refines laws refines ran
      exact ⟨_, ⟨rfl, rfl⟩, refines', builder⟩
  | rawRemove key =>
      obtain ⟨⟨answer, removed⟩, ran, same⟩ := Option.bind_eq_some_iff.mp returned
      cases same
      obtain ⟨rfl, refines', builder⟩ := rawRemoveEntry_refines laws refines ran
      exact ⟨_, ⟨rfl, rfl⟩, refines', builder⟩

/-- A whole run of returning operations is answered as by a finite map. -/
theorem run_refines (laws : RawTableLaws hash Refines Holds Ready) {fuel : Nat}
    {final : GenericMap T K} (ops : List (GenericOp K V)) :
    ∀ (table : T) (map : PMap K V) (results : List (MapResult K V)), Refines table map →
      (⟨table, hash⟩ : GenericMap T K).run fuel ops = some (results, final) →
      ∃ map', AnswersAll GenericAnswers map ops results map' ∧ Refines final.table map' ∧
        final.hashBuilder = hash := by
  induction ops with
  | nil =>
      intro table map results refines returned
      cases returned
      exact ⟨map, .nil, refines, rfl⟩
  | cons op ops ih =>
      intro table map results refines returned
      obtain ⟨⟨result, ⟨middle, builder⟩⟩, stepped, returned⟩ := Option.bind_eq_some_iff.mp returned
      obtain ⟨⟨rest, last⟩, ran, same⟩ := Option.bind_eq_some_iff.mp returned
      cases same
      obtain ⟨middleMap, answer, middleRefines, rfl⟩ := step_refines laws refines stepped
      obtain ⟨finalMap, answers, finalRefines, builder⟩ := ih middle middleMap rest middleRefines ran
      exact ⟨finalMap, .cons answer answers, finalRefines, builder⟩

private theorem allEqual_refines [DecidableEq V] (laws : RawTableLaws hash Refines Holds Ready)
    {fuel : Nat} {table : T} {map : PMap K V} (refines : Refines table map) (entries : List (K × V)) :
    ∀ {result : Bool}, allEqual fuel (⟨table, hash⟩ : GenericMap T K) entries = some result →
      (result = true ↔ ∀ entry ∈ entries, map entry.1 = some entry.2) := by
  induction entries with
  | nil => intro result returned; cases returned; simp
  | cons entry entries ih =>
      intro result returned
      obtain ⟨found, ran, returned⟩ := Option.bind_eq_some_iff.mp returned
      have answer := get_refines laws refines ran
      subst answer
      split at returned
      · rename_i matched
        rw [ih returned, List.forall_mem_cons]
        exact ⟨fun rest => ⟨matched, rest⟩, fun both => both.2⟩
      · rename_i mismatched
        cases returned
        simp only [Bool.false_eq_true, List.forall_mem_cons, false_iff, not_and]
        exact fun matched => absurd matched mismatched

/-- Equality of two maps over lawful engines is extensional. The two maps may
hash differently. -/
theorem eq_refines [DecidableEq V] {otherHash : K → UInt64} {OtherRefines : T → PMap K V → Prop}
    {OtherHolds : T → Slot → K → V → Prop} {OtherReady : T → Prop}
    (laws : RawTableLaws hash Refines Holds Ready)
    (otherLaws : RawTableLaws otherHash OtherRefines OtherHolds OtherReady) {fuel : Nat} {table other : T}
    {map otherMap : PMap K V} {result : Bool} (refines : Refines table map)
    (otherRefines : OtherRefines other otherMap)
    (returned : eq fuel (⟨table, hash⟩ : GenericMap T K) ⟨other, otherHash⟩ = some result) :
    result = true ↔ map = otherMap := by
  have listed := laws.iter_enumerates refines
  have otherListed := otherLaws.iter_enumerates otherRefines
  have lengths : RawTableApi.len table = RawTableApi.len other ↔
      (iter (⟨table, hash⟩ : GenericMap T K)).length =
        (iter (⟨other, otherHash⟩ : GenericMap T K)).length := by
    rw [← laws.iter_length refines, ← otherLaws.iter_length otherRefines]
    rfl
  unfold eq at returned
  split at returned
  · rename_i different
    cases returned
    simp only [Bool.false_eq_true, false_iff]
    rintro rfl
    exact different (lengths.mpr (listed.perm otherListed).length_eq)
  · rename_i sameLength
    have sameLength : RawTableApi.len table = RawTableApi.len other := not_not.mp sameLength
    rw [allEqual_refines otherLaws otherRefines _ returned]
    constructor
    · intro included
      have subset : iter (⟨table, hash⟩ : GenericMap T K) ⊆
          iter (⟨other, otherHash⟩ : GenericMap T K) := by
        intro entry member
        exact (otherListed.mem_iff entry.1 entry.2).mpr (included entry member)
      -- An injective inclusion between lists of equal length is a permutation.
      have permuted := (List.subperm_of_subset (PMap.nodup_of_nodup_keys listed.nodup) subset).perm_of_length_le
        (lengths.mp sameLength).ge
      funext key
      ext value
      rw [← listed.mem_iff, ← otherListed.mem_iff]
      exact permuted.mem_iff
    · rintro rfl entry member
      exact (listed.mem_iff entry.1 entry.2).mp member

end GenericMap

end Optimap.Map
