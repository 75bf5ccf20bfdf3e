import Optimap.Map.GenericMapTotal
import Optimap.Tomb.Operations

/-!
# The maps over the tombstone tables

Both engines meet the raw table contract and never run out of EMPTY slots, so
every run of `GenericMap` over them returns what a finite map answers.
-/

set_option autoImplicit false
set_option linter.unusedSectionVars false

namespace Optimap.Tomb

open Lib Hash Map

namespace RawTable

variable {engine : Engine} {tag : TombstoneTag} {S : Type → Type → Type} [KvStorage S] {K V : Type}
  [DecidableEq K]

/-- One more EMPTY slot may be used. -/
def Ready (table : RawTable engine tag S K V) : Prop := 0 < table.growthLeft

theorem rawTableLaws (hash : K → UInt64) :
    RawTableLaws (T := RawTable engine tag S K V) hash (Refines hash) Holds Ready where
  new := new_refines
  withCapacity capacity := by
    change (withCapacity capacity).Refines hash PMap.empty
    unfold withCapacity
    split
    · exact new_refines
    · exact allocate_refines (engine.groupsForCapacity_power capacity) rfl
  stores refines := refines.stores
  holds_entry holds := holds.readSlot
  writeValue refines holds value := by
    refine ⟨writeValue_refines refines holds value,
      (writeValue_holds_iff holds value _ _ _).mpr (.inl ⟨rfl, rfl, rfl⟩), ?_⟩
    intro other otherKey otherValue different otherHolds
    exact (writeValue_holds_iff holds value _ _ _).mpr (.inr ⟨different, otherHolds⟩)
  isAllocated refines unallocated :=
    refines.map_eq_empty (refines.valid.len_of_unallocated unallocated)
  clear := clear_refines
  findByHash_none refines := findByHash_refines refines
  findByHash_some refines := findByHash_refines refines
  insertOrReplace := insertOrReplace_refines
  findForEntry_found refines := findForEntry_refines refines
  findForEntry_vacant {_ _ _ _ slot} refines returned := by
    have outcome := findForEntry_refines refines returned
    cases slot with
    | none => exact outcome
    | some slot => exact outcome.1
  insertAt refines returned value := by
    obtain ⟨absent, vacant, room⟩ := findForEntry_refines refines returned
    exact insertAt_refines refines absent (refines.valid.allocated_of_growth room) vacant fun _ => room
  ensureCapacity := ensureCapacity_refines
  insertNoCheck := insertNoCheck_refines
  removeByHash := removeByHash_refines
  eraseSlot refines holds := by
    refine ⟨eraseSlot_refines refines holds, ?_⟩
    intro other otherKey otherValue different otherHolds
    exact (eraseSlot_holds_iff (allocated_of_used holds.1.2.1) holds.1.1 _ _ _ _).mpr
      ⟨different, otherHolds⟩
  reserve := reserve_refines
  shrinkToFit := shrinkToFit_refines
  iterSlots_nodup {table _} refines := by
    change table.iterSlots.Nodup
    rw [refines.valid.iterSlots_eq]
    exact slotsWhere_nodup _ _
  mem_iterSlots {table _} refines slot := by
    change slot ∈ table.iterSlots ↔ _
    rw [refines.valid.iterSlots_eq]
    exact refines.valid.mem_occupiedSlots_iff slot
  len {table _} refines := by
    change table.len = table.iterSlots.length
    rw [refines.valid.iterSlots_eq, refines.valid.len_eq]
  intoIter _ := rfl
  cloneTable := cloneTable_refines

theorem rawTableTotal (hash : K → UInt64) :
    RawTableTotal (T := RawTable engine tag S K V) hash (Refines hash) where
  findByHash := findByHash_total
  insertOrReplace := insertOrReplace_total
  findForEntry := findForEntry_total
  ensureCapacity := ensureCapacity_total
  insertNoCheck := insertNoCheck_total
  removeByHash := removeByHash_total
  reserve := reserve_total
  shrinkToFit := shrinkToFit_total

/-- Each entry of the map in one slot, and nothing else. -/
structure Carries (table : RawTable engine tag S K V) (map : PMap K V) : Prop where
  lookup : ∀ key value, map key = some value ↔ ∃ slot, table.Holds slot key value
  keys_unique : ∀ first second key left right, table.Holds first key left →
    table.Holds second key right → first = second
  len_occupied : table.len = table.occupiedSlots.length

/-- Exact growth accounting: every slot that is not EMPTY is charged, and one is
always left. -/
structure Accounted (table : RawTable engine tag S K V) : Prop where
  allocated : table.isAllocated = true →
    table.usedSlots.length ≤ engine.maxLoadFor table.numGroups ∧
      table.growthLeft = engine.maxLoadFor table.numGroups - table.usedSlots.length
  unallocated : table.isAllocated = false → table.growthLeft = 0 ∧ table.usedSlots = []
  empty_left : ∃ slot, table.InRange slot ∧ table.metaByte slot.1 slot.2 = EMPTY

/-- How a table stands for a finite map. The probe loops return within
`num_groups` rounds for every hash and predicate, and a rehash to the same size
or to twice the size keeps contents and accounting. -/
structure StandsFor (hash : K → UInt64) (table : RawTable engine tag S K V) (map : PMap K V) : Prop where
  carries : table.Carries map
  accounted : table.Accounted
  iter : PMap.Enumerates (table.iterSlots.filterMap (RawTableApi.entryAt table)) map
  intoIter : PMap.Enumerates (RawTableApi.intoIter table) map
  get : ∀ key fuel, table.numGroups ≤ fuel →
    (⟨table, hash⟩ : GenericMap (RawTable engine tag S K V) K).get fuel key = some (map key)
  find_returns : ∀ h eq, ∃ result, ∀ fuel, table.numGroups ≤ fuel →
    table.findByHash fuel h eq = some result
  locate_returns : ∀ h eq, ∃ result, ∀ fuel, table.numGroups ≤ fuel →
    table.findOrLocate fuel h eq = some result
  insert_returns : ∀ h key value, ∃ result, ∀ fuel, table.numGroups ≤ fuel →
    table.insertNoCheck fuel h key value = some result
  rehash : ∀ newNumGroups, newNumGroups = table.numGroups ∨ newNumGroups = table.numGroups * 2 →
    ∃ later, Settles (fun fuel => rehashWith fuel hash table newNumGroups) later ∧
      later.numGroups = newNumGroups ∧ later.Carries map ∧ later.Accounted

variable {hash : K → UInt64} {table : RawTable engine tag S K V} {map : PMap K V}

theorem Refines.carries (refines : table.Refines hash map) : table.Carries map where
  lookup := refines.stores.lookup
  keys_unique _ _ _ _ _ first second := refines.stores.unique first second
  len_occupied := refines.valid.len_eq

theorem Refines.accounted (refines : table.Refines hash map) : table.Accounted where
  allocated live := by
    have maxLoad := refines.valid.maxLoad_eq (refines.valid.isAllocated_iff.mp live)
    have growth := refines.valid.growth
    rw [maxLoad] at growth
    exact ⟨Nat.le.intro ((Nat.add_comm _ _).trans growth), Nat.eq_sub_of_add_eq growth⟩
  unallocated dead := by
    have free : ¬ table.Allocated := fun allocated => by
      rw [refines.valid.isAllocated_iff.mpr allocated] at dead
      cases dead
    rcases refines.valid.shaped with ⟨_, _, maxLoad⟩ | ⟨allocated, _⟩
    · have growth := refines.valid.growth
      rw [maxLoad, Nat.add_eq_zero_iff] at growth
      exact ⟨growth.1, List.length_eq_zero_iff.mp growth.2⟩
    · exact absurd allocated free
  empty_left := refines.valid.exists_empty

/-- The entries are within the nominal load. -/
theorem Refines.len_le_load (refines : table.Refines hash map) : table.len ≤ engine.maxLoadFor table.numGroups := by
  have growth := refines.valid.growth
  have lenLe := refines.valid.len_le
  rcases refines.valid.shaped with ⟨_, _, maxLoad⟩ | ⟨_, maxLoad⟩
  · omega
  · rw [numGroups]
    omega

/-- The entries fit a table of the same size, and one of twice the size. -/
theorem Refines.rehash_keeps (refines : table.Refines hash map) {newNumGroups : Nat}
    (size : newNumGroups = table.numGroups ∨ newNumGroups = table.numGroups * 2) :
    ∃ later, Settles (fun fuel => rehashWith fuel hash table newNumGroups) later ∧
      later.numGroups = newNumGroups ∧ later.Carries map ∧ later.Accounted := by
  obtain ⟨bits, power⟩ := refines.valid.power
  have powers : ∃ bits, newNumGroups = 2 ^ bits := by
    rcases size with rfl | rfl
    · exact ⟨bits, power⟩
    · exact ⟨bits + 1, by rw [numGroups, power, pow_succ]⟩
  have fits := refines.len_le_load
  have room : table.len ≤ engine.maxLoadFor newNumGroups := by
    rcases size with rfl | rfl
    · exact fits
    · have double := engine.maxLoadFor_double table.numGroups
      omega
  obtain ⟨later, settles⟩ := rehashWith_total refines powers room
  obtain ⟨fuel, returned⟩ := settles.returned
  obtain ⟨laterRefines, mask, _⟩ := rehashWith_refines refines powers room returned
  refine ⟨later, settles, ?_, laterRefines.carries, laterRefines.accounted⟩
  obtain ⟨newBits, rfl⟩ := powers
  rw [numGroups, mask]
  exact Nat.sub_add_cancel Nat.one_le_two_pow

theorem Refines.standsFor (refines : table.Refines hash map) : table.StandsFor hash map where
  carries := refines.carries
  accounted := refines.accounted
  iter := (rawTableLaws hash).iter_enumerates refines
  intoIter := (rawTableLaws hash).iter_enumerates refines
  get key fuel large := by
    obtain ⟨slot, returns⟩ := findByHash_bounded refines.valid (hash key) fun stored => stored = key
    have found : (⟨table, hash⟩ : GenericMap (RawTable engine tag S K V) K).get fuel key =
        some (slot.bind table.value) := by
      change (table.findByHash fuel (hash key) _ >>= _) = _
      rw [returns fuel large]
      rfl
    rw [found, GenericMap.get_refines (rawTableLaws hash) refines found]
  find_returns := findByHash_bounded refines.valid
  locate_returns := findOrLocate_bounded refines.valid
  insert_returns := insertNoCheck_bounded refines.valid
  rehash _ size := refines.rehash_keeps size

/-- Every run over a tombstone table returns, is answered as by a finite map, and
ends in a table that stands for that map with exact growth accounting. -/
theorem tombstone_run_refines_finiteMap (engine : Engine) (tag : TombstoneTag)
    (S : Type → Type → Type) [KvStorage S] (hash : K → UInt64) (capacity : Nat)
    (ops : List (GenericOp K V)) :
    ∃ results final,
      Settles (fun fuel => (GenericMap.withCapacityAndHasher capacity hash :
        GenericMap (RawTable engine tag S K V) K).run fuel ops) (results, final) ∧
      ∃ map, AnswersAll GenericAnswers PMap.empty ops results map ∧
        final.table.StandsFor hash map := by
  have start := (@rawTableLaws engine tag S _ K V _ hash).withCapacity capacity
  obtain ⟨⟨results, final⟩, settles⟩ :=
    GenericMap.run_total (rawTableLaws hash) (rawTableTotal hash) ops start
  obtain ⟨fuel, returned⟩ := settles.returned
  obtain ⟨map, answers, refines, _⟩ :=
    GenericMap.run_refines (rawTableLaws hash) ops _ PMap.empty results start returned
  exact ⟨results, final, settles, map, answers, refines.standsFor⟩

end RawTable

end Optimap.Tomb
