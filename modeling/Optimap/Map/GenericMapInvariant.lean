import Optimap.Map.GenericMapRefinement

/-!
# Invariants under a condition on removals

An engine may keep a further invariant only while the removals meet a condition
on the table they start from. The condition and the invariant are carried from
the engine to whole runs of `GenericMap`.
-/

set_option autoImplicit false

namespace Optimap.Map

open Lib RawTableApi

/-- What an engine owes for an invariant `Inv` that erasing a slot preserves
when `Removable` holds of it. `Removable` outlasts changes to other slots. -/
structure RawTableInvariant {T K V : Type} [DecidableEq K] [RawTableApi T K V] (hash : K → UInt64)
    (Refines : T → PMap K V → Prop) (Holds : T → Slot → K → V → Prop) (Ready : T → Prop)
    (Inv : T → Prop) (Removable : T → Slot → K → Prop) : Prop where
  new : Inv new
  withCapacity (capacity : Nat) : Inv (withCapacity capacity)
  writeValue {table map slot key old} (refines : Refines table map) (inv : Inv table)
    (holds : Holds table slot key old) (value : V) : Inv (writeValue table slot value)
  clear {table map} (refines : Refines table map) (inv : Inv table) : Inv (clear table)
  insertOrReplace {fuel table map key value result table'} (refines : Refines table map)
    (inv : Inv table) :
    insertOrReplace fuel hash table key value = some (result, table') → Inv table'
  insertAt {fuel table map key slot mask} (refines : Refines table map) (inv : Inv table) :
    findForEntry fuel table (hash key) key = some (.vacant (some (slot, mask))) → ∀ value,
    Inv (insertAt table (hash key) slot key value mask)
  ensureCapacity {fuel table map table'} (refines : Refines table map) (inv : Inv table) :
    ensureCapacity fuel hash table = some table' → Inv table'
  insertNoCheck {fuel table map key value slot table'} (refines : Refines table map)
    (inv : Inv table) (ready : Ready table) (absent : map key = none) :
    insertNoCheck fuel table (hash key) key value = some (slot, table') → Inv table'
  eraseSlot {table map slot key value} (refines : Refines table map) (inv : Inv table)
    (holds : Holds table slot key value) (removable : Removable table slot key) :
    Inv (eraseSlot table (hash key) slot)
  removeByHash {fuel table map key result table'} (refines : Refines table map) (inv : Inv table)
    (removable : ∀ slot value, Holds table slot key value → Removable table slot key) :
    removeByHash fuel table (hash key) (fun stored => stored = key) = some (result, table') →
    Inv table'
  reserve {fuel table map additional table'} (refines : Refines table map) (inv : Inv table) :
    reserve fuel hash table additional = some table' → Inv table'
  shrinkToFit {fuel table map table'} (refines : Refines table map) (inv : Inv table) :
    shrinkToFit fuel hash table = some table' → Inv table'
  cloneTable {table map} (refines : Refines table map) (inv : Inv table) : Inv (cloneTable table)
  removable_writeValue {table map slot key old} (refines : Refines table map)
    (holds : Holds table slot key old) (value : V) {other otherKey} :
    Removable table other otherKey → Removable (RawTableApi.writeValue table slot value) other otherKey
  removable_eraseSlot {table map slot key value} (refines : Refines table map)
    (holds : Holds table slot key value) {other otherKey} :
    Removable table other otherKey →
    Removable (RawTableApi.eraseSlot table (hash key) slot) other otherKey

namespace GenericMap

variable {T K V : Type} [DecidableEq K] [RawTableApi T K V] {hash : K → UInt64}
  {Refines : T → PMap K V → Prop} {Holds : T → Slot → K → V → Prop} {Ready : T → Prop}
  {Inv : T → Prop} {Removable : T → Slot → K → Prop}

/-- Every entry the operation may remove from the table is removable. -/
def RemovesOnly (Holds : T → Slot → K → V → Prop) (Removable : T → Slot → K → Prop) (table : T) :
    GenericOp K V → Prop
  | .common (.remove key) | .common (.removeEntry key) | .rawRemove key =>
      ∀ slot value, Holds table slot key value → Removable table slot key
  | .common (.retain predicate) => ∀ slot key value, Holds table slot key value →
      (predicate key value).1 = false → Removable table slot key
  | _ => True

/-- Each operation of the run meets the condition in the map it starts from. -/
def RunMeets (Meets : GenericMap T K → GenericOp K V → Prop) (fuel : Nat) (map : GenericMap T K) :
    List (GenericOp K V) → Prop
  | [] => True
  | op :: ops => Meets map op ∧
      ∀ result next, map.step fuel op = some (result, next) → next.RunMeets Meets fuel ops

theorem insertGrowing_invariant (laws : RawTableLaws hash Refines Holds Ready)
    (invariant : RawTableInvariant hash Refines Holds Ready Inv Removable) {fuel : Nat} {table : T}
    {map : PMap K V} {key : K} {value : V} {slot : Slot} {next : GenericMap T K}
    (refines : Refines table map) (inv : Inv table) (absent : map key = none)
    (returned : (⟨table, hash⟩ : GenericMap T K).insertGrowing fuel key value = some (slot, next)) :
    Inv next.table := by
  obtain ⟨grown, ensured, returned⟩ := Option.bind_eq_some_iff.mp returned
  obtain ⟨⟨found, table'⟩, ran, same⟩ := Option.bind_eq_some_iff.mp returned
  cases same
  obtain ⟨grownRefines, ready⟩ := laws.ensureCapacity refines ensured
  exact invariant.insertNoCheck grownRefines (invariant.ensureCapacity refines inv ensured) ready
    absent ran

theorem entry_invariant (invariant : RawTableInvariant hash Refines Holds Ready Inv Removable)
    {fuel : Nat} {table : T} {map : PMap K V} {key : K} {probe : EntryProbe} {next : GenericMap T K}
    (refines : Refines table map) (inv : Inv table)
    (returned : (⟨table, hash⟩ : GenericMap T K).entry fuel key = some (probe, next)) :
    Inv next.table := by
  obtain ⟨prepared, allocated, returned⟩ := Option.bind_eq_some_iff.mp returned
  obtain ⟨found, probed, same⟩ := Option.bind_eq_some_iff.mp returned
  cases same
  unfold allocate at allocated
  split at allocated
  · cases allocated
    exact inv
  · exact invariant.reserve refines inv allocated

theorem vacantInsert_invariant (laws : RawTableLaws hash Refines Holds Ready)
    (invariant : RawTableInvariant hash Refines Holds Ready Inv Removable) {fuel : Nat} {table : T}
    {map : PMap K V} {key : K} {value : V} {vacant : Option (Slot × UInt8)} {slot : Slot}
    {next : GenericMap T K} (refines : Refines table map) (inv : Inv table)
    (probed : findForEntry fuel table (hash key) key = some (.vacant vacant))
    (returned : (⟨table, hash⟩ : GenericMap T K).vacantInsert fuel vacant key value = some (slot, next)) :
    Inv next.table := by
  cases vacant with
  | none =>
      exact insertGrowing_invariant laws invariant refines inv
        (laws.findForEntry_vacant refines probed) returned
  | some located =>
      obtain ⟨located, mask⟩ := located
      cases returned
      exact invariant.insertAt refines inv probed value

theorem extend_invariant (laws : RawTableLaws hash Refines Holds Ready)
    (invariant : RawTableInvariant hash Refines Holds Ready Inv Removable) {fuel : Nat}
    {next : GenericMap T K} (entries : List (K × V)) :
    ∀ (table : T) (map : PMap K V), Refines table map → Inv table →
      (⟨table, hash⟩ : GenericMap T K).extend fuel entries = some next → Inv next.table := by
  induction entries with
  | nil =>
      intro table map _ inv returned
      cases returned
      exact inv
  | cons entry entries ih =>
      intro table map refines inv returned
      obtain ⟨⟨result, ⟨middle, builder⟩⟩, inserted, rest⟩ := Option.bind_eq_some_iff.mp returned
      obtain ⟨_, middleRefines, rfl⟩ := insert_refines laws refines inserted
      obtain ⟨⟨found, table'⟩, ran, same⟩ := Option.bind_eq_some_iff.mp inserted
      cases same
      exact ih _ _ middleRefines (invariant.insertOrReplace refines inv ran) rest

/-- The loop of `retain`: entries still ahead stay in place and removable. -/
private theorem foldl_retainSlot_invariant (laws : RawTableLaws hash Refines Holds Ready)
    (invariant : RawTableInvariant hash Refines Holds Ready Inv Removable)
    (predicate : K → V → Bool × V) (slots : List Slot) :
    ∀ (table : T) (map : PMap K V), Refines table map → Inv table → slots.Nodup →
      (∀ slot ∈ slots, ∃ key stored, Holds table slot key stored ∧
        ((predicate key stored).1 = false → Removable table slot key)) →
      Inv (slots.foldl (retainSlot predicate hash) table) := by
  induction slots with
  | nil => intro table map _ inv _ _; exact inv
  | cons slot slots ih =>
      intro table map refines inv unique held
      obtain ⟨slotFresh, restUnique⟩ := List.nodup_cons.mp unique
      have ahead : ∀ other ∈ slots, other ≠ slot := fun other member same => slotFresh (same ▸ member)
      obtain ⟨key, stored, holds, removable⟩ := held slot List.mem_cons_self
      obtain ⟨written, writtenHolds, writtenOthers⟩ :=
        laws.writeValue refines holds (predicate key stored).2
      have writtenInv := invariant.writeValue refines inv holds (predicate key stored).2
      have round : retainSlot predicate hash table slot =
          if (predicate key stored).1 then writeValue table slot (predicate key stored).2
          else eraseSlot (writeValue table slot (predicate key stored).2) (hash key) slot := by
        simp only [retainSlot, laws.holds_entry holds]
      rw [List.foldl_cons, round]
      by_cases keep : (predicate key stored).1 = true
      · rw [if_pos keep]
        refine ih _ _ written writtenInv restUnique fun other member => ?_
        obtain ⟨otherKey, otherStored, otherHolds, otherRemovable⟩ :=
          held other (List.mem_cons_of_mem _ member)
        exact ⟨otherKey, otherStored, writtenOthers _ _ _ (ahead other member) otherHolds,
          fun drop => invariant.removable_writeValue refines holds _ (otherRemovable drop)⟩
      · rw [if_neg keep]
        have removableNow := invariant.removable_writeValue refines holds (predicate key stored).2
          (removable (by simpa using keep))
        obtain ⟨erased, erasedOthers⟩ := laws.eraseSlot written writtenHolds
        refine ih _ _ erased (invariant.eraseSlot written writtenInv writtenHolds removableNow)
          restUnique fun other member => ?_
        obtain ⟨otherKey, otherStored, otherHolds, otherRemovable⟩ :=
          held other (List.mem_cons_of_mem _ member)
        have different := ahead other member
        exact ⟨otherKey, otherStored,
          erasedOthers _ _ _ different (writtenOthers _ _ _ different otherHolds),
          fun drop => invariant.removable_eraseSlot written writtenHolds
            (invariant.removable_writeValue refines holds _ (otherRemovable drop))⟩

theorem retain_invariant (laws : RawTableLaws hash Refines Holds Ready)
    (invariant : RawTableInvariant hash Refines Holds Ready Inv Removable)
    (predicate : K → V → Bool × V) {table : T} {map : PMap K V} (refines : Refines table map)
    (inv : Inv table) (removable : ∀ slot key value, Holds table slot key value →
      (predicate key value).1 = false → Removable table slot key) :
    Inv ((⟨table, hash⟩ : GenericMap T K).retain predicate).table := by
  unfold retain
  split
  · refine foldl_retainSlot_invariant laws invariant predicate (iterSlots table) table map refines inv
      (laws.iterSlots_nodup refines) fun slot member => ?_
    obtain ⟨key, stored, holds⟩ := (laws.mem_iterSlots refines slot).mp member
    exact ⟨key, stored, holds, removable slot key stored holds⟩
  · exact inv

theorem step_invariant (laws : RawTableLaws hash Refines Holds Ready)
    (invariant : RawTableInvariant hash Refines Holds Ready Inv Removable) {fuel : Nat} {table : T}
    {map : PMap K V} {op : GenericOp K V} {result : MapResult K V} {next : GenericMap T K}
    (refines : Refines table map) (inv : Inv table) (removes : RemovesOnly Holds Removable table op)
    (returned : (⟨table, hash⟩ : GenericMap T K).step fuel op = some (result, next)) :
    Inv next.table := by
  cases op with
  | rawInsert key value =>
      obtain ⟨⟨answer, inserted⟩, ran, same⟩ := Option.bind_eq_some_iff.mp returned
      cases same
      obtain ⟨found, probed, placed⟩ := Option.bind_eq_some_iff.mp ran
      cases found with
      | some slot => cases placed; exact inv
      | none =>
          obtain ⟨⟨slot, later⟩, grown, same⟩ := Option.bind_eq_some_iff.mp placed
          cases same
          exact insertGrowing_invariant laws invariant refines inv
            (laws.findByHash_none refines probed) grown
  | rawRemove key =>
      obtain ⟨⟨answer, removed⟩, ran, same⟩ := Option.bind_eq_some_iff.mp returned
      cases same
      obtain ⟨found, probed, erased⟩ := Option.bind_eq_some_iff.mp ran
      cases found with
      | some slot =>
          cases erased
          obtain ⟨stored, holds⟩ := laws.findByHash_some refines probed
          exact invariant.eraseSlot refines inv holds (removes slot stored holds)
      | none => cases erased; exact inv
  | common op =>
      cases op with
      | get key =>
          obtain ⟨answer, ran, same⟩ := Option.bind_eq_some_iff.mp returned
          cases same
          exact inv
      | insert key value =>
          obtain ⟨⟨answer, inserted⟩, ran, same⟩ := Option.bind_eq_some_iff.mp returned
          cases same
          obtain ⟨⟨found, table'⟩, placed, same⟩ := Option.bind_eq_some_iff.mp ran
          cases same
          exact invariant.insertOrReplace refines inv placed
      | remove key =>
          obtain ⟨⟨answer, removed⟩, ran, same⟩ := Option.bind_eq_some_iff.mp returned
          cases same
          obtain ⟨⟨pair, rest⟩, ran, same⟩ := Option.bind_eq_some_iff.mp ran
          cases same
          obtain ⟨⟨found, table'⟩, erased, same⟩ := Option.bind_eq_some_iff.mp ran
          cases same
          exact invariant.removeByHash refines inv removes erased
      | removeEntry key =>
          obtain ⟨⟨answer, removed⟩, ran, same⟩ := Option.bind_eq_some_iff.mp returned
          cases same
          obtain ⟨⟨found, table'⟩, erased, same⟩ := Option.bind_eq_some_iff.mp ran
          cases same
          exact invariant.removeByHash refines inv removes erased
      | entryInsert key value =>
          obtain ⟨⟨answer, inserted⟩, ran, same⟩ := Option.bind_eq_some_iff.mp returned
          cases same
          obtain ⟨⟨probe, ⟨prepared, prehash⟩⟩, entered, placed⟩ := Option.bind_eq_some_iff.mp ran
          have preparedInv := entry_invariant invariant refines inv entered
          obtain ⟨preparedRefines, rfl, probed⟩ := entry_refines laws refines entered
          cases probe with
          | found slot => cases placed; exact preparedInv
          | vacant slot =>
              obtain ⟨⟨located, later⟩, filled, same⟩ := Option.bind_eq_some_iff.mp placed
              cases same
              exact vacantInsert_invariant laws invariant preparedRefines preparedInv probed filled
      | tryInsert key value =>
          obtain ⟨⟨answer, inserted⟩, ran, same⟩ := Option.bind_eq_some_iff.mp returned
          cases same
          obtain ⟨⟨probe, ⟨prepared, prehash⟩⟩, entered, placed⟩ := Option.bind_eq_some_iff.mp ran
          have preparedInv := entry_invariant invariant refines inv entered
          obtain ⟨preparedRefines, rfl, probed⟩ := entry_refines laws refines entered
          cases probe with
          | found slot => cases placed; exact preparedInv
          | vacant slot =>
              obtain ⟨⟨located, later⟩, filled, same⟩ := Option.bind_eq_some_iff.mp placed
              cases same
              exact vacantInsert_invariant laws invariant preparedRefines preparedInv probed filled
      | extend entries =>
          obtain ⟨extended, ran, same⟩ := Option.bind_eq_some_iff.mp returned
          cases same
          exact extend_invariant laws invariant entries table map refines inv ran
      | retain predicate =>
          cases returned
          exact retain_invariant laws invariant predicate refines inv removes
      | clear => cases returned; exact invariant.clear refines inv
      | reserve additional =>
          obtain ⟨reserved, ran, same⟩ := Option.bind_eq_some_iff.mp returned
          cases same
          obtain ⟨table', resized, same⟩ := Option.bind_eq_some_iff.mp ran
          cases same
          exact invariant.reserve refines inv resized
      | shrinkToFit =>
          obtain ⟨shrunk, ran, same⟩ := Option.bind_eq_some_iff.mp returned
          cases same
          obtain ⟨table', resized, same⟩ := Option.bind_eq_some_iff.mp ran
          cases same
          exact invariant.shrinkToFit refines inv resized
      | clone => cases returned; exact invariant.cloneTable refines inv
      | drain => cases returned; exact invariant.new
      | iter => cases returned; exact inv
      | len => cases returned; exact inv

/-- The invariant in every state of a run whose removals meet the condition. -/
theorem run_invariant (laws : RawTableLaws hash Refines Holds Ready)
    (invariant : RawTableInvariant hash Refines Holds Ready Inv Removable) {fuel : Nat}
    {final : GenericMap T K} (ops : List (GenericOp K V)) :
    ∀ (table : T) (map : PMap K V) (results : List (MapResult K V)), Refines table map → Inv table →
      (⟨table, hash⟩ : GenericMap T K).RunMeets
        (fun current op => RemovesOnly Holds Removable current.table op) fuel ops →
      (⟨table, hash⟩ : GenericMap T K).run fuel ops = some (results, final) →
      Inv final.table ∧ ∃ map', Refines final.table map' := by
  induction ops with
  | nil =>
      intro table map results refines inv _ returned
      cases returned
      exact ⟨inv, map, refines⟩
  | cons op ops ih =>
      intro table map results refines inv meets returned
      obtain ⟨⟨result, ⟨middle, builder⟩⟩, stepped, returned⟩ := Option.bind_eq_some_iff.mp returned
      obtain ⟨⟨rest, last⟩, ran, same⟩ := Option.bind_eq_some_iff.mp returned
      cases same
      have middleInv := step_invariant laws invariant refines inv meets.1 stepped
      obtain ⟨middleMap, _, middleRefines, rfl⟩ := step_refines laws refines stepped
      exact ih middle middleMap rest middleRefines middleInv (meets.2 _ _ stepped) ran

end GenericMap

/-- An invariant that no removal endangers can be carried inside `Refines`. -/
theorem RawTableLaws.strengthen {T K V : Type} [DecidableEq K] [RawTableApi T K V] {hash : K → UInt64}
    {Refines : T → PMap K V → Prop} {Holds : T → Slot → K → V → Prop} {Ready : T → Prop}
    {Inv : T → Prop} {Removable : T → Slot → K → Prop} (laws : RawTableLaws hash Refines Holds Ready)
    (invariant : RawTableInvariant hash Refines Holds Ready Inv Removable)
    (always : ∀ table slot key, Removable table slot key) :
    RawTableLaws hash (fun table map => Refines table map ∧ Inv table) Holds Ready where
  new := ⟨laws.new, invariant.new⟩
  withCapacity capacity := ⟨laws.withCapacity capacity, invariant.withCapacity capacity⟩
  stores refines := laws.stores refines.1
  holds_entry := laws.holds_entry
  writeValue refines holds value := by
    obtain ⟨written, here, others⟩ := laws.writeValue refines.1 holds value
    exact ⟨⟨written, invariant.writeValue refines.1 refines.2 holds value⟩, here, others⟩
  isAllocated refines := laws.isAllocated refines.1
  clear refines := ⟨laws.clear refines.1, invariant.clear refines.1 refines.2⟩
  findByHash_none refines := laws.findByHash_none refines.1
  findByHash_some refines := laws.findByHash_some refines.1
  insertOrReplace refines returned := by
    obtain ⟨result, inserted⟩ := laws.insertOrReplace refines.1 returned
    exact ⟨result, inserted, invariant.insertOrReplace refines.1 refines.2 returned⟩
  findForEntry_found refines := laws.findForEntry_found refines.1
  findForEntry_vacant refines := laws.findForEntry_vacant refines.1
  insertAt refines returned value := by
    obtain ⟨inserted, holds⟩ := laws.insertAt refines.1 returned value
    exact ⟨⟨inserted, invariant.insertAt refines.1 refines.2 returned value⟩, holds⟩
  ensureCapacity refines returned := by
    obtain ⟨grown, ready⟩ := laws.ensureCapacity refines.1 returned
    exact ⟨⟨grown, invariant.ensureCapacity refines.1 refines.2 returned⟩, ready⟩
  insertNoCheck refines ready absent returned := by
    obtain ⟨inserted, holds⟩ := laws.insertNoCheck refines.1 ready absent returned
    exact ⟨⟨inserted, invariant.insertNoCheck refines.1 refines.2 ready absent returned⟩, holds⟩
  removeByHash refines returned := by
    obtain ⟨result, removed⟩ := laws.removeByHash refines.1 returned
    exact ⟨result, removed,
      invariant.removeByHash refines.1 refines.2 (fun slot _ _ => always _ slot _) returned⟩
  eraseSlot refines holds := by
    obtain ⟨erased, others⟩ := laws.eraseSlot refines.1 holds
    exact ⟨⟨erased, invariant.eraseSlot refines.1 refines.2 holds (always _ _ _)⟩, others⟩
  reserve refines returned :=
    ⟨laws.reserve refines.1 returned, invariant.reserve refines.1 refines.2 returned⟩
  shrinkToFit refines returned :=
    ⟨laws.shrinkToFit refines.1 returned, invariant.shrinkToFit refines.1 refines.2 returned⟩
  iterSlots_nodup refines := laws.iterSlots_nodup refines.1
  mem_iterSlots refines := laws.mem_iterSlots refines.1
  len refines := laws.len refines.1
  intoIter refines := laws.intoIter refines.1
  cloneTable refines := ⟨laws.cloneTable refines.1, invariant.cloneTable refines.1 refines.2⟩

end Optimap.Map
