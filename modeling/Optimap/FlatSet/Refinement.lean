import Optimap.FlatSet.Simulation
import Optimap.FlatSet.UnorderedFlatSet

/-!
# The set refines a finite set

A set stands for the elements its table holds, with the table seen as one of the
overflow-bit engine. Each path of the set is followed over that engine's lemmas.
-/

set_option autoImplicit false
set_option linter.unusedSectionVars false

namespace Optimap.FlatSet

open Lib Hash Map Overflow

section Members
variable {T : Type} [DecidableEq T]

/-- The elements as a map to the unit value. -/
def members (elements : Finset T) : PMap T Unit := fun value => if value ∈ elements then some () else none

theorem members_eq_some (elements : Finset T) (value : T) (stored : Unit) :
    members elements value = some stored ↔ value ∈ elements := by
  simp [members]

theorem members_eq_none (elements : Finset T) (value : T) :
    members elements value = none ↔ value ∉ elements := by
  simp [members]

theorem members_insert (elements : Finset T) (value : T) :
    members (insert value elements) = (members elements).insert value () := by
  funext other
  by_cases same : other = value <;> simp [members, PMap.insert, same]

theorem members_insert_self {elements : Finset T} {value : T} (member : value ∈ elements) :
    insert value elements = elements :=
  Finset.insert_eq_of_mem member

theorem members_erase (elements : Finset T) (value : T) :
    members (elements.erase value) = (members elements).erase value := by
  funext other
  by_cases same : other = value <;> simp [members, PMap.erase, same]

theorem members_filter (elements : Finset T) (f : T → Bool) :
    members (elements.filter fun value => f value = true) =
      (members elements).retain fun value _ => (f value, ()) := by
  funext value
  by_cases member : value ∈ elements <;> by_cases kept : f value = true <;>
    simp [members, PMap.retain, member, kept]

end Members

namespace UnorderedFlatSet

variable {feature : ReducedHash} {T : Type} [DecidableEq T] {set next : UnorderedFlatSet feature T}
  {elements : Finset T}

/-- The set holds exactly the elements. -/
def Refines (set : UnorderedFlatSet feature T) (elements : Finset T) : Prop :=
  set.table.toOverflow.Refines set.hashBuilder (members elements)

theorem withHasher_refines (hash : T → UInt64) : (withHasher hash : UnorderedFlatSet feature T).Refines ∅ :=
  Overflow.RawTable.new_refines

theorem withCapacityAndHasher_refines (capacity : Nat) (hash : T → UInt64) :
    (withCapacityAndHasher capacity hash : UnorderedFlatSet feature T).Refines ∅ := by
  change (RawTable.withCapacity capacity : RawTable feature T Unit).toOverflow.Refines hash PMap.empty
  rw [RawTable.toOverflow_withCapacity]
  exact (Overflow.RawTable.rawTableLaws hash).withCapacity capacity

/-- A slot found for a value holds it; a miss means it is absent. -/
theorem find_refines {fuel : Nat} {value : T} {found : Option Slot} (refines : set.Refines elements)
    (returned : set.table.findByHash fuel (set.hashBuilder value) (fun stored => stored = value) = some found) :
    (∀ slot, found = some slot → value ∈ elements ∧ set.table.bucket slot.1 slot.2 = some (value, ())) ∧
      (found = none → value ∉ elements) := by
  rw [← RawTable.findByHash_toOverflow] at returned
  have outcome := Overflow.RawTable.findByHash_refines refines returned
  cases found with
  | none => exact ⟨by simp, fun _ => (members_eq_none elements value).mp outcome⟩
  | some slot =>
      obtain ⟨stored, holds⟩ := outcome
      refine ⟨fun other same => ?_, by simp⟩
      cases same
      have present := (refines.stores.lookup value stored).mpr ⟨slot, holds⟩
      refine ⟨(members_eq_some elements value stored).mp present, ?_⟩
      rw [← RawTable.readSlot_toOverflow]
      exact holds.readSlot

theorem contains_refines {fuel : Nat} {value : T} {answer : Bool} (refines : set.Refines elements)
    (returned : set.contains fuel value = some answer) : answer = decide (value ∈ elements) := by
  obtain ⟨found, looked, same⟩ := Option.bind_eq_some_iff.mp returned
  cases same
  obtain ⟨hit, miss⟩ := find_refines refines looked
  cases found with
  | none => simp [miss rfl]
  | some slot => simp [(hit slot rfl).1]

theorem get_refines {fuel : Nat} {value : T} {answer : Option T} (refines : set.Refines elements)
    (returned : set.get fuel value = some answer) :
    answer = if value ∈ elements then some value else none := by
  obtain ⟨found, looked, same⟩ := Option.bind_eq_some_iff.mp returned
  obtain ⟨hit, miss⟩ := find_refines refines looked
  cases found with
  | none =>
      cases same
      rw [if_neg (miss rfl)]
  | some slot =>
      obtain ⟨member, stored⟩ := hit slot rfl
      cases same
      rw [if_pos member, stored]
      rfl

/-! ## Insertion -/

theorem insertNoCheck_refines {fuel : Nat} {value : T} {slot : Slot} {table : RawTable feature T Unit}
    (refines : set.Refines elements) (room : set.table.len < set.table.maxLoad) (absent : value ∉ elements)
    (returned : set.table.insertNoCheck fuel (set.hashBuilder value) value () = some (slot, table)) :
    (⟨table, set.hashBuilder⟩ : UnorderedFlatSet feature T).Refines (Insert.insert value elements) := by
  have simulated : set.table.toOverflow.insertNoCheck fuel (set.hashBuilder value) value () =
      some (slot, table.toOverflow) := by
    rw [RawTable.insertNoCheck_toOverflow, returned]
    rfl
  have inserted := Overflow.RawTable.insertNoCheck_refines refines room
    ((members_eq_none elements value).mpr absent) simulated
  rw [Refines, members_insert]
  exact inserted.1

theorem growAndRehash_refines {fuel : Nat} (refines : set.Refines elements)
    (returned : set.growAndRehash fuel = some next) :
    next.Refines elements ∧ next.table.len < next.table.maxLoad ∧ next.hashBuilder = set.hashBuilder := by
  obtain ⟨table, rehashed, same⟩ := Option.bind_eq_some_iff.mp returned
  cases same
  have groups : (if set.table.isAllocated then set.table.numGroups * 2 else 1) =
      if set.table.toOverflow.maxLoad = 0 then 1 else (set.table.toOverflow.mask + 1) * 2 := by
    change _ = if set.table.maxLoad = 0 then 1 else (set.table.mask + 1) * 2
    unfold RawTable.isAllocated RawTable.numGroups
    by_cases unloaded : set.table.maxLoad = 0
    · simp [unloaded]
    · rw [if_neg unloaded, if_pos (by simpa using Nat.pos_of_ne_zero unloaded)]
  have simulated : Overflow.RawTable.growAndRehash fuel set.hashBuilder set.table.toOverflow =
      some table.toOverflow := by
    rw [Overflow.RawTable.growAndRehash, ← groups, RawTable.rehashWith_toOverflow, rehashed]
    rfl
  obtain ⟨grown, room⟩ := Overflow.RawTable.growAndRehash_refines refines simulated
  exact ⟨grown, room, rfl⟩

theorem insertAtCapacity_refines {fuel : Nat} {value : T} {fresh : Bool} (refines : set.Refines elements)
    (returned : set.insertAtCapacity fuel (set.hashBuilder value) value = some (fresh, next)) :
    fresh = decide (value ∉ elements) ∧ next.Refines (Insert.insert value elements) ∧
      next.hashBuilder = set.hashBuilder := by
  obtain ⟨found, looked, returned⟩ := Option.bind_eq_some_iff.mp returned
  obtain ⟨hit, miss⟩ := find_refines refines looked
  cases found with
  | some slot =>
      cases returned
      have member := (hit slot rfl).1
      exact ⟨by simp [member], (members_insert_self member).symm ▸ refines, rfl⟩
  | none =>
      obtain ⟨grown, ran, returned⟩ := Option.bind_eq_some_iff.mp returned
      obtain ⟨⟨slot, table⟩, placed, same⟩ := Option.bind_eq_some_iff.mp returned
      cases same
      obtain ⟨grownRefines, room, builder⟩ := growAndRehash_refines refines ran
      rw [← builder] at placed ⊢
      exact ⟨by simp [miss rfl], insertNoCheck_refines grownRefines room (miss rfl) placed, rfl⟩

theorem insertOverflow_refines {fuel : Nat} {value : T} {fresh : Bool} (refines : set.Refines elements)
    (room : set.table.len < set.table.maxLoad)
    (returned : set.insertOverflow fuel (set.hashBuilder value) value = some (fresh, next)) :
    fresh = decide (value ∉ elements) ∧ next.Refines (Insert.insert value elements) ∧
      next.hashBuilder = set.hashBuilder := by
  obtain ⟨found, looked, returned⟩ := Option.bind_eq_some_iff.mp returned
  obtain ⟨hit, miss⟩ := find_refines refines looked
  cases found with
  | some slot =>
      cases returned
      have member := (hit slot rfl).1
      exact ⟨by simp [member], (members_insert_self member).symm ▸ refines, rfl⟩
  | none =>
      obtain ⟨grown, kept, returned⟩ := Option.bind_eq_some_iff.mp returned
      rw [if_neg (by omega)] at kept
      cases kept
      obtain ⟨⟨slot, table⟩, placed, same⟩ := Option.bind_eq_some_iff.mp returned
      cases same
      exact ⟨by simp [miss rfl], insertNoCheck_refines refines room (miss rfl) placed, rfl⟩

theorem insert_refines {fuel : Nat} {value : T} {fresh : Bool} (refines : set.Refines elements)
    (returned : set.insert fuel value = some (fresh, next)) :
    fresh = decide (value ∉ elements) ∧ next.Refines (Insert.insert value elements) ∧
      next.hashBuilder = set.hashBuilder := by
  have lenLe : set.table.len ≤ set.table.maxLoad := refines.valid.len_le
  -- The allocation of the first group does not change the contents.
  have prepared : (⟨if set.table.isAllocated then set.table else set.table.allocate 1,
      set.hashBuilder⟩ : UnorderedFlatSet feature T).Refines elements := by
    unfold Refines
    split
    · exact refines
    · rename_i dead
      have unloaded : set.table.maxLoad = 0 := by simpa [RawTable.isAllocated] using dead
      have len : set.table.toOverflow.len = 0 := by
        change set.table.len = 0
        omega
      rw [refines.map_eq_empty len]
      exact Overflow.RawTable.allocate_refines ⟨0, rfl⟩ len
  unfold insert at returned
  simp only at returned
  generalize (if set.table.isAllocated then set.table else set.table.allocate 1) = table at prepared returned
  split at returned
  · have outcome := insertAtCapacity_refines prepared returned
    exact outcome
  · rename_i below
    have room : table.len < table.maxLoad := by omega
    split at returned
    · rename_i si found
      cases returned
      rw [← RawTable.findInGroup_toOverflow] at found
      obtain ⟨stored, holds⟩ := Overflow.RawTable.Matches.holds prepared.valid
        (Overflow.RawTable.findInGroup_matches (Overflow.RawTable.groupIndex_le _ _) found)
      have present := (prepared.stores.lookup value stored).mpr ⟨_, holds⟩
      have member := (members_eq_some elements value stored).mp present
      exact ⟨by simp [member], (members_insert_self member).symm ▸ prepared, rfl⟩
    · rename_i missed
      rw [← RawTable.findInGroup_toOverflow] at missed
      split at returned
      · rename_i si head clear
        cases returned
        have absent := Overflow.RawTable.absent_of_exhausted prepared
          (Overflow.RawTable.home_exhausted missed clear)
        have filled := ((@Overflow.RawTable.home_vacant _ _ _ _ _ _ set.hashBuilder table.toOverflow value si head).fill_refines
          prepared absent room ()).1
        refine ⟨by simp [(members_eq_none elements value).mp absent], ?_, rfl⟩
        rw [Refines, members_insert]
        exact filled
      · have outcome := insertOverflow_refines prepared room returned
        exact outcome

theorem extend_refines {fuel : Nat} (values : List T) :
    ∀ {set : UnorderedFlatSet feature T} {elements : Finset T}, set.Refines elements →
      set.extend fuel values = some next →
      next.Refines (elements ∪ values.toFinset) ∧ next.hashBuilder = set.hashBuilder := by
  induction values with
  | nil =>
      intro set elements refines returned
      cases returned
      simpa using refines
  | cons value values ih =>
      intro set elements refines returned
      obtain ⟨⟨fresh, middle⟩, inserted, rest⟩ := Option.bind_eq_some_iff.mp returned
      obtain ⟨_, middleRefines, middleBuilder⟩ := insert_refines refines inserted
      obtain ⟨finalRefines, finalBuilder⟩ := ih middleRefines rest
      refine ⟨?_, finalBuilder.trans middleBuilder⟩
      rw [List.toFinset_cons, Finset.union_insert, ← Finset.insert_union]
      exact finalRefines

/-! ## Removal and resizing -/

theorem removeByHash_refines {fuel : Nat} {value : T} {found : Option (T × Unit)}
    {table : RawTable feature T Unit} (refines : set.Refines elements)
    (returned : set.table.removeByHash fuel (set.hashBuilder value) (fun stored => stored = value) =
      some (found, table)) :
    found = (if value ∈ elements then some (value, ()) else none) ∧
      (⟨table, set.hashBuilder⟩ : UnorderedFlatSet feature T).Refines (elements.erase value) := by
  have simulated : set.table.toOverflow.removeByHash fuel (set.hashBuilder value)
      (fun stored => stored = value) = some (found, table.toOverflow) := by
    rw [RawTable.removeByHash_toOverflow, returned]
    rfl
  obtain ⟨result, removed⟩ := Overflow.RawTable.removeByHash_refines refines simulated
  refine ⟨?_, ?_⟩
  · rw [result, members]
    split <;> rfl
  · rw [Refines, members_erase]
    exact removed

theorem remove_refines {fuel : Nat} {value : T} {found : Bool} (refines : set.Refines elements)
    (returned : set.remove fuel value = some (found, next)) :
    found = decide (value ∈ elements) ∧ next.Refines (elements.erase value) ∧
      next.hashBuilder = set.hashBuilder := by
  obtain ⟨⟨entry, table⟩, removed, same⟩ := Option.bind_eq_some_iff.mp returned
  cases same
  obtain ⟨rfl, erased⟩ := removeByHash_refines refines removed
  refine ⟨?_, erased, rfl⟩
  split <;> simp_all

theorem take_refines {fuel : Nat} {value : T} {found : Option T} (refines : set.Refines elements)
    (returned : set.take fuel value = some (found, next)) :
    found = (if value ∈ elements then some value else none) ∧ next.Refines (elements.erase value) ∧
      next.hashBuilder = set.hashBuilder := by
  obtain ⟨⟨entry, table⟩, removed, same⟩ := Option.bind_eq_some_iff.mp returned
  cases same
  obtain ⟨rfl, erased⟩ := removeByHash_refines refines removed
  refine ⟨?_, erased, rfl⟩
  split <;> rfl

theorem rehashWith_refines {fuel newNumGroups : Nat} {table : RawTable feature T Unit}
    (refines : set.Refines elements) (power : ∃ bits, newNumGroups = 2 ^ bits)
    (room : set.table.len ≤ (ufmLayout feature).maxLoadFor newNumGroups)
    (returned : set.table.rehashWith fuel set.hashBuilder newNumGroups = some table) :
    (⟨table, set.hashBuilder⟩ : UnorderedFlatSet feature T).Refines elements := by
  have simulated : Overflow.RawTable.rehashWith fuel set.hashBuilder set.table.toOverflow newNumGroups =
      some table.toOverflow := by
    rw [RawTable.rehashWith_toOverflow, returned]
    rfl
  exact (Overflow.RawTable.rehashWith_refines refines power room simulated).1

theorem reserve_refines {fuel additional : Nat} (refines : set.Refines elements)
    (returned : set.reserve fuel additional = some next) :
    next.Refines elements ∧ next.hashBuilder = set.hashBuilder := by
  have power := (ufmLayout feature).groupsForCapacity_power (set.table.len + additional)
  have room := (ufmLayout feature).le_maxLoadFor_groupsForCapacity (set.table.len + additional)
  unfold reserve at returned
  simp only at returned
  split at returned
  · split at returned
    · obtain ⟨table, rehashed, same⟩ := Option.bind_eq_some_iff.mp returned
      cases same
      exact ⟨rehashWith_refines refines power (Nat.le_trans (Nat.le_add_right _ _) room) rehashed, rfl⟩
    · cases returned
      exact ⟨refines, rfl⟩
  · rename_i dead
    split at returned
    · cases returned
      have lenLe : set.table.len ≤ set.table.maxLoad := refines.valid.len_le
      have unloaded : set.table.maxLoad = 0 := by simpa [RawTable.isAllocated] using dead
      have len : set.table.toOverflow.len = 0 := by
        change set.table.len = 0
        omega
      refine ⟨?_, rfl⟩
      rw [Refines, refines.map_eq_empty len]
      exact Overflow.RawTable.allocate_refines power len
    · cases returned
      exact ⟨refines, rfl⟩

theorem shrinkToFit_refines {fuel : Nat} (refines : set.Refines elements)
    (returned : set.shrinkToFit fuel = some next) :
    next.Refines elements ∧ next.hashBuilder = set.hashBuilder := by
  unfold shrinkToFit at returned
  split at returned
  · rename_i len
    cases returned
    refine ⟨?_, rfl⟩
    rw [Refines, refines.map_eq_empty len]
    exact Overflow.RawTable.new_refines
  · split at returned
    · obtain ⟨table, rehashed, same⟩ := Option.bind_eq_some_iff.mp returned
      cases same
      exact ⟨rehashWith_refines refines ((ufmLayout feature).groupsForCapacity_power _)
        ((ufmLayout feature).le_maxLoadFor_groupsForCapacity _) rehashed, rfl⟩
    · cases returned
      exact ⟨refines, rfl⟩

theorem clear_refines (refines : set.Refines elements) : set.clear.Refines ∅ := by
  change (set.table.clear).toOverflow.Refines set.hashBuilder PMap.empty
  rw [RawTable.toOverflow_clear]
  exact Overflow.RawTable.clear_refines refines

theorem clone_refines (refines : set.Refines elements) : set.clone.Refines elements := by
  change (set.table.clone).toOverflow.Refines set.hashBuilder (members elements)
  rw [RawTable.toOverflow_clone]
  · exact Overflow.RawTable.cloneTable_refines refines
  · intro slot member
    obtain ⟨key, value, holds⟩ := (refines.valid.mem_occupiedSlots_iff slot).mp member
    rw [← RawTable.readSlot_toOverflow, holds.readSlot]
    rfl

/-! ## Iteration -/

theorem lists_of_enumerates {entries : List (T × Unit)}
    (enumerates : PMap.Enumerates entries (members elements)) : Lists (entries.map Prod.fst) elements := by
  refine ⟨enumerates.nodup, fun value => ?_⟩
  rw [← members_eq_some elements value (), ← enumerates.mem_iff, List.mem_map]
  constructor
  · rintro ⟨⟨key, _⟩, member, rfl⟩
    exact member
  · intro member
    exact ⟨_, member, rfl⟩

theorem iter_lists (refines : set.Refines elements) :
    Lists set.iter elements ∧ set.iter.length = set.len := by
  have laws := @Overflow.RawTable.rawTableLaws (ufmLayout feature) AoS _ T Unit _ set.hashBuilder
  have entries : set.iter = ((RawTableApi.iterSlots set.table.toOverflow).filterMap
      (RawTableApi.entryAt set.table.toOverflow)).map Prod.fst := by
    change _ = (set.table.toOverflow.iterSlots.filterMap set.table.toOverflow.readSlot).map Prod.fst
    rw [RawTable.iterSlots_toOverflow, List.map_filterMap, iter]
    refine List.filterMap_congr fun slot _ => ?_
    rw [RawTable.readSlot_toOverflow]
  rw [entries]
  refine ⟨lists_of_enumerates (laws.iter_enumerates refines), ?_⟩
  rw [List.length_map]
  exact laws.iter_length refines

theorem intoIter_lists (refines : set.Refines elements) : Lists (intoIter set.table) elements := by
  have entries : intoIter set.table =
      (set.table.toOverflow.occupiedSlots.filterMap set.table.toOverflow.readSlot).map Prod.fst := by
    rw [List.map_filterMap, intoIter]
    refine List.filterMap_congr fun slot _ => ?_
    rw [RawTable.readSlot_toOverflow]
  rw [entries]
  exact lists_of_enumerates refines.enumerates

theorem len_eq_card (refines : set.Refines elements) : set.len = elements.card := by
  obtain ⟨lists, length⟩ := iter_lists refines
  have same : set.iter.toFinset = elements := by
    ext value
    rw [List.mem_toFinset, lists.mem_iff]
  rw [← length, ← same, List.toFinset_card_of_nodup lists.nodup]

/-! ## Retaining -/

section Retain
variable {f : T → Bool} {hash : T → UInt64} {table : RawTable feature T Unit}

/-- A round in one group leaves the metadata of the other groups. -/
theorem retainSlot_matchNonEmpty {gi si other : Nat} (inside : si < GROUP_SIZE) (apart : other ≠ gi) :
    (retainSlot f hash gi table si).matchNonEmpty other = table.matchNonEmpty other := by
  unfold retainSlot
  split
  · split
    · rfl
    · rename_i stored _ _ _
      have bytes : ∀ place < GROUP_SIZE,
          (table.eraseSlot (hash stored) gi si).metaByte other place = table.metaByte other place := by
        intro place placeInside
        have offsets : other * META_GROUP_BYTES + place ≠ gi * META_GROUP_BYTES + si := fun same =>
          apart (strided_inj (Nat.lt_succ_of_lt placeInside) (Nat.lt_succ_of_lt inside) same).1
        have cleared := Ctrl.read_write_of_ne table.metadata EMPTY offsets
        unfold RawTable.eraseSlot
        simp only
        split
        · exact cleared
        · exact cleared
      refine List.filter_congr fun place member => ?_
      rw [bytes place (List.mem_range.mp member)]
  · rfl

theorem retainGroup_matchNonEmpty {gi other : Nat} (apart : other ≠ gi) :
    (retainGroup f hash table gi).matchNonEmpty other = table.matchNonEmpty other := by
  have rounds : ∀ (slots : List Nat) (current : RawTable feature T Unit),
      (∀ si ∈ slots, si < GROUP_SIZE) →
      (slots.foldl (retainSlot f hash gi) current).matchNonEmpty other = current.matchNonEmpty other := by
    intro slots
    induction slots with
    | nil => intro current _; rfl
    | cons si slots ih =>
        intro current inside
        rw [List.foldl_cons, ih _ fun place member => inside place (List.mem_cons_of_mem _ member)]
        exact retainSlot_matchNonEmpty (inside si List.mem_cons_self) apart
  refine rounds _ _ fun si member => ?_
  exact List.mem_range.mp (List.mem_of_mem_filter member)

/-- The slots can be listed before the first round. -/
theorem foldl_retainGroup (groups : List Nat) : ∀ {table : RawTable feature T Unit}, groups.Nodup →
    groups.foldl (retainGroup f hash) table =
      (groups.flatMap fun gi => (table.matchNonEmpty gi).map fun si => (gi, si)).foldl
        (fun current slot => retainSlot f hash slot.1 current slot.2) table := by
  induction groups with
  | nil => intro table _; rfl
  | cons gi groups ih =>
      intro table unique
      obtain ⟨fresh, restUnique⟩ := List.nodup_cons.mp unique
      have kept : (groups.flatMap fun other =>
            ((retainGroup f hash table gi).matchNonEmpty other).map fun si => (other, si)) =
          groups.flatMap fun other => (table.matchNonEmpty other).map fun si => (other, si) := by
        refine List.flatMap_congr fun other member => ?_
        have apart : other ≠ gi := by
          rintro rfl
          exact fresh member
        rw [retainGroup_matchNonEmpty apart]
      rw [List.foldl_cons, ih restUnique, kept, List.flatMap_cons, List.foldl_append, List.foldl_map]
      rfl

/-- A round is a round of the generic map with unit values. -/
theorem toOverflow_retainSlot (slot : Slot) :
    (retainSlot f hash slot.1 table slot.2).toOverflow =
      GenericMap.retainSlot (fun value _ => (f value, ())) hash table.toOverflow slot := by
  have unchanged : table.toOverflow.writeValue slot () = table.toOverflow := by
    have cells : setCell table.buckets (slot.1 * GROUP_SIZE + slot.2)
        ((table.buckets (slot.1 * GROUP_SIZE + slot.2)).map fun pair => (pair.1, ())) = table.buckets := by
      funext index
      unfold setCell
      split
      · rename_i same
        rw [same]
        cases table.buckets (slot.1 * GROUP_SIZE + slot.2) <;> rfl
      · rfl
    change (⟨table.mask, table.metadata, ⟨setCell table.buckets (slot.1 * GROUP_SIZE + slot.2)
        ((table.buckets (slot.1 * GROUP_SIZE + slot.2)).map fun pair => (pair.1, ()))⟩, table.len, table.maxLoad,
        table.shift⟩ : Overflow.RawTable (ufmLayout feature) AoS T Unit) = _
    rw [cells]
    rfl
  have entry : RawTableApi.entryAt table.toOverflow slot = table.bucket slot.1 slot.2 :=
    RawTable.readSlot_toOverflow table slot
  unfold retainSlot GenericMap.retainSlot
  rw [entry]
  cases table.bucket slot.1 slot.2 with
  | none => rfl
  | some pair =>
      obtain ⟨stored, _⟩ := pair
      simp only
      split
      · exact unchanged.symm
      · rw [RawTable.toOverflow_eraseSlot]
        exact congrArg (fun current => Overflow.RawTable.eraseSlot current (hash stored) slot) unchanged.symm

theorem foldl_toOverflow (slots : List Slot) : ∀ table : RawTable feature T Unit,
    (slots.foldl (fun current slot => retainSlot f hash slot.1 current slot.2) table).toOverflow =
      slots.foldl (GenericMap.retainSlot (fun value _ => (f value, ())) hash) table.toOverflow := by
  induction slots with
  | nil => intro table; rfl
  | cons slot slots ih =>
      intro table
      rw [List.foldl_cons, List.foldl_cons, ih, toOverflow_retainSlot]

end Retain

theorem retain_refines (refines : set.Refines elements) (f : T → Bool) :
    (set.retain f).Refines (elements.filter fun value => f value = true) ∧
      (set.retain f).hashBuilder = set.hashBuilder := by
  have retained := GenericMap.retain_refines (Overflow.RawTable.rawTableLaws set.hashBuilder)
    (fun value _ => (f value, ())) refines
  rw [← members_filter] at retained
  have simulated : (set.retain f).table.toOverflow =
      ((⟨set.table.toOverflow, set.hashBuilder⟩ : GenericMap _ T).retain
        fun value _ => (f value, ())).table := by
    unfold retain GenericMap.retain
    change _ = (if set.table.toOverflow.isAllocated then _ else _ : GenericMap _ T).table
    cases live : set.table.isAllocated with
    | false =>
        have dead : set.table.toOverflow.isAllocated = false := live
        rw [if_neg (by simp), if_neg (by simp [dead])]
    | true =>
        have alive : set.table.toOverflow.isAllocated = true := live
        rw [if_pos rfl, if_pos alive]
        simp only
        rw [foldl_retainGroup _ List.nodup_range, foldl_toOverflow]
        have slots : RawTableApi.iterSlots set.table.toOverflow = set.table.toOverflow.occupiedSlots :=
          refines.valid.iterSlots_eq
        rw [slots]
        rfl
  refine ⟨?_, ?_⟩
  · have builder : (set.retain f).hashBuilder = set.hashBuilder := by
      unfold retain
      split <;> rfl
    rw [Refines, builder, simulated]
    exact retained
  · unfold retain
    split <;> rfl

end UnorderedFlatSet

end Optimap.FlatSet
