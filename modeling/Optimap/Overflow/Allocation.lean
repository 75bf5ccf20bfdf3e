import Optimap.Overflow.AntiDrift

/-!
# `max_load` as the allocated flag

A table counts as allocated while `max_load` is not zero. The anti-drift step
lowers `max_load` on a live table, so the flag is right as long as no removal
takes it down to zero.
-/

set_option autoImplicit false
set_option linter.unusedSectionVars false

namespace Optimap.Overflow

open Lib Hash Map

namespace RawTable

variable {L : GroupLayout} {S : Type → Type → Type} [KvStorage S] {K V : Type} [DecidableEq K]
  {hash : K → UInt64} {table later : RawTable L S K V} {map : PMap K V}

/-- A live allocation counts as one. -/
def Flagged (table : RawTable L S K V) : Prop := table.Allocated → table.maxLoad ≠ 0

/-- Removing the key lowers `max_load`. -/
def drifts (hash : K → UInt64) (table : RawTable L S K V) (key : K) : Bool :=
  table.hasOverflowBit (table.groupIndex (hash key)) (L.tags.overflowChannel (hash key))

/-- The entries an operation erases one by one. -/
def erases : GenericOp K V → K × V → Bool
  | .common (.remove key), entry | .common (.removeEntry key), entry | .rawRemove key, entry =>
      entry.1 = key
  | .common (.retain predicate), entry => !(predicate entry.1 entry.2).1
  | _, _ => false

/-- How often an operation lowers `max_load`. -/
def charges (hash : K → UInt64) (table : RawTable L S K V) (op : GenericOp K V) : Nat :=
  (table.iterSlots.filterMap table.readSlot).countP fun entry => erases op entry && table.drifts hash entry.1

/-- The operation leaves a live table a load limit. -/
def KeepsLoad (hash : K → UInt64) (table : RawTable L S K V) (op : GenericOp K V) : Prop :=
  table.maxLoad ≠ 0 → table.charges hash op < table.maxLoad

/-! ## Operations that set `max_load` anew -/

theorem flagged_of_loaded (loaded : table.maxLoad ≠ 0) : table.Flagged := fun _ => loaded

theorem new_flagged : (new : RawTable L S K V).Flagged := by
  rintro ⟨bytes, shape⟩
  cases shape

theorem allocate_flagged {numGroups : Nat} (positive : 0 < numGroups) :
    (table.allocate numGroups).Flagged :=
  flagged_of_loaded (Nat.ne_of_gt (L.maxLoadFor_pos numGroups positive))

theorem groupsForCapacity_pos (capacity : Nat) : 0 < L.groupsForCapacity capacity := by
  obtain ⟨bits, power⟩ := L.groupsForCapacity_power capacity
  rw [power]
  exact Nat.two_pow_pos bits

theorem withCapacity_flagged (capacity : Nat) : (withCapacity capacity : RawTable L S K V).Flagged := by
  unfold withCapacity
  split
  · exact new_flagged
  · exact allocate_flagged (groupsForCapacity_pos capacity)

theorem clear_flagged (flagged : table.Flagged) : table.clear.Flagged := by
  unfold clear
  split
  · exact flagged
  · exact flagged_of_loaded (Nat.ne_of_gt (L.maxLoadFor_pos _ (Nat.succ_pos _)))

theorem rehashWith_flagged {fuel newNumGroups : Nat} (refines : table.Refines hash map)
    (power : ∃ bits, newNumGroups = 2 ^ bits) (room : table.len ≤ L.maxLoadFor newNumGroups)
    (returned : rehashWith fuel hash table newNumGroups = some later) : later.Flagged := by
  obtain ⟨bits, rfl⟩ := power
  obtain ⟨_, _, maxLoad, _⟩ := rehashWith_refines refines ⟨bits, rfl⟩ room returned
  apply flagged_of_loaded
  rw [maxLoad]
  exact Nat.ne_of_gt (L.maxLoadFor_pos _ (Nat.two_pow_pos bits))

theorem reserve_flagged {fuel additional : Nat} (refines : table.Refines hash map) (flagged : table.Flagged)
    (returned : reserve fuel hash table additional = some later) : later.Flagged := by
  have room := L.le_maxLoadFor_groupsForCapacity (table.len + additional)
  unfold reserve at returned
  simp only at returned
  split at returned
  · cases returned
    split
    · exact allocate_flagged (groupsForCapacity_pos _)
    · exact flagged
  · split at returned
    · exact rehashWith_flagged refines (L.groupsForCapacity_power _) (by omega) returned
    · cases returned
      exact flagged

theorem shrinkToFit_flagged {fuel : Nat} (refines : table.Refines hash map) (flagged : table.Flagged)
    (returned : shrinkToFit fuel hash table = some later) : later.Flagged := by
  unfold shrinkToFit at returned
  split at returned
  · cases returned
    exact new_flagged
  · split at returned
    · exact rehashWith_flagged refines (L.groupsForCapacity_power _)
        (L.le_maxLoadFor_groupsForCapacity _) returned
    · cases returned
      exact flagged

theorem cloneTable_flagged : table.cloneTable.Flagged := by
  by_cases unloaded : table.maxLoad = 0
  · unfold cloneTable
    rw [if_pos unloaded]
    exact new_flagged
  · obtain ⟨_, maxLoad, _, _⟩ := cloneTable_fields unloaded
    apply flagged_of_loaded
    rw [maxLoad]
    exact unloaded

/-- A table with an entry has a load limit. -/
theorem Refines.flagged_of_entry (refines : table.Refines hash map) {key : K} {value : V}
    (present : map key = some value) : table.Flagged := by
  obtain ⟨slot, holds⟩ := (refines.stores.lookup key value).mp present
  have listed := List.length_pos_of_mem (mem_occupiedSlots.mpr holds.1)
  have lenEq := refines.valid.len_eq
  have lenLe := refines.valid.len_le
  exact flagged_of_loaded (by omega)

theorem eraseSlot_flagged {slot : Slot} {h : UInt64} (inside : table.InRange slot)
    (allocated : table.Allocated) (flagged : table.Flagged)
    (clear : table.hasOverflowBit (table.groupIndex h) (L.tags.overflowChannel h) = false) :
    (table.eraseSlot h slot).Flagged := by
  apply flagged_of_loaded
  rw [eraseSlot_eq inside]
  simp only [clear, Bool.false_eq_true, ↓reduceIte]
  exact flagged allocated

/-- Removals that do not drift keep the flag right. -/
theorem flaggedInvariant (hash : K → UInt64) :
    RawTableInvariant (T := RawTable L S K V) hash (Refines hash) Holds Ready Flagged
      fun table _ key => table.drifts hash key = false where
  new := new_flagged
  withCapacity := withCapacity_flagged
  writeValue _ flagged _ _ := flagged
  clear _ := clear_flagged
  insertOrReplace refines _ returned :=
    (insertOrReplace_refines refines returned).2.flagged_of_entry (PMap.insert_self _ _ _)
  insertAt refines _ returned value :=
    ((rawTableLaws hash).insertAt refines returned value).1.flagged_of_entry (PMap.insert_self _ _ _)
  ensureCapacity refines _ returned :=
    flagged_of_loaded (Nat.ne_of_gt (Nat.zero_lt_of_lt (ensureCapacity_refines refines returned).2))
  insertNoCheck refines _ ready absent returned :=
    (insertNoCheck_refines refines ready absent returned).1.flagged_of_entry (PMap.insert_self _ _ _)
  eraseSlot _ flagged holds clear := eraseSlot_flagged holds.1.1 holds.1.allocated flagged clear
  removeByHash refines flagged removable returned := by
    obtain ⟨found, looked, returned⟩ := Option.bind_eq_some_iff.mp returned
    have outcome := findByHash_refines refines looked
    cases found with
    | some slot =>
        obtain ⟨value, holds⟩ := outcome
        cases returned
        exact eraseSlot_flagged holds.1.1 holds.1.allocated flagged (removable slot value holds)
    | none => cases returned; exact flagged
  reserve := reserve_flagged
  shrinkToFit := shrinkToFit_flagged
  cloneTable _ _ := cloneTable_flagged
  removable_writeValue _ _ _ _ _ clear := clear
  removable_eraseSlot {_ _ slot key _} _ holds other otherKey clear := by
    have sameHome : (eraseSlot _ (hash key) slot).groupIndex (hash otherKey) =
        groupIndex _ (hash otherKey) := eraseSlot_probeAt holds.1.1 (hash key) (hash otherKey) 0
    rw [← clear]
    unfold drifts
    change (eraseSlot _ (hash key) slot).hasOverflowBit _ _ = _
    rw [eraseSlot_hasOverflowBit holds.1.1]
    exact congrArg (fun gi => hasOverflowBit _ gi _) sameHome

/-! ## Removals that drift -/

theorem eraseSlot_drifts {slot : Slot} (inside : table.InRange slot) (h : UInt64) (key : K) :
    (table.eraseSlot h slot).drifts hash key = table.drifts hash key := by
  have home : (table.eraseSlot h slot).groupIndex (hash key) = table.groupIndex (hash key) :=
    eraseSlot_probeAt inside h (hash key) 0
  rw [drifts, home, eraseSlot_hasOverflowBit inside]
  rfl

theorem eraseSlot_load {slot : Slot} {key : K} (inside : table.InRange slot) :
    (table.eraseSlot (hash key) slot).maxLoad =
      table.maxLoad - if table.drifts hash key then 1 else 0 := by
  rw [eraseSlot_eq inside, drifts]
  simp only
  split
  · rfl
  · exact (Nat.sub_zero _).symm

theorem Refines.mem_entries (refines : table.Refines hash map) {slot : Slot} {key : K} {value : V}
    (holds : table.Holds slot key value) : (key, value) ∈ table.iterSlots.filterMap table.readSlot :=
  List.mem_filterMap.mpr
    ⟨slot, ((rawTableLaws hash).mem_iterSlots refines slot).mpr ⟨key, value, holds⟩, holds.readSlot⟩

theorem eraseSlot_flagged_of_keeps {slot : Slot} {key : K} {value : V} {op : GenericOp K V}
    (refines : table.Refines hash map) (flagged : table.Flagged) (holds : table.Holds slot key value)
    (erased : erases op (key, value) = true) (keeps : table.KeepsLoad hash op) :
    (table.eraseSlot (hash key) slot).Flagged := by
  have loaded := flagged holds.1.allocated
  have below := keeps loaded
  apply flagged_of_loaded
  rw [eraseSlot_load holds.1.1]
  split
  · rename_i drifting
    have counted : 0 < table.charges hash op :=
      List.countP_pos_iff.mpr ⟨(key, value), refines.mem_entries holds, by simp [erased, drifting]⟩
    omega
  · exact loaded

/-- One round of `retain` lowers `max_load` if it erases a drifting key; the other
slots and what drifts stay as they are. -/
theorem retainSlot_load (predicate : K → V → Bool × V) {slot : Slot} {key : K} {stored : V}
    (refines : table.Refines hash map) (holds : table.Holds slot key stored) :
    let next := GenericMap.retainSlot predicate hash table slot
    (∃ map', next.Refines hash map') ∧
      next.maxLoad = table.maxLoad -
        (if !(predicate key stored).1 && table.drifts hash key then 1 else 0) ∧
      next.drifts hash = table.drifts hash ∧
      ∀ other otherKey otherValue, other ≠ slot → table.Holds other otherKey otherValue →
        next.Holds other otherKey otherValue := by
  obtain ⟨written, writtenHolds, writtenOthers⟩ :=
    (rawTableLaws hash).writeValue refines holds (predicate key stored).2
  have round : GenericMap.retainSlot predicate hash table slot =
      if (predicate key stored).1 then table.writeValue slot (predicate key stored).2
      else (table.writeValue slot (predicate key stored).2).eraseSlot (hash key) slot := by
    simp only [GenericMap.retainSlot, (rawTableLaws hash).holds_entry holds]
    rfl
  simp only [round]
  cases keep : (predicate key stored).1 with
  | true => exact ⟨⟨_, written⟩, rfl, rfl, writtenOthers⟩
  | false =>
      obtain ⟨erased, erasedOthers⟩ := (rawTableLaws hash).eraseSlot written writtenHolds
      refine ⟨⟨_, erased⟩, ?_, ?_, fun other otherKey otherValue different otherHolds => ?_⟩
      · exact eraseSlot_load holds.1.1
      · funext other
        exact eraseSlot_drifts writtenHolds.1.1 (hash key) other
      · exact erasedOthers other otherKey otherValue different
          (writtenOthers other otherKey otherValue different otherHolds)

/-- The loop of `retain`, by induction on the positions still to visit. -/
theorem foldl_retainSlot_load (predicate : K → V → Bool × V) (slots : List Slot) :
    ∀ {table : RawTable L S K V} {map : PMap K V}, table.Refines hash map → slots.Nodup →
      (∀ slot ∈ slots, ∃ key stored, table.Holds slot key stored) →
      (slots.foldl (GenericMap.retainSlot predicate hash) table).maxLoad = table.maxLoad -
        (slots.filterMap table.readSlot).countP
          fun entry => !(predicate entry.1 entry.2).1 && table.drifts hash entry.1 := by
  induction slots with
  | nil => intro table map _ _ _; exact (Nat.sub_zero _).symm
  | cons slot slots ih =>
      intro table map refines unique held
      obtain ⟨slotFresh, restUnique⟩ := List.nodup_cons.mp unique
      obtain ⟨key, stored, holds⟩ := held slot List.mem_cons_self
      obtain ⟨⟨middle, nextRefines⟩, load, drift, others⟩ := retainSlot_load predicate refines holds
      have kept : ∀ other ∈ slots, ∃ otherKey otherStored, table.Holds other otherKey otherStored ∧
          (GenericMap.retainSlot predicate hash table slot).Holds other otherKey otherStored := by
        intro other member
        obtain ⟨otherKey, otherStored, otherHolds⟩ := held other (List.mem_cons_of_mem _ member)
        have different : other ≠ slot := fun same => slotFresh (same ▸ member)
        exact ⟨otherKey, otherStored, otherHolds, others _ _ _ different otherHolds⟩
      have reads : slots.filterMap (GenericMap.retainSlot predicate hash table slot).readSlot =
          slots.filterMap table.readSlot := by
        refine List.filterMap_congr fun other member => ?_
        obtain ⟨otherKey, otherStored, before, after⟩ := kept other member
        rw [before.readSlot, after.readSlot]
      rw [List.foldl_cons, ih nextRefines restUnique fun other member => ?_, reads, load, drift,
        List.filterMap_cons_some holds.readSlot, List.countP_cons, Nat.sub_sub]
      · exact congrArg (table.maxLoad - ·) (Nat.add_comm _ _)
      · obtain ⟨otherKey, otherStored, _, after⟩ := kept other member
        exact ⟨otherKey, otherStored, after⟩

theorem retain_flagged_of_keeps {predicate : K → V → Bool × V} (refines : table.Refines hash map)
    (flagged : table.Flagged) (keeps : table.KeepsLoad hash (.common (.retain predicate))) :
    ((⟨table, hash⟩ : GenericMap (RawTable L S K V) K).retain predicate).table.Flagged := by
  unfold GenericMap.retain
  split
  · rename_i live
    have loaded : table.maxLoad ≠ 0 := Nat.ne_of_gt (of_decide_eq_true live)
    have laws := @rawTableLaws L S _ K V _ hash
    apply flagged_of_loaded
    rw [foldl_retainSlot_load predicate _ refines (laws.iterSlots_nodup refines)
      fun slot member => (laws.mem_iterSlots refines slot).mp member]
    exact Nat.ne_of_gt (Nat.sub_pos_of_lt (keeps loaded))
  · exact flagged

/-! ## Runs -/

theorem step_flagged {fuel : Nat} {op : GenericOp K V} {result : MapResult K V}
    {next : GenericMap (RawTable L S K V) K} (refines : table.Refines hash map) (flagged : table.Flagged)
    (keeps : table.KeepsLoad hash op)
    (returned : (⟨table, hash⟩ : GenericMap (RawTable L S K V) K).step fuel op = some (result, next)) :
    next.table.Flagged := by
  have laws := @rawTableLaws L S _ K V _ hash
  have erasing : ∀ key, (∀ value, erases op (key, value) = true) → ∀ slot value,
      table.Holds slot key value → (table.eraseSlot (hash key) slot).Flagged :=
    fun key erased slot value holds =>
      eraseSlot_flagged_of_keeps refines flagged holds (erased value) keeps
  have removing : ∀ key, (∀ value, erases op (key, value) = true) → ∀ answer later,
      table.removeByHash fuel (hash key) (fun stored => stored = key) = some (answer, later) →
      later.Flagged := by
    intro key erased answer later removed
    obtain ⟨found, looked, removed⟩ := Option.bind_eq_some_iff.mp removed
    have outcome := findByHash_refines refines looked
    cases found with
    | some slot =>
        obtain ⟨value, holds⟩ := outcome
        cases removed
        exact erasing key erased slot value holds
    | none => cases removed; exact flagged
  have elsewhere : GenericMap.RemovesOnly Holds (fun table _ key => table.drifts hash key = false) table op →
      next.table.Flagged := fun removes =>
    GenericMap.step_invariant laws (flaggedInvariant hash) refines flagged removes returned
  cases op with
  | rawInsert key value => exact elsewhere trivial
  | rawRemove key =>
      obtain ⟨⟨answer, removed⟩, ran, same⟩ := Option.bind_eq_some_iff.mp returned
      cases same
      obtain ⟨found, probed, erased⟩ := Option.bind_eq_some_iff.mp ran
      cases found with
      | some slot =>
          cases erased
          obtain ⟨stored, holds⟩ := laws.findByHash_some refines probed
          exact erasing key (fun _ => decide_eq_true rfl) slot stored holds
      | none => cases erased; exact flagged
  | common op =>
      cases op with
      | remove key =>
          obtain ⟨⟨answer, removed⟩, ran, same⟩ := Option.bind_eq_some_iff.mp returned
          cases same
          obtain ⟨⟨pair, rest⟩, ran, same⟩ := Option.bind_eq_some_iff.mp ran
          cases same
          obtain ⟨⟨found, later⟩, erased, same⟩ := Option.bind_eq_some_iff.mp ran
          cases same
          exact removing key (fun _ => decide_eq_true rfl) _ _ erased
      | removeEntry key =>
          obtain ⟨⟨answer, removed⟩, ran, same⟩ := Option.bind_eq_some_iff.mp returned
          cases same
          obtain ⟨⟨found, later⟩, erased, same⟩ := Option.bind_eq_some_iff.mp ran
          cases same
          exact removing key (fun _ => decide_eq_true rfl) _ _ erased
      | retain predicate =>
          cases returned
          exact retain_flagged_of_keeps refines flagged keeps
      | get | insert | entryInsert | tryInsert | extend | clear | reserve | shrinkToFit | clone | drain
      | iter | len => exact elsewhere trivial

theorem run_flagged {fuel : Nat} {final : GenericMap (RawTable L S K V) K} (ops : List (GenericOp K V)) :
    ∀ (table : RawTable L S K V) (map : PMap K V) (results : List (MapResult K V)),
      table.Refines hash map → table.Flagged →
      (⟨table, hash⟩ : GenericMap (RawTable L S K V) K).RunMeets
        (fun current op => current.table.KeepsLoad hash op) fuel ops →
      (⟨table, hash⟩ : GenericMap (RawTable L S K V) K).run fuel ops = some (results, final) →
      final.table.Flagged ∧ ∃ map', final.table.Refines hash map' := by
  induction ops with
  | nil =>
      intro table map results refines flagged _ returned
      cases returned
      exact ⟨flagged, map, refines⟩
  | cons op ops ih =>
      intro table map results refines flagged meets returned
      obtain ⟨⟨result, ⟨middle, builder⟩⟩, stepped, returned⟩ := Option.bind_eq_some_iff.mp returned
      obtain ⟨⟨rest, last⟩, ran, same⟩ := Option.bind_eq_some_iff.mp returned
      cases same
      have middleFlagged := step_flagged refines flagged meets.1 stepped
      obtain ⟨middleMap, _, middleRefines, rfl⟩ :=
        GenericMap.step_refines (rawTableLaws hash) refines stepped
      exact ih middle middleMap rest middleRefines middleFlagged (meets.2 _ _ stepped) ran

/-- In every state of a run whose removals leave a load limit, the table counts as
allocated exactly when it owns an allocation. -/
theorem flag_matches_allocation (hash : K → UInt64) (capacity fuel : Nat) (ops : List (GenericOp K V))
    {results : List (MapResult K V)} {final : GenericMap (RawTable L S K V) K}
    (keeps : (GenericMap.withCapacityAndHasher capacity hash :
      GenericMap (RawTable L S K V) K).RunMeets (fun current op => current.table.KeepsLoad hash op) fuel ops)
    (returned : (GenericMap.withCapacityAndHasher capacity hash :
      GenericMap (RawTable L S K V) K).run fuel ops = some (results, final)) :
    final.table.isAllocated = true ↔ final.table.Allocated := by
  obtain ⟨flagged, _, refines⟩ := run_flagged ops _ _ results ((rawTableLaws hash).withCapacity capacity)
    (withCapacity_flagged capacity) keeps returned
  rw [isAllocated, decide_eq_true_iff]
  exact ⟨refines.valid.allocated, fun allocated => Nat.pos_of_ne_zero (flagged allocated)⟩

/-- A removal from a table of limit 13 leaves one. -/
theorem ufm_flag_after_removal :
    ∃ results final, (GenericMap.withCapacityAndHasher 1 id :
        GenericMap (RawTable (ufmLayout .asm) AoS UInt64 Nat) UInt64).run 4
        [.common (.insert 7 1), .common (.remove 7)] = some (results, final) ∧
      (final.table.isAllocated = true ↔ final.table.Allocated) := by
  have returns : ((GenericMap.withCapacityAndHasher 1 id :
      GenericMap (RawTable (ufmLayout .asm) AoS UInt64 Nat) UInt64).run 4
      [.common (.insert 7 1), .common (.remove 7)]).isSome = true := by decide +kernel
  have below : ((GenericMap.withCapacityAndHasher 1 id :
      GenericMap (RawTable (ufmLayout .asm) AoS UInt64 Nat) UInt64).step 4
      (.common (.insert 7 1))).all (fun outcome => decide
        (outcome.2.table.charges id (.common (.remove 7)) < outcome.2.table.maxLoad)) = true := by
    decide +kernel
  obtain ⟨⟨results, final⟩, returned⟩ := Option.isSome_iff_exists.mp returns
  refine ⟨results, final, returned, flag_matches_allocation id 1 4 _ ?_ returned⟩
  refine ⟨fun _ => ?_, fun result next stepped => ⟨fun _ => ?_, fun _ _ _ => trivial⟩⟩
  · decide +kernel
  · rw [stepped] at below
    simpa using below

/-- Overflow group 0, empty the table, then insert and remove one key of the
overflowed group until the limit is used up. -/
def leakOps : List (GenericOp UInt64 Nat) :=
  [.common (.reserve 20), .common (.extend (driftKeys 0 0 16)),
    .common (.retain fun _ value => (false, value))] ++
  (List.replicate 10 [.common (.insert 0 0), .common (.remove 0)]).flatten

/-- On the UFM layout the table then owns its two groups but counts as unallocated. -/
theorem ufm_live_table_unflagged :
    ∃ results final, (GenericMap.withHasher id :
        GenericMap (RawTable (ufmLayout .asm) AoS UInt64 Nat) UInt64).run 4 leakOps =
        some (results, final) ∧
      final.table.Allocated ∧ final.table.isAllocated = false ∧ final.table.mask = 1 ∧
      final.table.capacity = 0 := by
  have checked : ((GenericMap.withHasher id :
      GenericMap (RawTable (ufmLayout .asm) AoS UInt64 Nat) UInt64).run 4 leakOps).any
      (fun outcome => (match outcome.2.table.ctrl with | .alloc _ => true | .sentinel => false) &&
        !outcome.2.table.isAllocated && outcome.2.table.mask == 1 &&
        outcome.2.table.capacity == 0) = true := by
    decide +kernel
  obtain ⟨⟨results, final⟩, returned, facts⟩ := (Option.any_eq_true _ _).mp checked
  simp only [Bool.and_eq_true, Bool.not_eq_true', beq_iff_eq] at facts
  obtain ⟨⟨⟨owned, unflagged⟩, mask⟩, capacity⟩ := facts
  refine ⟨results, final, returned, ?_, unflagged, mask, capacity⟩
  cases shape : final.table.ctrl with
  | sentinel =>
      rw [shape] at owned
      cases owned
  | alloc bytes => exact ⟨bytes, shape⟩

end RawTable

end Optimap.Overflow
