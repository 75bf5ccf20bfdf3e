import Optimap.Overflow.Termination

/-!
# The anti-drift balance over runs

Every operation keeps a table balanced, except a removal that frees a slot of an
overflowed group without lowering `max_load`: the removed key sits in its home
group, and the group has other channels' bits set but not the key's own.
-/

set_option autoImplicit false
set_option linter.unusedSectionVars false

namespace Optimap.Overflow

open Lib Hash Map

namespace RawTable

variable {L : GroupLayout} {S : Type → Type → Type} [KvStorage S] {K V : Type} [DecidableEq K]
  {hash : K → UInt64} {table later : RawTable L S K V} {map : PMap K V}

/-- New bits on full groups and fewer free slots do not raise the slack. -/
theorem Balanced.of_le (balanced : table.Balanced) (mask : later.mask = table.mask)
    (maxLoad : later.maxLoad = table.maxLoad)
    (bits : ∀ gi ≤ table.mask, later.anyOverflow gi = true →
      table.anyOverflow gi = true ∨ table.free gi = 0)
    (slots : ∀ gi ≤ table.mask, later.free gi ≤ table.free gi) : later.Balanced := by
  have smaller : later.slack ≤ table.slack := by
    unfold slack
    rw [mask]
    refine Finset.sum_le_sum fun gi member => ?_
    have bound : gi ≤ table.mask := Nat.le_of_lt_succ (Finset.mem_range.mp member)
    have fewer := slots gi bound
    by_cases now : later.anyOverflow gi = true
    · rcases bits gi bound now with before | full
      · rw [if_pos now, if_pos before]
        exact fewer
      · rw [if_pos now]
        omega
    · rw [if_neg now]
      exact Nat.zero_le _
  unfold Balanced at balanced ⊢
  rw [mask, maxLoad]
  omega

/-- A table without overflow bits is balanced at any load. -/
theorem balanced_of_clear (clear : ∀ gi ≤ table.mask, table.anyOverflow gi = false)
    (maxLoad : table.maxLoad ≤ L.maxLoadFor (table.mask + 1)) : table.Balanced := by
  have zero : table.slack = 0 := by
    refine Finset.sum_eq_zero fun gi member => ?_
    rw [if_neg (by rw [clear gi (Nat.le_of_lt_succ (Finset.mem_range.mp member))]; decide)]
  unfold Balanced
  omega

theorem new_balanced : (new : RawTable L S K V).Balanced := by
  refine balanced_of_clear (fun gi _ => ?_) (Nat.zero_le _)
  simp [anyOverflow, hasOverflowBit, new, Ctrl.read]

theorem allocate_balanced {numGroups : Nat} (positive : 0 < numGroups) :
    (table.allocate numGroups).Balanced := by
  refine balanced_of_clear (fun gi _ => ?_) ?_
  · simp [anyOverflow, hasOverflowBit, allocate, Ctrl.read]
  · simp only [allocate, Nat.sub_add_cancel positive, le_refl]

theorem withCapacity_balanced (capacity : Nat) :
    (withCapacity capacity : RawTable L S K V).Balanced := by
  obtain ⟨bits, power⟩ := L.groupsForCapacity_power capacity
  unfold withCapacity
  split
  · exact new_balanced
  · exact allocate_balanced (by rw [power]; exact Nat.two_pow_pos bits)

theorem fillSlot_free_le {h : UInt64} {slot : Slot} {key : K} {value : V}
    (allocated : table.Allocated) (inside : table.InRange slot) {gi : Nat} (bound : gi ≤ table.mask) :
    (table.fillSlot h slot key value).free gi ≤ table.free gi := by
  refine Finset.card_le_card fun si member => ?_
  obtain ⟨range, empty⟩ := Finset.mem_filter.mp member
  refine Finset.mem_filter.mpr ⟨range, ?_⟩
  have written := @fillSlot_metaByte _ _ _ _ _ _ _ h _ key value allocated inside (gi, si)
    ⟨bound, Finset.mem_range.mp range⟩
  rw [written] at empty
  split at empty
  · exact absurd empty (L.tags.tag_ne_empty h)
  · exact empty

theorem fillSlot_balanced {h : UInt64} {slot : Slot} {key : K} {value : V} (balanced : table.Balanced)
    (allocated : table.Allocated) (inside : table.InRange slot) :
    (table.fillSlot h slot key value).Balanced := by
  refine balanced.of_le rfl rfl (fun gi _ set => .inl ?_)
    (fun gi bound => fillSlot_free_le allocated inside bound)
  unfold anyOverflow at set ⊢
  rwa [fillSlot_hasOverflowBit inside] at set

theorem BitsGrow.balanced (grow : table.BitsGrow later) (balanced : table.Balanced)
    (bits : ∀ gi ≤ table.mask, later.anyOverflow gi = true →
      table.anyOverflow gi = true ∨ table.free gi = 0) : later.Balanced := by
  refine balanced.of_le grow.mask grow.maxLoad bits (fun gi bound => le_of_eq ?_)
  exact free_congr fun si inside => grow.metaByte (gi, si) ⟨bound, inside⟩

theorem insertNoCheck_balanced {fuel : Nat} {h : UInt64} {key : K} {value : V} {slot : Slot}
    (balanced : table.Balanced) (allocated : table.Allocated)
    (returned : table.insertNoCheck fuel h key value = some (slot, later)) : later.Balanced := by
  obtain ⟨last, full, vacant, rfl⟩ := insertNoCheck_returns allocated returned
  have grow := setBits_bitsGrow (L.tags.overflowChannel h) (table.probeRange h 0 last) table
  refine fillSlot_balanced (grow.balanced balanced fun gi _ set => ?_) (grow.allocated allocated) vacant.1
  rcases setBits_only _ set with before | passed
  · exact .inl before
  · exact .inr (free_eq_zero (full gi passed))

theorem reinsert_balanced {fuel : Nat} (entries : List (K × V)) :
    ∀ {table later : RawTable L S K V}, table.Balanced → table.Allocated →
      reinsert fuel hash entries table = some later → later.Balanced := by
  induction entries with
  | nil => intro table later balanced _ returned; cases returned; exact balanced
  | cons entry entries ih =>
      intro table later balanced allocated returned
      obtain ⟨⟨slot, middle⟩, inserted, rest⟩ := Option.bind_eq_some_iff.mp returned
      refine ih (insertNoCheck_balanced balanced allocated inserted) ?_ rest
      obtain ⟨last, _, vacant, rfl⟩ := insertNoCheck_returns allocated inserted
      exact setMeta_allocated ((setBits_bitsGrow _ _ table).allocated allocated) _ _ _

theorem rehashWith_balanced {fuel newNumGroups : Nat} (positive : 0 < newNumGroups)
    (returned : rehashWith fuel hash table newNumGroups = some later) : later.Balanced := by
  unfold rehashWith at returned
  simp only at returned
  split at returned
  · exact reinsert_balanced _ (allocate_balanced positive) ⟨_, rfl⟩ returned
  · cases returned
    exact allocate_balanced positive

theorem ensureCapacity_balanced {fuel : Nat} (balanced : table.Balanced)
    (returned : ensureCapacity fuel hash table = some later) : later.Balanced := by
  unfold ensureCapacity at returned
  split at returned
  · refine rehashWith_balanced ?_ returned
    split <;> omega
  · cases returned
    exact balanced

theorem reserve_balanced {fuel additional : Nat} (balanced : table.Balanced)
    (returned : reserve fuel hash table additional = some later) : later.Balanced := by
  obtain ⟨bits, power⟩ := L.groupsForCapacity_power (table.len + additional)
  have positive : 0 < L.groupsForCapacity (table.len + additional) := by
    rw [power]
    exact Nat.two_pow_pos bits
  unfold reserve at returned
  simp only at returned
  split at returned
  · cases returned
    split
    · exact allocate_balanced positive
    · exact balanced
  · split at returned
    · exact rehashWith_balanced positive returned
    · cases returned
      exact balanced

theorem shrinkToFit_balanced {fuel : Nat} (balanced : table.Balanced)
    (returned : shrinkToFit fuel hash table = some later) : later.Balanced := by
  obtain ⟨bits, power⟩ := L.groupsForCapacity_power table.len
  unfold shrinkToFit at returned
  split at returned
  · cases returned
    exact new_balanced
  · split at returned
    · exact rehashWith_balanced (by rw [power]; exact Nat.two_pow_pos bits) returned
    · cases returned
      exact balanced

theorem writeValue_balanced {slot : Slot} {value : V} (balanced : table.Balanced) :
    (table.writeValue slot value).Balanced := balanced

theorem clear_balanced (valid : table.Valid hash) (balanced : table.Balanced) : table.clear.Balanced := by
  unfold clear
  split
  · exact balanced
  · rename_i loaded
    obtain ⟨bytes, shape⟩ := valid.allocated (by omega)
    refine balanced_of_clear (fun gi bound => ?_) (le_refl _)
    have zeroed := GroupLayout.overflowOffset_lt (L := L) bound
    simp only [anyOverflow, hasOverflowBit, shape, Ctrl.zero, Ctrl.read, numGroups, zeroed, ↓reduceIte,
      UInt8.zero_and, bne_self_eq_false]

theorem cloneTable_balanced (balanced : table.Balanced) : table.cloneTable.Balanced := by
  rcases Nat.eq_zero_or_pos table.maxLoad with unloaded | live
  · unfold cloneTable
    rw [if_pos unloaded]
    exact new_balanced
  · have loaded : table.maxLoad ≠ 0 := by omega
    obtain ⟨mask, maxLoad, _, _⟩ := cloneTable_fields loaded
    refine balanced.of_le mask maxLoad (fun gi bound set => .inl ?_) (fun gi bound => le_of_eq ?_)
    · rw [← set]
      exact (cloneTable_hasOverflowBit loaded bound 0xFF).symm
    · exact free_congr fun si inside => @cloneTable_metaByte _ _ _ _ _ _ _ loaded (gi, si) ⟨bound, inside⟩

/-! ## Removals -/

/-- A removal from an overflowed home group finds the key's own bit set, so that
the anti-drift step fires. -/
def Charged (hash : K → UInt64) (table : RawTable L S K V) (slot : Slot) (key : K) : Prop :=
  slot.1 = table.groupIndex (hash key) → table.anyOverflow slot.1 = true →
    table.hasOverflowBit slot.1 (L.tags.overflowChannel (hash key)) = true

theorem eraseSlot_free {slot : Slot} (occupied : table.Occupied slot) (h : UInt64) {gi : Nat}
    (bound : gi ≤ table.mask) :
    (table.eraseSlot h slot).free gi ≤ table.free gi + if gi = slot.1 then 1 else 0 := by
  have cleared : ∀ si < L.groupSize, (table.eraseSlot h slot).metaByte gi si =
      if (gi, si) = slot then EMPTY else table.metaByte gi si := fun si inside =>
    @eraseSlot_metaByte _ _ _ _ _ _ _ _ occupied.allocated occupied.1 h (gi, si) ⟨bound, inside⟩
  by_cases same : gi = slot.1
  · subst same
    rw [if_pos rfl]
    refine le_trans (Finset.card_le_card ?_)
      (Finset.card_insert_le slot.2
        ((Finset.range L.groupSize).filter fun si => table.metaByte slot.1 si = EMPTY))
    intro si member
    obtain ⟨range, empty⟩ := Finset.mem_filter.mp member
    rw [cleared si (Finset.mem_range.mp range)] at empty
    rw [Finset.mem_insert, Finset.mem_filter]
    by_cases here : si = slot.2
    · exact .inl here
    · rw [if_neg (fun equal => here (congrArg Prod.snd equal))] at empty
      exact .inr ⟨range, empty⟩
  · rw [if_neg same, Nat.add_zero]
    refine le_of_eq (free_congr fun si inside => ?_)
    rw [cleared si inside, if_neg (fun equal => same (congrArg Prod.fst equal))]

/-- Erasing raises the slack by at most one, and by none outside overflowed groups. -/
theorem eraseSlot_slack {slot : Slot} (occupied : table.Occupied slot) (h : UInt64) :
    (table.eraseSlot h slot).slack ≤ table.slack + if table.anyOverflow slot.1 then 1 else 0 := by
  have member : slot.1 ∈ Finset.range (table.mask + 1) :=
    Finset.mem_range.mpr (Nat.lt_succ_of_le occupied.1.1)
  have bits : ∀ gi, (table.eraseSlot h slot).anyOverflow gi = table.anyOverflow gi := fun gi =>
    eraseSlot_hasOverflowBit occupied.1 h gi 0xFF
  have extra : (if table.anyOverflow slot.1 then 1 else 0) =
      ∑ gi ∈ Finset.range (table.mask + 1),
        if gi = slot.1 then (if table.anyOverflow gi then 1 else 0) else 0 := by
    rw [Finset.sum_ite_eq', if_pos member]
  unfold slack
  rw [(eraseSlot_fields occupied.1 h).1, extra, ← Finset.sum_add_distrib]
  refine Finset.sum_le_sum fun gi here => ?_
  have fewer := eraseSlot_free occupied h (Nat.le_of_lt_succ (Finset.mem_range.mp here))
  rw [bits]
  by_cases set : table.anyOverflow gi = true
  · simpa [set] using fewer
  · simp [set]

theorem eraseSlot_balanced {slot : Slot} {key : K} {value : V} (valid : table.Valid hash)
    (balanced : table.Balanced) (holds : table.Holds slot key value)
    (charged : table.Charged hash slot key) : (table.eraseSlot (hash key) slot).Balanced := by
  have slackLe := eraseSlot_slack holds.1 (hash key)
  have maskEq := (eraseSlot_fields holds.1.1 (hash key)).1
  have positive : 0 < table.maxLoad := by
    have member := mem_occupiedSlots.mpr holds.1
    have count := List.length_pos_of_mem member
    have lenEq := valid.len_eq
    have lenLe := valid.len_le
    omega
  -- A key outside its home group left its bit there on the way.
  have fires : table.anyOverflow slot.1 = true →
      table.hasOverflowBit (table.groupIndex (hash key)) (L.tags.overflowChannel (hash key)) = true := by
    intro overflowed
    obtain ⟨_, probe, reached, passed⟩ := valid.locate holds
    rcases Nat.eq_zero_or_pos probe with home | away
    · subst home
      have here : slot.1 = table.groupIndex (hash key) := reached.symm
      rw [← here]
      exact charged here overflowed
    · exact passed 0 away
  have load : (table.eraseSlot (hash key) slot).maxLoad =
      if table.hasOverflowBit (table.groupIndex (hash key)) (L.tags.overflowChannel (hash key)) = true
        then table.maxLoad - 1 else table.maxLoad := by
    rw [eraseSlot_eq holds.1.1]
  unfold Balanced at balanced ⊢
  rw [maskEq, load]
  by_cases overflowed : table.anyOverflow slot.1 = true
  · rw [if_pos (fires overflowed)]
    rw [if_pos overflowed] at slackLe
    omega
  · rw [if_neg overflowed] at slackLe
    split <;> omega

/-! ## Insertion paths -/

theorem growAndRehash_balanced {fuel : Nat} (returned : growAndRehash fuel hash table = some later) :
    later.Balanced := by
  refine rehashWith_balanced ?_ returned
  split <;> omega

theorem insertAtCapacity_balanced {fuel : Nat} {key : K} {value : V} {result : Option V}
    (refines : table.Refines hash map) (balanced : table.Balanced)
    (returned : table.insertAtCapacity fuel hash (hash key) key value = some (result, later)) :
    later.Balanced := by
  obtain ⟨found, looked, returned⟩ := Option.bind_eq_some_iff.mp returned
  cases found with
  | some slot => cases returned; exact writeValue_balanced balanced
  | none =>
      obtain ⟨grown, ran, returned⟩ := Option.bind_eq_some_iff.mp returned
      obtain ⟨⟨slot, inserted⟩, placed, same⟩ := Option.bind_eq_some_iff.mp returned
      cases same
      obtain ⟨grownRefines, room⟩ := growAndRehash_refines refines ran
      exact insertNoCheck_balanced (growAndRehash_balanced ran)
        (grownRefines.valid.allocated (by omega)) placed

theorem insertOverflow_balanced {fuel : Nat} {key : K} {value : V} {result : Option V}
    (refines : table.Refines hash map) (balanced : table.Balanced) (room : table.len < table.maxLoad)
    (returned : table.insertOverflow fuel hash (hash key) key value = some (result, later)) :
    later.Balanced := by
  obtain ⟨found, looked, returned⟩ := Option.bind_eq_some_iff.mp returned
  cases found with
  | some slot => cases returned; exact writeValue_balanced balanced
  | none =>
      obtain ⟨grown, kept, returned⟩ := Option.bind_eq_some_iff.mp returned
      rw [if_neg (by omega)] at kept
      cases kept
      obtain ⟨⟨slot, inserted⟩, placed, same⟩ := Option.bind_eq_some_iff.mp returned
      cases same
      exact insertNoCheck_balanced balanced (refines.valid.allocated (by omega)) placed

theorem insertOrReplace_balanced {fuel : Nat} {key : K} {value : V} {result : Option V}
    (refines : table.Refines hash map) (balanced : table.Balanced)
    (returned : insertOrReplace fuel hash table key value = some (result, later)) : later.Balanced := by
  have lenLe := refines.valid.len_le
  have prepared : (if table.maxLoad = 0 then table.allocate 1 else table).Refines hash map ∧
      (if table.maxLoad = 0 then table.allocate 1 else table).Balanced := by
    split
    · have len : table.len = 0 := by omega
      rw [refines.map_eq_empty len]
      exact ⟨allocate_refines ⟨0, rfl⟩ len, allocate_balanced Nat.one_pos⟩
    · exact ⟨refines, balanced⟩
  unfold insertOrReplace at returned
  simp only at returned
  generalize (if table.maxLoad = 0 then table.allocate 1 else table) = start at prepared returned
  split at returned
  · exact insertAtCapacity_balanced prepared.1 prepared.2 returned
  · rename_i below
    have room : start.len < start.maxLoad := by omega
    split at returned
    · cases returned
      exact writeValue_balanced prepared.2
    · split at returned
      · rename_i si head _
        cases returned
        exact fillSlot_balanced prepared.2 (prepared.1.valid.allocated (by omega)) (home_vacant head).1
      · exact insertOverflow_balanced prepared.1 prepared.2 room returned

/-- The mask of an entry insertion only repeats bits that are set. -/
theorem insertAt_balanced {key : K} {slot : Slot} {mask : UInt8} (balanced : table.Balanced)
    (allocated : table.Allocated) (vacant : table.Vacant (hash key) slot)
    (passed : table.MaskPassed (hash key) mask) (value : V) :
    (table.insertAt (hash key) slot key value mask).Balanced := by
  have grow := setFullMask_bitsGrow (L.tags.overflowChannel (hash key)) 8 table
    (table.groupIndex (hash key)) 0 mask
  refine fillSlot_balanced (grow.balanced balanced fun gi _ set => .inl ?_)
    (grow.allocated allocated) ⟨grow.mask ▸ vacant.1.1, vacant.1.2⟩
  rcases @setFullMask_only _ _ _ _ _ _ _ 8 _ 0 _ _ set with before | ⟨bit, here, rfl⟩
  · exact before
  · rw [Nat.zero_add]
    exact anyOverflow_of_hasOverflowBit (passed bit here)

theorem rawTableInvariant (hash : K → UInt64) :
    RawTableInvariant (T := RawTable L S K V) hash (Refines hash) Holds Ready Balanced
      (Charged hash) where
  new := new_balanced
  withCapacity := withCapacity_balanced
  writeValue _ balanced _ _ := writeValue_balanced balanced
  clear refines balanced := clear_balanced refines.valid balanced
  insertOrReplace := insertOrReplace_balanced
  insertAt refines balanced returned value := by
    obtain ⟨_, vacant, room, passed⟩ := findForEntry_refines refines returned
    exact insertAt_balanced balanced (refines.valid.allocated (by omega)) vacant passed value
  ensureCapacity _ := ensureCapacity_balanced
  insertNoCheck {_ table _ _ _ _ _} refines balanced ready _ := by
    have room : table.len < table.maxLoad := ready
    exact insertNoCheck_balanced balanced (refines.valid.allocated (by omega))
  eraseSlot refines balanced holds charged := eraseSlot_balanced refines.valid balanced holds charged
  removeByHash refines balanced charged returned := by
    obtain ⟨found, looked, returned⟩ := Option.bind_eq_some_iff.mp returned
    have outcome := findByHash_refines refines looked
    cases found with
    | some slot =>
        obtain ⟨value, holds⟩ := outcome
        cases returned
        exact eraseSlot_balanced refines.valid balanced holds (charged slot value holds)
    | none => cases returned; exact balanced
  reserve _ := reserve_balanced
  shrinkToFit _ := shrinkToFit_balanced
  cloneTable _ := cloneTable_balanced
  removable_writeValue _ _ _ _ _ charged := charged
  removable_eraseSlot {_ _ slot key _} refines holds other otherKey charged := by
    intro home overflowed
    have inside := holds.1.1
    have sameHome : (eraseSlot _ (hash key) slot).groupIndex (hash otherKey) =
        groupIndex _ (hash otherKey) := eraseSlot_probeAt inside (hash key) (hash otherKey) 0
    have bits := eraseSlot_hasOverflowBit inside (hash key) other.1
    change (eraseSlot _ (hash key) slot).hasOverflowBit _ _ = true
    rw [bits]
    refine charged (home.trans sameHome) ?_
    rw [← overflowed]
    exact (bits 0xFF).symm

/-! ## Termination over runs -/

/-- Without a match and with the bit set everywhere, a lookup never returns. -/
theorem findLoop_eq_none {h : UInt64} {eq : K → Bool}
    (missed : ∀ gi ≤ table.mask, table.findInGroup h eq gi = none)
    (set : ∀ gi ≤ table.mask, table.hasOverflowBit gi (L.tags.overflowChannel h) = true)
    (fuel : Nat) : ∀ probe, table.findLoop h eq fuel (table.probeAt h probe) probe = none := by
  induction fuel with
  | zero => intro probe; rfl
  | succ fuel ih =>
      intro probe
      unfold findLoop
      rw [missed _ (table.probeAt_le h probe), set _ (table.probeAt_le h probe)]
      exact ih (probe + 1)

theorem findOrLocateOverflow_eq_none {h : UInt64} {eq : K → Bool}
    (missed : ∀ gi ≤ table.mask, table.findInGroup h eq gi = none)
    (set : ∀ gi ≤ table.mask, table.hasOverflowBit gi (L.tags.overflowChannel h) = true)
    (fuel : Nat) : ∀ probe firstEmpty fullMask, table.findOrLocateOverflow h eq fuel
      (table.probeAt h probe) probe firstEmpty fullMask = none := by
  induction fuel with
  | zero => intro probe firstEmpty fullMask; rfl
  | succ fuel ih =>
      intro probe firstEmpty fullMask
      unfold findOrLocateOverflow
      rw [missed _ (table.probeAt_le h probe), set _ (table.probeAt_le h probe)]
      exact ih (probe + 1) _ _

theorem findOrLocate_eq_none {h : UInt64} {eq : K → Bool}
    (missed : ∀ gi ≤ table.mask, table.findInGroup h eq gi = none)
    (set : ∀ gi ≤ table.mask, table.hasOverflowBit gi (L.tags.overflowChannel h) = true)
    (fuel : Nat) : table.findOrLocate fuel h eq = none := by
  have next : table.nextGroup (table.groupIndex h) 1 = table.probeAt h 1 := rfl
  simp only [findOrLocate, missed _ (table.groupIndex_le h), set _ (table.groupIndex_le h), next,
    ↓reduceIte, findOrLocateOverflow_eq_none missed set]
  split <;> rfl

/-- `count` keys of one home group and one channel, in a table of two groups
hashed by the identity. -/
def driftKeys (group channel count : Nat) : List (UInt64 × Nat) :=
  (List.range count).map fun i => (UInt64.ofNat (group * 2 ^ 63 + i * 8 + channel), 0)

/-- Fill group 0 with keys of channel 1 and push one key of channel 0 out of it,
remove the others, then fill group 1 and push a key of channel 0 out of it. -/
def driftOps : List (GenericOp UInt64 Nat) :=
  [.common (.reserve 20), .common (.extend (driftKeys 0 1 15 ++ driftKeys 0 0 1)),
    .common (.retain fun key value => (key == 0, value)),
    .common (.extend (driftKeys 1 1 14 ++ driftKeys 1 0 1))]

end RawTable

end Optimap.Overflow
