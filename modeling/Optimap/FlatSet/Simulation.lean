import Optimap.FlatSet.RawTable
import Optimap.Overflow.Contract

/-!
# The set's engine and the overflow-bit table

The engine of the set is written for one layout. Seen as a table of the compact
sixteen-byte embedded layout with tuple storage, its operations are those of the
overflow-bit table, path by path.
-/

set_option autoImplicit false
set_option linter.unusedSectionVars false

namespace Optimap.FlatSet

open Lib Hash Map Overflow

namespace RawTable

variable {feature : ReducedHash} {K V : Type}

/-- The table as one of the generic engine. -/
def toOverflow (table : RawTable feature K V) : Overflow.RawTable (ufmLayout feature) AoS K V :=
  ⟨table.mask, table.metadata, ⟨table.buckets⟩, table.len, table.maxLoad, table.shift⟩

theorem toOverflow_withCapacity (capacity : Nat) :
    (withCapacity capacity : RawTable feature K V).toOverflow = Overflow.RawTable.withCapacity capacity := by
  unfold withCapacity Overflow.RawTable.withCapacity
  split
  · rfl
  · rfl

theorem matchEmpty_toOverflow (table : RawTable feature K V) (gi : Nat) :
    table.toOverflow.matchEmpty gi = table.matchEmpty gi := rfl

theorem hasOverflowBit_toOverflow (table : RawTable feature K V) (gi : Nat) (h : UInt64) :
    table.toOverflow.hasOverflowBit gi ((ufmLayout feature).tags.overflowChannel h) =
      table.hasOverflowBit gi (overflowBit h) := rfl

theorem readSlot_toOverflow (table : RawTable feature K V) (slot : Slot) :
    table.toOverflow.readSlot slot = table.bucket slot.1 slot.2 := by
  have key : table.toOverflow.key slot = (table.bucket slot.1 slot.2).map Prod.fst := rfl
  have value : table.toOverflow.value slot = (table.bucket slot.1 slot.2).map Prod.snd := rfl
  rw [Overflow.RawTable.readSlot, key, value]
  cases table.bucket slot.1 slot.2 with
  | none => rfl
  | some pair => rfl

theorem findInGroup_toOverflow (table : RawTable feature K V) (h : UInt64) (eq : K → Bool) (gi : Nat) :
    table.toOverflow.findInGroup h eq gi = table.findInGroup h eq gi := by
  have any : ∀ si, (table.toOverflow.key (gi, si)).any eq =
      (table.bucket gi si).any fun bucket => eq bucket.1 := by
    intro si
    have key : table.toOverflow.key (gi, si) = (table.bucket gi si).map Prod.fst := rfl
    rw [key, Option.any_map]
  unfold Overflow.RawTable.findInGroup findInGroup
  simp only [any]
  rfl

/-! ## Lookup -/

theorem findLoop_toOverflow (table : RawTable feature K V) (h : UInt64) (eq : K → Bool) (fuel : Nat) :
    ∀ gi probe, table.toOverflow.findLoop h eq fuel gi probe = table.findLoop h eq fuel gi probe := by
  induction fuel with
  | zero => intro gi probe; rfl
  | succ fuel ih =>
      intro gi probe
      unfold Overflow.RawTable.findLoop findLoop
      rw [findInGroup_toOverflow, hasOverflowBit_toOverflow, ih]
      rfl

theorem findByHash_toOverflow (table : RawTable feature K V) (fuel : Nat) (h : UInt64) (eq : K → Bool) :
    table.toOverflow.findByHash fuel h eq = table.findByHash fuel h eq :=
  findLoop_toOverflow table h eq fuel _ _

/-! ## Removal and insertion -/

theorem toOverflow_eraseSlot (table : RawTable feature K V) (h : UInt64) (gi si : Nat) :
    (table.eraseSlot h gi si).toOverflow = table.toOverflow.eraseSlot h (gi, si) := by
  unfold eraseSlot Overflow.RawTable.eraseSlot
  simp only
  split
  · rename_i set
    exact (if_pos set).symm
  · rename_i clear
    exact (if_neg clear).symm

theorem removeByHash_toOverflow (table : RawTable feature K V) (fuel : Nat) (h : UInt64) (eq : K → Bool) :
    table.toOverflow.removeByHash fuel h eq =
      (table.removeByHash fuel h eq).map fun outcome => (outcome.1, outcome.2.toOverflow) := by
  unfold Overflow.RawTable.removeByHash removeByHash
  rw [findByHash_toOverflow]
  cases table.findByHash fuel h eq with
  | none => rfl
  | some found =>
      cases found with
      | none => rfl
      | some slot =>
          obtain ⟨gi, si⟩ := slot
          simp only [bind, Option.bind, pure, Option.map_some, readSlot_toOverflow, toOverflow_eraseSlot]

theorem insertLoop_toOverflow (h : UInt64) (key : K) (value : V) (fuel : Nat) :
    ∀ (table : RawTable feature K V) gi probe,
      Overflow.RawTable.insertLoop h key value fuel table.toOverflow gi probe =
        (insertLoop h key value fuel table gi probe).map fun outcome => (outcome.1, outcome.2.toOverflow) := by
  induction fuel with
  | zero => intro table gi probe; rfl
  | succ fuel ih =>
      intro table gi probe
      unfold Overflow.RawTable.insertLoop insertLoop
      rw [matchEmpty_toOverflow]
      cases (table.matchEmpty gi).head? with
      | some si => rfl
      | none => exact ih (table.setOverflowBit gi (overflowBit h)) _ _

theorem insertNoCheck_toOverflow (table : RawTable feature K V) (fuel : Nat) (h : UInt64) (key : K) (value : V) :
    table.toOverflow.insertNoCheck fuel h key value =
      (table.insertNoCheck fuel h key value).map fun outcome => (outcome.1, outcome.2.toOverflow) :=
  insertLoop_toOverflow h key value fuel table _ _

theorem reinsert_toOverflow (fuel : Nat) (hash : K → UInt64) (entries : List (K × V)) :
    ∀ table : RawTable feature K V, Overflow.RawTable.reinsert fuel hash entries table.toOverflow =
      (reinsert fuel hash entries table).map toOverflow := by
  induction entries with
  | nil => intro table; rfl
  | cons entry entries ih =>
      intro table
      obtain ⟨key, value⟩ := entry
      unfold Overflow.RawTable.reinsert reinsert
      rw [insertNoCheck_toOverflow]
      cases table.insertNoCheck fuel (hash key) key value with
      | none => rfl
      | some outcome => exact ih outcome.2

theorem rehashWith_toOverflow (table : RawTable feature K V) (fuel : Nat) (hash : K → UInt64)
    (newNumGroups : Nat) :
    Overflow.RawTable.rehashWith fuel hash table.toOverflow newNumGroups =
      (rehashWith fuel hash table newNumGroups).map toOverflow := by
  have entries : table.toOverflow.occupiedSlots.filterMap table.toOverflow.readSlot =
      table.occupiedSlots.filterMap fun slot => table.bucket slot.1 slot.2 := by
    refine List.filterMap_congr fun slot _ => ?_
    exact readSlot_toOverflow table slot
  unfold Overflow.RawTable.rehashWith rehashWith
  simp only [entries]
  cases live : table.isAllocated with
  | true =>
      have liveOverflow : table.toOverflow.isAllocated = true := live
      rw [if_pos liveOverflow, if_pos rfl]
      exact reinsert_toOverflow fuel hash _
        (({ (new : RawTable feature K V) with shift := table.shift } : RawTable feature K V).allocate newNumGroups)
  | false =>
      have deadOverflow : table.toOverflow.isAllocated = false := live
      rw [if_neg (by simp [deadOverflow]), if_neg (by simp)]
      rfl

/-! ## Whole-table operations -/

theorem toOverflow_clear (table : RawTable feature K V) : table.clear.toOverflow = table.toOverflow.clear := by
  unfold clear Overflow.RawTable.clear isAllocated
  by_cases unloaded : table.maxLoad = 0
  · rw [if_neg (by simp [unloaded]), if_pos (show table.toOverflow.maxLoad = 0 from unloaded)]
  · rw [if_pos (by simpa using Nat.pos_of_ne_zero unloaded), if_neg (show ¬ table.toOverflow.maxLoad = 0 from unloaded)]
    rfl

theorem iterSlots_toOverflow (table : RawTable feature K V) : table.toOverflow.iterSlots = table.iterSlots := by
  have unallocated : table.isAllocated = false ↔ table.maxLoad = 0 := by
    simp [isAllocated]
  unfold Overflow.RawTable.iterSlots iterSlots
  simp only [unallocated]
  rfl

theorem toOverflow_clone (table : RawTable feature K V) :
    (∀ slot ∈ table.occupiedSlots, (table.bucket slot.1 slot.2).isSome) →
    table.clone.toOverflow = table.toOverflow.cloneTable := by
  intro readable
  have copies : ∀ (slots : List Slot) (buckets : Nat → Option (K × V)),
      (∀ slot ∈ slots, (table.bucket slot.1 slot.2).isSome) →
      (⟨slots.foldl (fun buckets slot =>
          setCell buckets (slot.1 * GROUP_SIZE + slot.2) (table.bucket slot.1 slot.2)) buckets⟩ : AoS K V) =
        slots.foldl table.toOverflow.cloneSlot ⟨buckets⟩ := by
    intro slots
    induction slots with
    | nil => intro buckets _; rfl
    | cons slot slots ih =>
        intro buckets readable
        rw [List.foldl_cons, List.foldl_cons, ih _ fun other member => readable other (List.mem_cons_of_mem _ member)]
        congr 1
        obtain ⟨pair, read⟩ := Option.isSome_iff_exists.mp (readable slot List.mem_cons_self)
        simp only [Overflow.RawTable.cloneSlot, readSlot_toOverflow, read]
        rfl
  unfold clone Overflow.RawTable.cloneTable isAllocated
  by_cases unloaded : table.maxLoad = 0
  · rw [if_neg (by simp [unloaded]), if_pos (show table.toOverflow.maxLoad = 0 from unloaded)]
    rfl
  · rw [if_pos (by simpa using Nat.pos_of_ne_zero unloaded), if_neg (show ¬ table.toOverflow.maxLoad = 0 from unloaded)]
    have copied := copies table.occupiedSlots (fun _ => none) readable
    simp only [toOverflow]
    congr 1

end RawTable

end Optimap.FlatSet
