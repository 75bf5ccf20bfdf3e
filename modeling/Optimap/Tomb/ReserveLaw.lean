import Optimap.Map.Growth
import Optimap.Tomb.EntryInsertion

/-!
# What `reserve` guarantees

Tombstones may eat the growth that `reserve` counted on. They are purged at the same
size when it runs out, so the group count only grows with the entries.
-/

set_option autoImplicit false
set_option linter.unusedSectionVars false

namespace Optimap.Tomb

open Lib Hash Map

namespace RawTable

variable {engine : Engine} {tag : TombstoneTag} {S : Type → Type → Type} [KvStorage S] {K V : Type}
  [DecidableEq K] {hash : K → UInt64} {table later : RawTable engine tag S K V} {map : PMap K V} {key : K}
  {value : V}

/-- The nominal load leaves room for so many more entries. -/
def RoomFor (table : RawTable engine tag S K V) (left : Nat) : Prop :=
  table.isAllocated = true ∧ table.len + left ≤ engine.maxLoadFor table.numGroups

/-- Tables that stand for one map count the same entries. -/
theorem Refines.len_unique (first : table.Refines hash map) (second : later.Refines hash map) :
    later.len = table.len := by
  rw [← first.valid.readSlots_length, ← second.valid.readSlots_length]
  exact (second.enumerates.perm first.enumerates).length_eq

theorem Refines.allocated_of_entry (refines : table.Refines hash map) (filled : 0 < table.len) :
    table.isAllocated = true := by
  cases allocated : table.isAllocated with
  | true => rfl
  | false =>
      have len := refines.valid.len_of_unallocated allocated
      omega

/-- A rehash that the entries fit into. -/
theorem rehashWith_fields {fuel newNumGroups : Nat} (refines : table.Refines hash map)
    (power : ∃ bits, newNumGroups = 2 ^ bits) (room : table.len < engine.maxLoadFor newNumGroups)
    (returned : rehashWith fuel hash table newNumGroups = some later) :
    later.numGroups = newNumGroups ∧ later.len = table.len ∧ later.isAllocated = true := by
  obtain ⟨laterRefines, mask, growth⟩ := rehashWith_refines refines power room.le returned
  obtain ⟨bits, rfl⟩ := power
  have positive := Nat.two_pow_pos bits
  refine ⟨?_, refines.len_unique laterRefines, laterRefines.valid.isAllocated_iff.mpr
    (laterRefines.valid.allocated_of_growth (by omega))⟩
  rw [numGroups, mask]
  omega

theorem grownGroups_of_room {left : Nat} (room : table.RoomFor (left + 1)) :
    table.grownGroups = table.numGroups := by
  have loaded := room.2
  rw [grownGroups, if_pos room.1, if_neg (by omega)]

/-- A new key takes a place; at worst the tombstones are purged for it. -/
theorem RoomFor.insert {fuel left : Nat} {result : Option V} (refines : table.Refines hash map)
    (absent : map key = none) (room : table.RoomFor (left + 1))
    (returned : table.insertOrReplace fuel hash key value = some (result, later)) :
    later.numGroups = table.numGroups ∧ later.RoomFor left := by
  have laterRefines := (insertOrReplace_refines refines returned).2
  have fields : later.numGroups = table.numGroups ∧ later.len = table.len + 1 := by
    cases insertOrReplace_absent refines absent room.1 returned with
    | home _ _ => exact ⟨rfl, rfl⟩
    | probed _ _ _ => exact ⟨rfl, rfl⟩
    | grown _ grew inserted =>
        obtain ⟨rfl, _⟩ := insertNoCheck_first inserted
        obtain ⟨groups, len, _⟩ := rehashWith_fields refines (grownGroups_power refines.valid)
          (len_lt_grown refines.valid) grew
        rw [grownGroups_of_room room] at groups
        exact ⟨groups, congrArg (· + 1) len⟩
  obtain ⟨groups, len⟩ := fields
  have loaded := room.2
  refine ⟨groups, laterRefines.allocated_of_entry (by omega), ?_⟩
  rw [groups]
  omega

/-- What `reserve` leaves. -/
theorem reserve_room {fuel additional : Nat} (refines : table.Refines hash map) (some_more : 0 < additional)
    (returned : reserve fuel hash table additional = some later) : later.RoomFor additional := by
  have enough := engine.le_maxLoadFor_groupsForCapacity (table.len + additional)
  unfold reserve at returned
  simp only at returned
  split at returned
  · rename_i allocated
    split at returned
    · obtain ⟨groups, len, laterAllocated⟩ := rehashWith_fields refines
        (engine.groupsForCapacity_power _) (by omega) returned
      refine ⟨laterAllocated, ?_⟩
      rw [groups, len]
      exact enough
    · rename_i kept
      cases returned
      refine ⟨allocated, ?_⟩
      by_contra short
      have fewer : engine.groupsForCapacity (table.len + additional) ≤ table.numGroups := by omega
      have monotone := engine.maxLoadFor_mono fewer
      omega
  · cases returned
    rename_i unallocated
    have positive : 0 < engine.groupsForCapacity (table.len + additional) := by
      obtain ⟨bits, power⟩ := engine.groupsForCapacity_power (table.len + additional)
      rw [power]
      exact Nat.two_pow_pos bits
    have groups : (table.allocate (engine.groupsForCapacity (table.len + additional))).numGroups =
        engine.groupsForCapacity (table.len + additional) := Nat.sub_add_cancel positive
    refine ⟨isAllocated_allocate _ positive, ?_⟩
    rw [groups]
    exact enough

/-- After `reserve` as many new keys never change the group count. -/
theorem reserve_keeps_groups {fuel rounds : Nat} {entries : List (K × V)} (refines : table.Refines hash map)
    (returned : reserve fuel hash table entries.length = some later)
    (distinct : (entries.map Prod.fst).Nodup) (fresh : ∀ entry ∈ entries, map entry.1 = none) :
    GenericMap.KeepsGroups numGroups rounds entries
      (⟨later, hash⟩ : GenericMap (RawTable engine tag S K V) K) := by
  cases entries with
  | nil => trivial
  | cons entry entries =>
      exact GenericMap.keepsGroups_of_room (rawTableLaws hash) RoomFor.insert _
        (reserve_refines refines returned) distinct fresh (reserve_room refines (by simp) returned)

end RawTable

end Optimap.Tomb
