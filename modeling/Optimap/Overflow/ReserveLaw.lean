import Optimap.Map.Growth
import Optimap.Overflow.EntryInsertion

/-!
# What `reserve` guarantees

`reserve` weighs the need against the load limit, which removals may have lowered, but
rehashes only when the nominal capacity formula asks for more groups.
-/

set_option autoImplicit false
set_option linter.unusedSectionVars false

namespace Optimap.Overflow

open Lib Hash Map

namespace RawTable

variable {L : GroupLayout} {S : Type → Type → Type} [KvStorage S] {K V : Type} [DecidableEq K]
  {hash : K → UInt64} {table later : RawTable L S K V} {map : PMap K V} {key : K} {value : V}

/-- The reservation is honoured: the table had no load limit, or its limit covers the
need, or the capacity formula asks for more groups than there are. -/
def ReserveCovers (table : RawTable L S K V) (additional : Nat) : Prop :=
  table.maxLoad = 0 ∨ table.len + additional ≤ table.maxLoad ∨
    table.numGroups < L.groupsForCapacity (table.len + additional)

/-! ## One insertion -/

theorem fillSlot_fields (h : UInt64) (slot : Slot) (key : K) (value : V) :
    (table.fillSlot h slot key value).mask = table.mask ∧
      (table.fillSlot h slot key value).maxLoad = table.maxLoad ∧
      (table.fillSlot h slot key value).len = table.len + 1 :=
  ⟨rfl, rfl, rfl⟩

/-- Below the limit a new key takes a place and nothing else. -/
theorem insert_below_limit {fuel : Nat} {result : Option V} (refines : table.Refines hash map)
    (absent : map key = none) (room : table.len < table.maxLoad)
    (returned : table.insertOrReplace fuel hash key value = some (result, later)) :
    later.mask = table.mask ∧ later.maxLoad = table.maxLoad ∧ later.len = table.len + 1 := by
  have loaded : table.maxLoad ≠ 0 := by omega
  cases (insertOrReplace_absent refines absent loaded returned).2 with
  | first first _ => exact fillSlot_fields _ _ key value
  | grown ensured inserted =>
      rw [ensureCapacity, if_neg (by omega), Option.some.injEq] at ensured
      subst ensured
      exact insertNoCheck_fields (refines.valid.allocated (by omega)) inserted

/-- At the limit a new key doubles the groups. -/
theorem insert_at_limit {fuel : Nat} {result : Option V} (refines : table.Refines hash map)
    (absent : map key = none) (loaded : table.maxLoad ≠ 0) (full : table.maxLoad ≤ table.len)
    (returned : table.insertOrReplace fuel hash key value = some (result, later)) :
    later.numGroups = table.numGroups * 2 := by
  cases (insertOrReplace_absent refines absent loaded returned).2 with
  | first _ room => omega
  | @grown grown _ slot ensured inserted =>
      have grew : rehashWith fuel hash table table.grownGroups = some grown := by
        rw [ensureCapacity, if_pos full] at ensured
        exact ensured
      obtain ⟨grownRefines, mask, _, _⟩ := rehashWith_refines refines (grownGroups_power refines.valid)
        (len_lt_grown refines.valid).le grew
      have ready := (ensureCapacity_refines refines ensured).2
      obtain ⟨laterMask, _⟩ := insertNoCheck_fields (grownRefines.valid.allocated (by omega)) inserted
      rw [grownGroups, if_neg loaded] at mask
      rw [numGroups, numGroups, laterMask, mask]
      omega

/-! ## A sequence of insertions -/

/-- The load limit leaves room for so many more entries. -/
def RoomFor (table : RawTable L S K V) (left : Nat) : Prop := table.len + left ≤ table.maxLoad

theorem RoomFor.insert {fuel left : Nat} {result : Option V} (refines : table.Refines hash map)
    (absent : map key = none) (room : table.RoomFor (left + 1))
    (returned : table.insertOrReplace fuel hash key value = some (result, later)) :
    later.numGroups = table.numGroups ∧ later.RoomFor left := by
  unfold RoomFor at room ⊢
  obtain ⟨mask, maxLoad, len⟩ := insert_below_limit refines absent (by omega) returned
  exact ⟨congrArg (· + 1) mask, by omega⟩

theorem keepsGroups_within_limit {fuel : Nat} (entries : List (K × V)) (refines : table.Refines hash map)
    (distinct : (entries.map Prod.fst).Nodup) (fresh : ∀ entry ∈ entries, map entry.1 = none)
    (room : table.RoomFor entries.length) :
    GenericMap.KeepsGroups numGroups fuel entries (⟨table, hash⟩ : GenericMap (RawTable L S K V) K) := by
  exact GenericMap.keepsGroups_of_room (rawTableLaws hash) RoomFor.insert entries refines distinct fresh room

/-- By induction on the entries: the limit is reached before they are all in. -/
theorem grows_beyond_limit {fuel : Nat} (entries : List (K × V)) :
    ∀ {table : RawTable L S K V} {map : PMap K V} {last : GenericMap (RawTable L S K V) K},
      table.Refines hash map → (entries.map Prod.fst).Nodup → (∀ entry ∈ entries, map entry.1 = none) →
      table.maxLoad ≠ 0 → table.maxLoad < table.len + entries.length →
      (⟨table, hash⟩ : GenericMap (RawTable L S K V) K).extend fuel entries = some last →
      ¬ GenericMap.KeepsGroups numGroups fuel entries (⟨table, hash⟩ : GenericMap (RawTable L S K V) K) := by
  induction entries with
  | nil =>
      intro table map last refines _ _ _ beyond _
      have lenLe := refines.valid.len_le
      simp only [List.length_nil] at beyond
      omega
  | cons entry entries ih =>
      intro table map last refines distinct fresh loaded beyond extended keeps
      obtain ⟨⟨result, next⟩, inserted, rest⟩ := Option.bind_eq_some_iff.mp extended
      obtain ⟨⟨answer, later⟩, returned, same⟩ := Option.bind_eq_some_iff.mp inserted
      cases same
      have absent := fresh entry List.mem_cons_self
      obtain ⟨groups, restKeeps⟩ := keeps _ _ inserted
      rw [List.length_cons] at beyond
      by_cases full : table.maxLoad ≤ table.len
      · have doubled := insert_at_limit refines absent loaded full returned
        have positive : 0 < table.numGroups := Nat.succ_pos _
        have kept : later.numGroups = table.numGroups := groups
        omega
      · obtain ⟨_, maxLoad, len⟩ := insert_below_limit refines absent (by omega) returned
        obtain ⟨restDistinct, restFresh⟩ := GenericMap.insert_fresh distinct fresh
        exact ih (insertOrReplace_refines refines returned).2 restDistinct restFresh (by omega) (by omega) rest
          restKeeps

/-! ## The law -/

/-- What `reserve` leaves: a limit that covers the need, or the table as it was. -/
theorem reserve_limit {fuel additional : Nat} (refines : table.Refines hash map) (some_more : 0 < additional)
    (covers : table.ReserveCovers additional)
    (returned : reserve fuel hash table additional = some later) :
    later.RoomFor additional := by
  unfold RoomFor
  have lenLe := refines.valid.len_le
  have enough := L.le_maxLoadFor_groupsForCapacity (table.len + additional)
  unfold reserve at returned
  simp only at returned
  split at returned
  · cases returned
    exact enough
  · rename_i loaded
    split at returned
    · obtain ⟨_, _, maxLoad, len⟩ := rehashWith_refines refines (L.groupsForCapacity_power _)
        (by omega) returned
      omega
    · rename_i kept
      cases returned
      unfold ReserveCovers numGroups at covers
      omega

theorem reserve_keeps {fuel additional : Nat} (covers : ¬ table.ReserveCovers additional)
    (returned : reserve fuel hash table additional = some later) : later = table := by
  unfold ReserveCovers numGroups at covers
  unfold reserve at returned
  simp only at returned
  rw [if_neg (by omega), if_neg (by omega)] at returned
  exact (Option.some.inj returned).symm

/-- After `reserve` as many new keys fit without growth exactly when the reservation is
covered. -/
theorem reserve_keeps_groups_iff {fuel rounds : Nat} {entries : List (K × V)}
    {last : GenericMap (RawTable L S K V) K} (refines : table.Refines hash map)
    (returned : reserve fuel hash table entries.length = some later)
    (distinct : (entries.map Prod.fst).Nodup) (fresh : ∀ entry ∈ entries, map entry.1 = none)
    (extended : (⟨later, hash⟩ : GenericMap (RawTable L S K V) K).extend rounds entries = some last) :
    GenericMap.KeepsGroups numGroups rounds entries (⟨later, hash⟩ : GenericMap (RawTable L S K V) K) ↔
      table.ReserveCovers entries.length := by
  have laterRefines := reserve_refines refines returned
  by_cases covers : table.ReserveCovers entries.length
  · refine iff_of_true ?_ covers
    cases entries with
    | nil => trivial
    | cons entry entries =>
        exact keepsGroups_within_limit _ laterRefines distinct fresh
          (reserve_limit refines (by simp) covers returned)
  · refine iff_of_false ?_ covers
    have same := reserve_keeps covers returned
    subst same
    unfold ReserveCovers at covers
    exact grows_beyond_limit entries refines distinct fresh (by omega) (by omega) extended

end RawTable

end Optimap.Overflow
