import Mathlib.Data.List.Basic
import Mathlib.Tactic

/-!
# The standard library's binary search

The loop of `binary_search_by` on a slice, halving a window of `size` cells from
`base` on, and `partition_point` as the standard library derives it.
-/

set_option autoImplicit false

namespace Optimap.Lib

variable {α : Type} {f : α → Ordering} {cells : List α}

/-- The loop; it ends with a window of one cell. The first argument bounds the rounds. -/
def narrowWindow (f : α → Ordering) (cells : List α) : Nat → Nat → Nat → Nat
  | 0, base, _ => base
  | rounds + 1, base, size =>
      if size ≤ 1 then base
      else if cells[base + size / 2]?.any fun cell => f cell = .gt then
        narrowWindow f cells rounds base (size - size / 2)
      else narrowWindow f cells rounds (base + size / 2) (size - size / 2)

/-- `Ok` with the slot of an equal cell, or `Err` with the place where one would go. -/
def binarySearchBy (f : α → Ordering) (cells : List α) : Except Nat Nat :=
  let base := narrowWindow f cells cells.length 0 cells.length
  match cells[base]?.map f with
  | none => .error 0
  | some .eq => .ok base
  | some .lt => .error (base + 1)
  | some .gt => .error base

/-- `partition_point`: the search for the place between the cells that satisfy the
predicate and the others. -/
def slicePartitionPoint (predicate : α → Bool) (cells : List α) : Nat :=
  match binarySearchBy (fun cell => if predicate cell then .lt else .gt) cells with
  | .ok slot => slot
  | .error slot => slot

/-- From `bound` on the cells are too large, and none before. -/
def LargeFrom (f : α → Ordering) (cells : List α) (bound : Nat) : Prop :=
  bound ≤ cells.length ∧ ∀ slot cell, cells[slot]? = some cell → (f cell = .gt ↔ bound ≤ slot)

/-- The window always holds the last cell that is not too large, if there is one. -/
theorem narrowWindow_eq {bound : Nat} (large : LargeFrom f cells bound) (rounds : Nat) :
    ∀ base size, 0 < size → size ≤ rounds + 1 → base + size ≤ cells.length → bound ≤ base + size →
      (base = 0 ∨ base < bound) → narrowWindow f cells rounds base size = bound - 1 := by
  induction rounds with
  | zero =>
      intro base size positive short _ upper lower
      unfold narrowWindow
      omega
  | succ rounds ih =>
      intro base size positive short inside upper lower
      unfold narrowWindow
      by_cases single : size ≤ 1
      · rw [if_pos single]
        omega
      · have slot : base + size / 2 < cells.length := by omega
        have compared := large.2 (base + size / 2) _ (List.getElem?_eq_getElem slot)
        rw [if_neg single, List.getElem?_eq_getElem slot, Option.any_some]
        by_cases beyond : f cells[base + size / 2] = .gt
        · rw [if_pos (decide_eq_true beyond)]
          have upTo := compared.mp beyond
          exact ih base _ (by omega) (by omega) (by omega) (by omega) lower
        · rw [if_neg (by simpa using beyond)]
          have under : ¬ bound ≤ base + size / 2 := fun past => beyond (compared.mpr past)
          exact ih _ _ (by omega) (by omega) (by omega) (by omega) (Or.inr (by omega))

theorem LargeFrom.base_eq {bound : Nat} (large : LargeFrom f cells bound) :
    narrowWindow f cells cells.length 0 cells.length = bound - 1 := by
  have within := large.1
  cases cells with
  | nil =>
      rw [Nat.le_zero.mp within]
      rfl
  | cons head rest =>
      exact narrowWindow_eq large _ 0 _ (Nat.succ_pos _) (Nat.le_succ _) (by omega) (by omega) (Or.inl rfl)

/-- No cell is equal: the search ends between the small and the large ones. -/
theorem binarySearchBy_missing {below above : List α} (small : ∀ cell ∈ below, f cell = .lt)
    (beyond : ∀ cell ∈ above, f cell = .gt) : binarySearchBy f (below ++ above) = .error below.length := by
  have large : LargeFrom f (below ++ above) below.length := by
    refine ⟨by simp, fun slot cell isCell => ?_⟩
    by_cases early : slot < below.length
    · rw [List.getElem?_append_left early] at isCell
      simp [small cell (List.mem_of_getElem? isCell), early]
    · rw [List.getElem?_append_right (by omega)] at isCell
      simp [beyond cell (List.mem_of_getElem? isCell), Nat.not_lt.mp early]
  unfold binarySearchBy
  rw [large.base_eq]
  cases below using List.reverseRecOn with
  | nil =>
      cases above with
      | nil => rfl
      | cons head above => simp [beyond head List.mem_cons_self]
  | append_singleton below last => simp [small last (by simp)]

/-- The search finds the one equal cell. -/
theorem binarySearchBy_found {below above : List α} {cell : α} (small : ∀ cell ∈ below, f cell = .lt)
    (same : f cell = .eq) (beyond : ∀ cell ∈ above, f cell = .gt) :
    binarySearchBy f (below ++ cell :: above) = .ok below.length := by
  have large : LargeFrom f (below ++ cell :: above) (below.length + 1) := by
    refine ⟨by simp, fun slot other isCell => ?_⟩
    by_cases early : slot < below.length
    · rw [List.getElem?_append_left early] at isCell
      simp [small other (List.mem_of_getElem? isCell)]
      omega
    · rw [List.getElem?_append_right (by omega)] at isCell
      by_cases exact_slot : slot = below.length
      · rw [exact_slot, Nat.sub_self] at isCell
        cases isCell
        simp [same, exact_slot]
      · rw [List.getElem?_cons, if_neg (by omega)] at isCell
        simp [beyond other (List.mem_of_getElem? isCell)]
        omega
  unfold binarySearchBy
  rw [large.base_eq]
  simp [same]

/-- On a partitioned slice `partition_point` counts the cells that satisfy the
predicate. -/
theorem slicePartitionPoint_append {predicate : α → Bool} {below above : List α}
    (small : ∀ cell ∈ below, predicate cell = true) (beyond : ∀ cell ∈ above, predicate cell = false) :
    slicePartitionPoint predicate (below ++ above) = below.length := by
  have missing := @binarySearchBy_missing _ (fun cell => if predicate cell then .lt else .gt) below above
    (fun cell member => by rw [small cell member]; rfl) (fun cell member => by rw [beyond cell member]; rfl)
  unfold slicePartitionPoint
  rw [missing]

/-- Where the predicate never holds again once it has failed, `partition_point` counts
the cells up to its first failure. -/
theorem slicePartitionPoint_eq_takeWhile {predicate : α → Bool}
    (down : cells.Pairwise fun first second => predicate second = true → predicate first = true) :
    slicePartitionPoint predicate cells = (cells.takeWhile predicate).length := by
  have split : cells.takeWhile predicate ++ cells.dropWhile predicate = cells := List.takeWhile_append_dropWhile
  have small : ∀ cell ∈ cells.takeWhile predicate, predicate cell = true := List.all_eq_true.mp List.all_takeWhile
  have rest := down.sublist (List.dropWhile_sublist predicate)
  have beyond : ∀ cell ∈ cells.dropWhile predicate, predicate cell = false := by
    cases dropped : cells.dropWhile predicate with
    | nil => simp
    | cons head others =>
        have failed := List.head?_dropWhile_not predicate cells
        rw [dropped] at failed rest
        have headFails : predicate head = false := by simpa using failed
        intro cell member
        cases List.mem_cons.mp member with
        | inl same => rw [same, headFails]
        | inr later =>
            apply Bool.eq_false_iff.mpr
            intro holds
            have earlier := (List.pairwise_cons.mp rest).1 cell later holds
            rw [headFails] at earlier
            cases earlier
  have counted := slicePartitionPoint_append small beyond
  rw [split] at counted
  exact counted

/-- Scanning for the first failure finds the same place. -/
theorem length_takeWhile_eq_findIdx (predicate : α → Bool) (cells : List α) :
    (cells.takeWhile predicate).length = cells.findIdx fun cell => !predicate cell := by
  rw [List.takeWhile_eq_take_findIdx_not, List.length_take]
  exact Nat.min_eq_left List.findIdx_le_length

end Optimap.Lib
