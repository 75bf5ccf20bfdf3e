import Mathlib.Tactic

/-!
# Backend selection policy

A policy is a list of `(min_capacity, backend)` bands, kept sorted by
`min_capacity` with no threshold twice.
-/

set_option autoImplicit false

namespace Optimap.Opti

/-- Which concrete map backend to use. -/
inductive MapType where
  | ufm
  | splitsies
  | ipo
  | tomb
  | gaps
  | ipo64
  | flatBTree
  deriving DecidableEq

/-- `binary_search_by_key` on sorted bands, followed by the overwrite at the
position found or the insertion at the position missed. -/
def insertBand (minCapacity : Nat) (backend : MapType) : List (Nat × MapType) → List (Nat × MapType)
  | [] => [(minCapacity, backend)]
  | band :: bands =>
      if band.1 < minCapacity then band :: insertBand minCapacity backend bands
      else if band.1 = minCapacity then (band.1, backend) :: bands
      else (minCapacity, backend) :: band :: bands

theorem mem_insertBand {minCapacity : Nat} {backend : MapType} {bands : List (Nat × MapType)}
    {band : Nat × MapType} (member : band ∈ insertBand minCapacity backend bands) :
    band.1 = minCapacity ∨ band ∈ bands := by
  induction bands with
  | nil =>
      rw [insertBand, List.mem_singleton] at member
      exact .inl (congrArg Prod.fst member)
  | cons head bands ih =>
      unfold insertBand at member
      split at member
      · rcases List.mem_cons.mp member with rfl | member
        · exact .inr List.mem_cons_self
        · exact (ih member).imp id (List.mem_cons_of_mem _)
      · split at member
        · rename_i same
          rcases List.mem_cons.mp member with rfl | member
          · exact .inl same
          · exact .inr (List.mem_cons_of_mem _ member)
        · rcases List.mem_cons.mp member with rfl | member
          · exact .inl rfl
          · exact .inr member

theorem insertBand_sorted {minCapacity : Nat} {backend : MapType} {bands : List (Nat × MapType)}
    (sorted : bands.Pairwise fun lower upper => lower.1 < upper.1) :
    (insertBand minCapacity backend bands).Pairwise fun lower upper => lower.1 < upper.1 := by
  induction bands with
  | nil => exact List.pairwise_singleton _ _
  | cons head bands ih =>
      obtain ⟨below, rest⟩ := List.pairwise_cons.mp sorted
      unfold insertBand
      split
      · rename_i smaller
        refine List.pairwise_cons.mpr ⟨fun band member => ?_, ih rest⟩
        rcases mem_insertBand member with same | member
        · rw [same]
          exact smaller
        · exact below band member
      · split
        · exact List.pairwise_cons.mpr ⟨below, rest⟩
        · rename_i notSmaller different
          refine List.pairwise_cons.mpr ⟨fun band member => ?_, sorted⟩
          have first : minCapacity < head.1 := by omega
          rcases List.mem_cons.mp member with rfl | member
          · exact first
          · exact first.trans (below band member)

structure Policy where
  bands : List (Nat × MapType)
  sorted : bands.Pairwise fun lower upper => lower.1 < upper.1

namespace Policy

def new : Policy := ⟨[], .nil⟩

/-- Single-band policy. -/
def pinned (backend : MapType) : Policy := ⟨[(0, backend)], List.pairwise_singleton _ _⟩

/-- Add or replace a band. -/
def band (policy : Policy) (minCapacity : Nat) (backend : MapType) : Policy :=
  ⟨insertBand minCapacity backend policy.bands, insertBand_sorted policy.sorted⟩

/-- `partition_point(|&(c, _)| c <= capacity)`: how many bands start at or below. -/
def partitionPoint (policy : Policy) (capacity : Nat) : Nat :=
  (policy.bands.takeWhile fun band => band.1 ≤ capacity).length

/-- The band before the partition point. The subtraction saturates, so without a
band at or below the capacity this is the first band. -/
def backendFor (policy : Policy) (capacity : Nat) : MapType :=
  (policy.bands[policy.partitionPoint capacity - 1]?.map Prod.snd).getD .splitsies

end Policy

end Optimap.Opti
