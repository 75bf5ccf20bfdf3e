import Mathlib.Data.List.Sort
import Mathlib.Tactic

/-!
# Perfect hash functions

The contract of a perfect hash function, how its construction can fail, and the
helpers that the constructions share.
-/

set_option autoImplicit false

namespace Optimap.Perfect

inductive BuildError where
  | exhausted
  | duplicateHash
  deriving DecidableEq

/-- What stops the program instead of returning. -/
inductive Fault where
  /-- `assert!(m >= n)` -/
  | tableTooSmall
  /-- `assert!(m <= u32::MAX)` -/
  | tableTooLarge
  /-- `assert!(r <= u32::MAX)` -/
  | tooManyBuckets
  | remainderByZero
  /-- A checked index outside of its array. -/
  | indexOutOfBounds
  /-- `expect("minimal PHF must fill every slot")` -/
  | slotNotFilled
  /-- `unreachable!` on a level marker other than 0 and 1. -/
  | unreachable
  /-- An unchecked read outside of its array, or of a slot nothing was written to. -/
  | invalidRead
  deriving DecidableEq

inductive Failure where
  | build (error : BuildError)
  | fault (fault : Fault)
  deriving DecidableEq

/-- The operations of a perfect hash function over pre-hashed keys. -/
structure PerfectHashFunction (P : Type) where
  build : (hashes : List UInt64) → (m : Nat) → Except Failure P
  index : P → (hash : UInt64) → Except Fault Nat

/-- `u32::MAX`. -/
def u32Max : Nat := 4294967295

/-- 64-bit mixer based on splitmix64. -/
def mix (h seed : UInt64) : UInt64 :=
  let x := h ^^^ seed
  let x := x * 0xbf58476d1ce4e5b9
  let x := x ^^^ (x >>> 30)
  let x := x * 0x94d049bb133111eb
  x ^^^ (x >>> 31)

/-- Project a mixed hash onto a bucket index, from the top 32 bits. The callers
pass `r ≠ 0`. -/
def bucketOf (h seed r : UInt64) : Nat := ((mix h seed >>> 32) % r).toNat

theorem bucketOf_lt {r : UInt64} (positive : r ≠ 0) (h seed : UInt64) :
    bucketOf h seed r < r.toNat := by
  have nonzero : 0 < r.toNat := by
    rw [Nat.pos_iff_ne_zero]
    intro zero
    exact positive (UInt64.toNat_inj.mp zero)
  rw [bucketOf, UInt64.toNat_mod]
  exact Nat.mod_lt _ nonzero

/-- A bucket count taken from a length below `2^32`. -/
theorem bucketOf_ofNat_lt {r : Nat} (positive : 0 < r) (bound : r ≤ u32Max) (h seed : UInt64) :
    bucketOf h seed (UInt64.ofNat r) < r := by
  have same : (UInt64.ofNat r).toNat = r := by
    rw [UInt64.toNat_ofNat']
    exact Nat.mod_eq_of_lt (lt_of_le_of_lt bound (by decide))
  have below := bucketOf_lt (r := UInt64.ofNat r) (fun zero => ?_) h seed
  · rwa [same] at below
  · rw [zero] at same
    exact absurd same (by simpa using Nat.ne_of_lt positive)

/-- Sort-based duplicate check. -/
def hasDuplicate (hashes : List UInt64) : Bool :=
  let sorted := hashes.insertionSort (· ≤ ·)
  (sorted.zip sorted.tail).any fun window => window.1 == window.2

/-- In a sorted list, equal elements have equal neighbours between them. -/
theorem nodup_of_windows {sorted : List UInt64} (ascending : sorted.Pairwise (· ≤ ·))
    (apart : ∀ window ∈ sorted.zip sorted.tail, window.1 ≠ window.2) : sorted.Nodup := by
  induction sorted with
  | nil => exact List.nodup_nil
  | cons first sorted ih =>
      cases sorted with
      | nil => exact List.nodup_singleton first
      | cons second sorted =>
          obtain ⟨below, tail⟩ := List.pairwise_cons.mp ascending
          have different : first ≠ second := apart (first, second) (by simp)
          have strict : first < second := UInt64.lt_of_le_of_ne (below second List.mem_cons_self) different
          refine List.nodup_cons.mpr ⟨?_, ih tail fun window member => apart window ?_⟩
          · intro member
            rcases List.mem_cons.mp member with same | later
            · exact different same
            · have above := (List.pairwise_cons.mp tail).1 first later
              exact UInt64.lt_irrefl first (UInt64.lt_of_lt_of_le strict above)
          · simp only [List.tail_cons, List.zip_cons_cons]
            exact List.mem_cons_of_mem _ member

theorem windows_ne_of_nodup {sorted : List UInt64} (nodup : sorted.Nodup) :
    ∀ window ∈ sorted.zip sorted.tail, window.1 ≠ window.2 := by
  induction sorted with
  | nil => intro window member; simp at member
  | cons first sorted ih =>
      cases sorted with
      | nil => intro window member; simp at member
      | cons second sorted =>
          obtain ⟨fresh, tail⟩ := List.nodup_cons.mp nodup
          intro window member
          simp only [List.tail_cons, List.zip_cons_cons, List.mem_cons] at member
          rcases member with rfl | member
          · intro same
            apply fresh
            rw [show first = second from same]
            exact List.mem_cons_self
          · exact ih tail window member

theorem hasDuplicate_iff (hashes : List UInt64) : hasDuplicate hashes = true ↔ ¬ hashes.Nodup := by
  have same := List.perm_insertionSort (· ≤ ·) hashes
  have ascending := List.pairwise_insertionSort (· ≤ ·) hashes
  rw [← same.nodup_iff, hasDuplicate, ← Bool.not_eq_false, not_iff_not, List.any_eq_false]
  simp only [beq_iff_eq]
  constructor
  · intro apart
    exact nodup_of_windows ascending apart
  · intro nodup
    exact windows_ne_of_nodup nodup

end Optimap.Perfect
