import Optimap.Lib.Bitset
import Optimap.Perfect.Bucketed

/-!
# Multi-level bucketed perfect hashing

Level 0 takes the buckets that fit. The keys of an oversized bucket all go to a
single-level structure behind it, and one bit per bucket says so to the query.
-/

set_option autoImplicit false
set_option linter.unusedSectionVars false

namespace Optimap.Perfect.Multilevel

open Lib Hash Bucketed

def MULTILEVEL_SEED_BASE : UInt64 := 0xC4CEB9FE1A85EC53

structure MultilevelBucketedPhf where
  level0 : BucketedPhf
  /-- A set bit redirects the bucket to level 1. -/
  overflow : List UInt64
  level1 : Option BucketedPhf
  deriving DecidableEq

/-- Level, bucket within the level and slot of each input key. -/
structure MultilevelPlacements where
  level : List Nat
  bucket : List Nat
  slot : List Nat
  deriving DecidableEq

/-- The state of the placing pass. -/
structure Placer where
  placements : MultilevelPlacements
  bucketCursor : List Nat
  overflowHashes : List UInt64
  overflowOrig : List Nat

/-- Pass 2: mark the buckets from `b` on that hold more keys than slots. -/
def markOverflow : (sizes : List Nat) → (b : Nat) → List UInt64 → List UInt64
  | [], _, overflow => overflow
  | sz :: sizes, b, overflow =>
      markOverflow sizes (b + 1) (if SLOTS_PER_BUCKET < sz then Bitset.set overflow b else overflow)

/-- Pass 3: place the keys from `i` on, or put them aside. -/
def placeKeys (seed0 r0 : UInt64) (overflow : List UInt64) : List UInt64 → Nat → Placer → Placer
  | [], _, state => state
  | h :: hashes, i, state =>
      let b := bucketOf h seed0 r0
      placeKeys seed0 r0 overflow hashes (i + 1)
        (if Bitset.test overflow b then
          { state with
            placements := { state.placements with level := state.placements.level.set i 1 }
            overflowOrig := state.overflowOrig ++ [i]
            overflowHashes := state.overflowHashes ++ [h] }
        else
          { state with
            placements :=
              { state.placements with
                bucket := state.placements.bucket.set i b
                slot := state.placements.slot.set i (state.bucketCursor.getD b 0) }
            bucketCursor := state.bucketCursor.set b (state.bucketCursor.getD b 0 + 1) })

/-- Copy the level-1 placements from `idx` on to the indices they came from. -/
def patchLevel1 (l1 : Placements) : (overflowOrig : List Nat) → (idx : Nat) → MultilevelPlacements →
    MultilevelPlacements
  | [], _, placements => placements
  | orig :: overflowOrig, idx, placements =>
      patchLevel1 l1 overflowOrig (idx + 1)
        { placements with
          bucket := placements.bucket.set orig (l1.bucket.getD idx 0)
          slot := placements.slot.set orig (l1.slot.getD idx 0) }

namespace MultilevelBucketedPhf

def build (hashes : List UInt64) (lambda0 lambda1 : Lambda) :
    Except Failure (MultilevelBucketedPhf × MultilevelPlacements) :=
  let n := hashes.length
  if n = 0 then
    .ok ({ level0 := BucketedPhf.fromParts MULTILEVEL_SEED_BASE 0, overflow := [], level1 := none },
      ⟨[], [], []⟩)
  else if hasDuplicate hashes then .error (.build .duplicateHash)
  else
    let r0 := max (lambda0.buckets n) 1
    if u32Max < r0 then .error (.fault .tooManyBuckets)
    else do
      let seed0 := MULTILEVEL_SEED_BASE
      let bucketSize := CountingSort.tally r0 (hashes.map fun h => bucketOf h seed0 (UInt64.ofNat r0))
      let overflow := markOverflow bucketSize 0 (Bitset.zeroed ((r0 + 63) / 64))
      let placer := placeKeys seed0 (UInt64.ofNat r0) overflow hashes 0
        { placements := ⟨List.replicate n 0, List.replicate n 0, List.replicate n 0⟩
          bucketCursor := List.replicate r0 0
          overflowHashes := []
          overflowOrig := [] }
      let level0 := BucketedPhf.fromParts seed0 (UInt32.ofNat r0)
      if placer.overflowHashes.isEmpty then
        return ({ level0, overflow, level1 := none }, placer.placements)
      else
        let (l1, l1Placements) ← BucketedPhf.build placer.overflowHashes lambda1
        return ({ level0, overflow, level1 := some l1 },
          patchLevel1 l1Placements placer.overflowOrig 0 placer.placements)

/-- Map a hash to its level and the bucket within the level. -/
def classify (phf : MultilevelBucketedPhf) (hash : UInt64) : Except Fault (Nat × Nat) :=
  if phf.level0.numBuckets = 0 then .ok (0, 0)
  else
    let b0 := phf.level0.bucket hash
    match phf.overflow[b0 / 64]? with
    | none => .error .invalidRead
    | some word =>
        if word &&& Bitset.bit b0 ≠ 0 then
          match phf.level1 with
          | none => .error .invalidRead
          | some l1 => .ok (1, l1.bucket hash)
        else .ok (0, b0)

def numBucketsLevel0 (phf : MultilevelBucketedPhf) : Nat := phf.level0.numBuckets.toNat

def numBucketsLevel1 (phf : MultilevelBucketedPhf) : Nat :=
  match phf.level1 with
  | some l1 => l1.numBuckets.toNat
  | none => 0

end MultilevelBucketedPhf

/-- Write the items from `i` on to the slab of their level. -/
def fill {α : Type} (feature : ReducedHash) (placements : MultilevelPlacements) :
    List (α × UInt64) → Nat → Slab α × Slab α → Except Fault (Slab α × Slab α)
  | [], _, slabs => .ok slabs
  | (item, h) :: items, i, slabs =>
      match placements.bucket[i]?, placements.slot[i]?, placements.level[i]? with
      | some bucket, some slot, some 0 => do
          let slab ← slabs.1.write bucket slot (hashTag feature h) item
          fill feature placements items (i + 1) (slab, slabs.2)
      | some bucket, some slot, some 1 => do
          let slab ← slabs.2.write bucket slot (hashTag feature h) item
          fill feature placements items (i + 1) (slabs.1, slab)
      | some _, some _, some _ => .error .unreachable
      | _, _, _ => .error .indexOutOfBounds

/-- Hash function and filled slabs for some items. Both containers start so. -/
def buildSlabs {α : Type} (feature : ReducedHash) (items : List α) (hashOf : α → UInt64)
    (lambda0 lambda1 : Lambda) : Except Failure (MultilevelBucketedPhf × Slab α × Slab α) := do
  if items.length = 0 then
    let built ← MultilevelBucketedPhf.build [] lambda0 lambda1
    return (built.1, ⟨[], []⟩, ⟨[], []⟩)
  else
    let hashes := items.map hashOf
    let (phf, placements) ← MultilevelBucketedPhf.build hashes lambda0 lambda1
    let slabs ← faulting (fill feature placements (items.zip hashes) 0
      (Slab.uninit phf.numBucketsLevel0, Slab.uninit phf.numBucketsLevel1))
    return (phf, slabs)

/-- The lookup of both containers: classify, then scan the bucket of that level. -/
def find {α : Type} (feature : ReducedHash) (phf : MultilevelBucketedPhf) (slabs : Slab α × Slab α)
    (hash : UInt64) (isQuery : α → Bool) : Except Fault (Option α) := do
  let (level, bucket) ← phf.classify hash
  let slab := if level = 0 then slabs.1 else slabs.2
  slab.find bucket (hashTag feature hash) isQuery

/-- Level 0, then level 1. -/
def iterLevels {α : Type} (slabs : Slab α × Slab α) : Except Fault (List α) := do
  let l0 ← slabs.1.iter
  let l1 ← slabs.2.iter
  return l0 ++ l1

structure PerfectMapMultilevelBucketed (K V : Type) where
  slabs : Slab (K × V) × Slab (K × V)
  phf : MultilevelBucketedPhf
  hashBuilder : K → UInt64
  len : Nat

structure PerfectSetMultilevelBucketed (K : Type) where
  slabs : Slab K × Slab K
  phf : MultilevelBucketedPhf
  hashBuilder : K → UInt64
  len : Nat

section Operations
variable {K V : Type} [DecidableEq K]

namespace PerfectMapMultilevelBucketed

def fromEntries (feature : ReducedHash) (entries : List (K × V)) (hashBuilder : K → UInt64)
    (lambda0 lambda1 : Lambda) : Except Failure (PerfectMapMultilevelBucketed K V) := do
  let (phf, slabs) ← buildSlabs feature entries (fun entry => hashBuilder entry.1) lambda0 lambda1
  return { slabs, phf, hashBuilder, len := entries.length }

def get (feature : ReducedHash) (map : PerfectMapMultilevelBucketed K V) (key : K) :
    Except Fault (Option V) :=
  if map.len = 0 then .ok none
  else
    (find feature map.phf map.slabs (map.hashBuilder key) fun entry => entry.1 = key).map
      fun found => found.map Prod.snd

def iter (map : PerfectMapMultilevelBucketed K V) : Except Fault (List (K × V)) := iterLevels map.slabs

end PerfectMapMultilevelBucketed

namespace PerfectSetMultilevelBucketed

def fromKeys (feature : ReducedHash) (keys : List K) (hashBuilder : K → UInt64) (lambda0 lambda1 : Lambda) :
    Except Failure (PerfectSetMultilevelBucketed K) := do
  let (phf, slabs) ← buildSlabs feature keys hashBuilder lambda0 lambda1
  return { slabs, phf, hashBuilder, len := keys.length }

def get (feature : ReducedHash) (set : PerfectSetMultilevelBucketed K) (key : K) :
    Except Fault (Option K) :=
  if set.len = 0 then .ok none
  else find feature set.phf set.slabs (set.hashBuilder key) fun stored => stored = key

def contains (feature : ReducedHash) (set : PerfectSetMultilevelBucketed K) (key : K) : Except Fault Bool :=
  (set.get feature key).map Option.isSome

def iter (set : PerfectSetMultilevelBucketed K) : Except Fault (List K) := iterLevels set.slabs

end PerfectSetMultilevelBucketed

end Operations

end Optimap.Perfect.Multilevel
