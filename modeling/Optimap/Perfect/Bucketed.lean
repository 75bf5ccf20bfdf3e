import Optimap.Lib.CountingSort
import Optimap.Perfect.PerfectMap
import Optimap.Perfect.Slab

/-!
# Bucketed perfect hashing

Every key goes to the next free slot of its bucket. A seed that overfills a
bucket is dropped for the next one, which starts from empty fill counters but
writes over the same placement arrays.
-/

set_option autoImplicit false
set_option linter.unusedSectionVars false

namespace Optimap.Perfect.Bucketed

open Lib Hash

def MAX_SEED_RETRIES : Nat := 64

def SEED_BASE : UInt64 := 0xD6E8FEB86659FD93

/-- The average bucket load, by what it makes of a key count: `buckets n` is the
`f64` quotient `n / lambda`, rounded up. -/
structure Lambda where
  buckets : Nat → Nat

structure BucketedPhf where
  seed : UInt64
  numBuckets : UInt32
  deriving DecidableEq

/-- Bucket and slot of each input key. -/
structure Placements where
  bucket : List Nat
  slot : List Nat
  deriving DecidableEq

/-- Placement arrays and fill counters of one attempt. -/
structure Attempt where
  placements : Placements
  bucketSize : List Nat

/-- Place the keys from `i` on. An overfull bucket ends the attempt with what it
has written. -/
def attempt (seed r : UInt64) : List UInt64 → Nat → Attempt → Except Placements Placements
  | [], _, state => .ok state.placements
  | h :: hashes, i, state =>
      let b := bucketOf h seed r
      let bs := state.bucketSize.getD b 0
      if SLOTS_PER_BUCKET ≤ bs then .error state.placements
      else
        attempt seed r hashes (i + 1)
          { placements := { bucket := state.placements.bucket.set i b, slot := state.placements.slot.set i bs }
            bucketSize := state.bucketSize.set b (bs + 1) }

def trySeeds (hashes : List UInt64) (r : Nat) :
    (seedTries : List Nat) → Placements → Except Failure (BucketedPhf × Placements)
  | [], _ => .error (.build .exhausted)
  | seedTry :: seedTries, placements =>
      let seed := SEED_BASE + UInt64.ofNat seedTry
      match attempt seed (UInt64.ofNat r) hashes 0 ⟨placements, List.replicate r 0⟩ with
      | .ok placements => .ok ({ seed, numBuckets := UInt32.ofNat r }, placements)
      | .error placements => trySeeds hashes r seedTries placements

namespace BucketedPhf

/-- `from_parts`. -/
def fromParts (seed : UInt64) (numBuckets : UInt32) : BucketedPhf := { seed, numBuckets }

def build (hashes : List UInt64) (lambda : Lambda) : Except Failure (BucketedPhf × Placements) :=
  let n := hashes.length
  if n = 0 then .ok ({ seed := SEED_BASE, numBuckets := 0 }, ⟨[], []⟩)
  else if hasDuplicate hashes then .error (.build .duplicateHash)
  else
    let r := max (lambda.buckets n) 1
    if u32Max < r then .error (.fault .tooManyBuckets)
    else
      trySeeds hashes r (List.range MAX_SEED_RETRIES) ⟨List.replicate n 0, List.replicate n 0⟩

/-- Map a hash to its bucket index. -/
def bucket (phf : BucketedPhf) (hash : UInt64) : Nat :=
  if phf.numBuckets = 0 then 0 else bucketOf hash phf.seed phf.numBuckets.toUInt64

end BucketedPhf

/-- Write the items to their placements, with the tags of their hashes. -/
def fill {α : Type} (feature : ReducedHash) (placements : Placements) :
    List (α × UInt64) → Nat → Slab α → Except Fault (Slab α)
  | [], _, slab => .ok slab
  | (item, h) :: items, i, slab =>
      match placements.bucket[i]?, placements.slot[i]? with
      | some bucket, some slot => do
          let slab ← slab.write bucket slot (hashTag feature h) item
          fill feature placements items (i + 1) slab
      | _, _ => .error .indexOutOfBounds

structure PerfectMapBucketed (K V : Type) where
  slab : Slab (K × V)
  phf : BucketedPhf
  hashBuilder : K → UInt64
  len : Nat

structure PerfectSetBucketed (K : Type) where
  slab : Slab K
  phf : BucketedPhf
  hashBuilder : K → UInt64
  len : Nat

/-- Hash function and filled slab for some items. Both containers start so. -/
def buildSlab {α : Type} (feature : ReducedHash) (items : List α) (hashOf : α → UInt64) (lambda : Lambda) :
    Except Failure (BucketedPhf × Slab α) := do
  if items.length = 0 then
    let built ← BucketedPhf.build [] lambda
    return (built.1, ⟨[], []⟩)
  else
    let hashes := items.map hashOf
    let (phf, placements) ← BucketedPhf.build hashes lambda
    let slab ← faulting (fill feature placements (items.zip hashes) 0 (Slab.uninit phf.numBuckets.toNat))
    return (phf, slab)

section Operations
variable {K V : Type} [DecidableEq K]

namespace PerfectMapBucketed

def fromEntries (feature : ReducedHash) (entries : List (K × V)) (hashBuilder : K → UInt64) (lambda : Lambda) :
    Except Failure (PerfectMapBucketed K V) := do
  let (phf, slab) ← buildSlab feature entries (fun entry => hashBuilder entry.1) lambda
  return { slab, phf, hashBuilder, len := entries.length }

def get (feature : ReducedHash) (map : PerfectMapBucketed K V) (key : K) : Except Fault (Option V) :=
  if map.slab.tags.isEmpty then .ok none
  else
    let hash := map.hashBuilder key
    (map.slab.find (map.phf.bucket hash) (hashTag feature hash) fun entry => entry.1 = key).map
      fun found => found.map Prod.snd

def iter (map : PerfectMapBucketed K V) : Except Fault (List (K × V)) := map.slab.iter

end PerfectMapBucketed

namespace PerfectSetBucketed

def fromKeys (feature : ReducedHash) (keys : List K) (hashBuilder : K → UInt64) (lambda : Lambda) :
    Except Failure (PerfectSetBucketed K) := do
  let (phf, slab) ← buildSlab feature keys hashBuilder lambda
  return { slab, phf, hashBuilder, len := keys.length }

def get (feature : ReducedHash) (set : PerfectSetBucketed K) (key : K) : Except Fault (Option K) :=
  if set.slab.tags.isEmpty then .ok none
  else
    let hash := set.hashBuilder key
    set.slab.find (set.phf.bucket hash) (hashTag feature hash) fun stored => stored = key

def contains (feature : ReducedHash) (set : PerfectSetBucketed K) (key : K) : Except Fault Bool :=
  (set.get feature key).map Option.isSome

def iter (set : PerfectSetBucketed K) : Except Fault (List K) := set.slab.iter

end PerfectSetBucketed

end Operations

end Optimap.Perfect.Bucketed
