import Optimap.Lib.Bitset
import Optimap.Lib.CountingSort
import Optimap.Perfect.Phf

/-!
# CHD construction

Keys are split into buckets by a primary hash. The buckets are taken by
descending size, and each searches a displacement that puts all of its keys on
free slots.
-/

set_option autoImplicit false

namespace Optimap.Perfect.Chd

open Lib

def DEFAULT_LAMBDA : Nat := 5

def MAX_SEED_RETRIES : Nat := 32

def MAX_DISPLACEMENT : Nat := 16777216

def SEED_BASE : UInt64 := 0xD6E8FEB86659FD93

/-- The slot of a hash under displacement `d`, which is mixed into the hash. -/
def slotOf (h seed : UInt64) (d : UInt32) (m : UInt64) : Nat :=
  let x := h ^^^ (seed + 0x9E3779B97F4A7C15)
  let x := x + d.toUInt64 * 0xBF58476D1CE4E5B9
  let x := x * 0x94D049BB133111EB
  let x := x ^^^ (x >>> 31)
  let x := x * 0xBF58476D1CE4E5B9
  let x := x ^^^ (x >>> 32)
  (x % m).toNat

/-- One seed, one displacement per bucket, and the table size. -/
structure ChdPhf where
  seed : UInt64
  displacements : List UInt32
  m : UInt32
  deriving DecidableEq

def bitsetTest (bits : List UInt64) (i : Nat) : Bool :=
  (bits.getD (i >>> 6) 0) &&& (1 <<< UInt64.ofNat (i &&& 63)) != 0

def bitsetSet (bits : List UInt64) (i : Nat) : List UInt64 :=
  bits.modify (i >>> 6) (· ||| (1 <<< UInt64.ofNat (i &&& 63)))

/-- `sort_unstable_by` on a descending key. The order of items with one key is
not specified. -/
structure UnstableSort where
  sortBy : (key : Nat → Nat) → List Nat → List Nat
  perm : ∀ key items, (sortBy key items).Perm items
  sorted : ∀ key items, (sortBy key items).Pairwise fun first second => key second ≤ key first

/-- An insertion sort is one such sort. -/
def insertionSorter : UnstableSort where
  sortBy key items := items.insertionSort fun first second => key second ≤ key first
  perm key items := List.perm_insertionSort _ items
  sorted key items := by
    have total : Std.Total fun first second => key second ≤ key first :=
      ⟨fun first second => Nat.le_total (key second) (key first)⟩
    have transitive : IsTrans Nat fun first second => key second ≤ key first :=
      ⟨fun _ _ _ first second => Nat.le_trans second first⟩
    exact List.pairwise_insertionSort _ items

/-- One pass over the keys of a bucket. `none` when a slot is taken or met twice. -/
def tentativeSlots (occupied hashes : List UInt64) (seed : UInt64) (d : UInt32) (m : UInt64) :
    (keysInBucket tentative : List Nat) → Option (List Nat)
  | [], tentative => some tentative
  | ki :: keys, tentative =>
      let s := slotOf (hashes.getD ki 0) seed d m
      if bitsetTest occupied s || tentative.contains s then none
      else tentativeSlots occupied hashes seed d m keys (tentative ++ [s])

/-- Try `d`, `d + 1`, … with `tries` values left up to `MAX_DISPLACEMENT`. -/
def searchDisplacement (occupied hashes : List UInt64) (seed : UInt64) (m : UInt64)
    (keysInBucket : List Nat) : (tries : Nat) → UInt32 → Option (UInt32 × List Nat)
  | 0, _ => none
  | tries + 1, d =>
      match tentativeSlots occupied hashes seed d m keysInBucket [] with
      | some tentative => some (d, tentative)
      | none => searchDisplacement occupied hashes seed m keysInBucket tries (d + 1)

/-- Slots taken and displacements accepted so far. -/
structure Search where
  occupied : List UInt64
  displacements : List UInt32

/-- The grouped key indices of one attempt. -/
structure Buckets where
  sizes : List Nat
  start : List Nat
  keys : List Nat

/-- `bucket_keys[bucket_start[b]..bucket_start[b + 1]]`. -/
def Buckets.keysIn (buckets : Buckets) (b : Nat) : List Nat :=
  CountingSort.slice buckets.keys buckets.start b

/-- The search for the buckets in `order`. -/
def placeBuckets (hashes : List UInt64) (seed m : UInt64) (buckets : Buckets) :
    (order : List Nat) → Search → Except BuildError Search
  | [], search => .ok search
  | b :: order, search =>
      if buckets.sizes.getD b 0 = 0 then placeBuckets hashes seed m buckets order search
      else
        match searchDisplacement search.occupied hashes seed m (buckets.keysIn b)
            (MAX_DISPLACEMENT + 1) 0 with
        | none => .error .exhausted
        | some (d, tentative) =>
            placeBuckets hashes seed m buckets order
              { occupied := tentative.foldl bitsetSet search.occupied
                displacements := search.displacements.set b d }

/-- Key indices by bucket, through a counting sort of the bucket of each key. -/
def assignBuckets (hashes : List UInt64) (r : Nat) (seed : UInt64) : Buckets :=
  let bucketOfKey := hashes.map fun h => bucketOf h seed (UInt64.ofNat r)
  let sizes := CountingSort.tally r bucketOfKey
  { sizes
    start := CountingSort.offsets sizes
    keys := CountingSort.grouped r bucketOfKey }

/-- One construction attempt under a fixed `seed`. -/
def tryBuildSeed (sorter : UnstableSort) (hashes : List UInt64) (m r : Nat) (seed : UInt64) :
    Except BuildError (List UInt32) := do
  let buckets := assignBuckets hashes r seed
  let order := sorter.sortBy (fun b => buckets.sizes.getD b 0) (List.range r)
  let search ← placeBuckets hashes seed (UInt64.ofNat m) buckets order
    { occupied := List.replicate ((m + 63) / 64) 0, displacements := List.replicate r 0 }
  return search.displacements

/-- The attempts for the seeds in order. -/
def trySeeds (sorter : UnstableSort) (hashes : List UInt64) (m r : Nat) :
    (seedTries : List Nat) → Except Failure ChdPhf
  | [] => .error (.build .exhausted)
  | seedTry :: seedTries =>
      let seed := SEED_BASE + UInt64.ofNat seedTry
      match tryBuildSeed sorter hashes m r seed with
      | .ok displacements => .ok { seed, displacements, m := UInt32.ofNat m }
      | .error .duplicateHash => .error (.build .duplicateHash)
      | .error .exhausted => trySeeds sorter hashes m r seedTries

def ChdPhf.build (sorter : UnstableSort) (hashes : List UInt64) (m : Nat) : Except Failure ChdPhf :=
  let n := hashes.length
  if m < n then .error (.fault .tableTooSmall)
  else if u32Max < m then .error (.fault .tableTooLarge)
  else if n = 0 then .ok { seed := 0, displacements := [], m := UInt32.ofNat m }
  else if hasDuplicate hashes then .error (.build .duplicateHash)
  else
    let r := max ((n + DEFAULT_LAMBDA - 1) / DEFAULT_LAMBDA) 1
    trySeeds sorter hashes m r (List.range MAX_SEED_RETRIES)

def ChdPhf.index (phf : ChdPhf) (hash : UInt64) : Except Fault Nat :=
  -- A table without slots is answered before the bucket is computed.
  if phf.m = 0 then .ok 0
  else
    let r := UInt64.ofNat phf.displacements.length
    if r = 0 then .error .remainderByZero
    else
      match phf.displacements[bucketOf hash phf.seed r]? with
      | some d => .ok (slotOf hash phf.seed d phf.m.toUInt64)
      | none => .error .invalidRead

def chd (sorter : UnstableSort) : PerfectHashFunction ChdPhf where
  build := ChdPhf.build sorter
  index := ChdPhf.index

end Optimap.Perfect.Chd
