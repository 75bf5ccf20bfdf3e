import Optimap.Perfect.BucketedProperties
import Optimap.Perfect.Multilevel

/-!
# Build and query of the multi-level structure agree

The query sees only the bit of a level-0 bucket. It is set exactly for the
oversized buckets, all of whose keys the build sent to level 1.
-/

set_option autoImplicit false
set_option linter.unusedSectionVars false

namespace Optimap.Perfect.Multilevel

open Lib Hash Bucketed

theorem markOverflow_length (sizes : List Nat) (b : Nat) (overflow : List UInt64) :
    (markOverflow sizes b overflow).length = overflow.length := by
  induction sizes generalizing b overflow with
  | nil => rfl
  | cons sz sizes ih =>
      rw [markOverflow, ih]
      split
      · exact Bitset.set_length _ _
      · rfl

theorem markOverflow_test {sizes : List Nat} {b : Nat} {overflow : List UInt64}
    (room : b + sizes.length ≤ 64 * overflow.length) (i : Nat) :
    Bitset.test (markOverflow sizes b overflow) i = true ↔
      Bitset.test overflow i = true ∨ ∃ k sz, sizes[k]? = some sz ∧ i = b + k ∧ SLOTS_PER_BUCKET < sz := by
  induction sizes generalizing b overflow with
  | nil => simp [markOverflow]
  | cons sz sizes ih =>
      rw [List.length_cons] at room
      have length : (if SLOTS_PER_BUCKET < sz then Bitset.set overflow b else overflow).length =
          overflow.length := by
        split
        · exact Bitset.set_length _ _
        · rfl
      have here : Bitset.test (if SLOTS_PER_BUCKET < sz then Bitset.set overflow b else overflow) i = true ↔
          Bitset.test overflow i = true ∨ (i = b ∧ SLOTS_PER_BUCKET < sz) := by
        split
        · rename_i large
          rw [Bitset.test_set (by omega)]
          simp only [large, and_true]
          exact or_comm
        · rename_i small
          simp [small]
      rw [markOverflow, ih (by rw [length]; omega), here, or_assoc]
      refine or_congr_right ⟨?_, ?_⟩
      · rintro (⟨rfl, large⟩ | ⟨k, other, found, rfl, large⟩)
        · exact ⟨0, sz, rfl, rfl, large⟩
        · exact ⟨k + 1, other, found, by omega, large⟩
      · rintro ⟨k, other, found, rfl, large⟩
        cases k with
        | zero =>
            rw [List.getElem?_cons_zero, Option.some.injEq] at found
            exact .inl ⟨rfl, found ▸ large⟩
        | succ k => exact .inr ⟨k, other, found, by omega, large⟩

section Placing
variable {hashes : List UInt64} {seed0 r0 : UInt64} {overflow : List UInt64} {labels : List Nat}
  {buckets : Nat}

/-- What the placing pass has done before key `i`. -/
structure Placing (hashes : List UInt64) (labels : List Nat) (overflow : List UInt64) (buckets i : Nat)
    (state : Placer) : Prop where
  cursor : ∀ b < buckets, Bitset.test overflow b = false →
    state.bucketCursor[b]? = some ((labels.take i).count b)
  levelLength : state.placements.level.length = labels.length
  bucketLength : state.placements.bucket.length = labels.length
  slotLength : state.placements.slot.length = labels.length
  untouched : ∀ j, i ≤ j → j < labels.length → state.placements.level[j]? = some 0
  direct : ∀ j < i, ∀ b, labels[j]? = some b → Bitset.test overflow b = false →
    state.placements.level[j]? = some 0 ∧ state.placements.bucket[j]? = some b ∧
      state.placements.slot[j]? = some ((labels.take j).count b)
  aside : ∀ j < i, ∀ b, labels[j]? = some b → Bitset.test overflow b = true →
    state.placements.level[j]? = some 1
  orig_nodup : state.overflowOrig.Nodup
  mem_orig : ∀ j, j ∈ state.overflowOrig ↔ j < i ∧ ∃ b, labels[j]? = some b ∧ Bitset.test overflow b = true
  hashes_eq : state.overflowHashes = state.overflowOrig.map fun j => hashes.getD j 0

theorem Placing.putAside {state : Placer} {i b : Nat} {h : UInt64}
    (placing : Placing hashes labels overflow buckets i state) (found : labels[i]? = some b)
    (foundHash : hashes[i]? = some h) (set : Bitset.test overflow b = true) :
    Placing hashes labels overflow buckets (i + 1)
      { state with
        placements := { state.placements with level := state.placements.level.set i 1 }
        overflowOrig := state.overflowOrig ++ [i]
        overflowHashes := state.overflowHashes ++ [h] } where
  cursor other inside clear := by
    have taken : labels.take (i + 1) = labels.take i ++ [b] := by
      rw [List.take_add_one, found]
      rfl
    have different : b ≠ other := by
      rintro rfl
      rw [set] at clear
      cases clear
    rw [taken, List.count_append, placing.cursor other inside clear]
    simp [different]
  levelLength := by
    rw [List.length_set]
    exact placing.levelLength
  bucketLength := placing.bucketLength
  slotLength := placing.slotLength
  untouched j from' below := by
    rw [List.getElem?_set_ne (by omega)]
    exact placing.untouched j (by omega) below
  direct j below other foundOther clear := by
    have earlier : j ≠ i := by
      rintro rfl
      obtain rfl : b = other := Option.some.inj (found.symm.trans foundOther)
      rw [set] at clear
      cases clear
    rw [List.getElem?_set_ne (fun same => earlier same.symm)]
    exact placing.direct j (by omega) other foundOther clear
  aside j below other foundOther setOther := by
    have bound := (List.getElem?_eq_some_iff.mp found).1
    by_cases here : i = j
    · subst here
      simp [placing.levelLength, bound]
    · rw [List.getElem?_set_ne here]
      exact placing.aside j (by omega) other foundOther setOther
  orig_nodup := by
    rw [List.nodup_append]
    refine ⟨placing.orig_nodup, List.nodup_singleton i, fun j member other single same => ?_⟩
    rw [List.mem_singleton] at single
    have early := ((placing.mem_orig j).mp member).1
    omega
  mem_orig j := by
    rw [List.mem_append, List.mem_singleton, placing.mem_orig]
    constructor
    · rintro (⟨below, marked⟩ | rfl)
      · exact ⟨by omega, marked⟩
      · exact ⟨by omega, b, found, set⟩
    · rintro ⟨below, marked⟩
      by_cases here : j = i
      · exact .inr here
      · exact .inl ⟨by omega, marked⟩
  hashes_eq := by
    rw [List.map_append, placing.hashes_eq, List.map_singleton, List.getD_eq_getElem?_getD, foundHash]
    rfl

theorem Placing.putDirect {state : Placer} {i b : Nat}
    (placing : Placing hashes labels overflow buckets i state) (found : labels[i]? = some b)
    (inside : b < buckets) (clear : Bitset.test overflow b = false) :
    Placing hashes labels overflow buckets (i + 1)
      { state with
        placements :=
          { state.placements with
            bucket := state.placements.bucket.set i b
            slot := state.placements.slot.set i (state.bucketCursor.getD b 0) }
        bucketCursor := state.bucketCursor.set b (state.bucketCursor.getD b 0 + 1) } := by
  have bound := (List.getElem?_eq_some_iff.mp found).1
  have size : state.bucketCursor.getD b 0 = (labels.take i).count b := by
    rw [List.getD_eq_getElem?_getD, placing.cursor b inside clear, Option.getD_some]
  rw [size]
  refine ⟨fun other otherInside otherClear => ?_, placing.levelLength, ?_, ?_, fun j from' below => ?_,
    fun j below other foundOther otherClear => ?_, fun j below other foundOther set => ?_,
    placing.orig_nodup, fun j => ?_, placing.hashes_eq⟩
  · have taken : labels.take (i + 1) = labels.take i ++ [b] := by
      rw [List.take_add_one, found]
      rfl
    rw [taken, List.count_append, List.getElem?_set]
    by_cases same : b = other
    · subst same
      have cursorBound := (List.getElem?_eq_some_iff.mp (placing.cursor b inside clear)).1
      simp [cursorBound]
    · rw [if_neg same, placing.cursor other otherInside otherClear]
      simp [same]
  · rw [List.length_set]
    exact placing.bucketLength
  · rw [List.length_set]
    exact placing.slotLength
  · exact placing.untouched j (by omega) below
  · rcases Nat.lt_succ_iff_lt_or_eq.mp below with earlier | rfl
    · obtain ⟨levelFound, bucketFound, slotFound⟩ := placing.direct j earlier other foundOther otherClear
      have apart : i ≠ j := Nat.ne_of_gt earlier
      simp only [List.getElem?_set_ne apart]
      exact ⟨levelFound, bucketFound, slotFound⟩
    · obtain rfl : b = other := Option.some.inj (found.symm.trans foundOther)
      refine ⟨placing.untouched j le_rfl bound, ?_, ?_⟩
      · simp [placing.bucketLength, bound]
      · simp [placing.slotLength, bound]
  · have earlier : j ≠ i := by
      rintro rfl
      obtain rfl : b = other := Option.some.inj (found.symm.trans foundOther)
      rw [clear] at set
      cases set
    exact placing.aside j (by omega) other foundOther set
  · rw [placing.mem_orig]
    constructor
    · rintro ⟨below, marked⟩
      exact ⟨by omega, marked⟩
    · rintro ⟨below, other, foundOther, set⟩
      refine ⟨?_, other, foundOther, set⟩
      have different : j ≠ i := by
        rintro rfl
        obtain rfl : b = other := Option.some.inj (found.symm.trans foundOther)
        rw [clear] at set
        cases set
      omega

theorem placeKeys_placing {rest : List UInt64} {i : Nat} {state : Placer}
    (labelsEq : labels = hashes.map fun h => bucketOf h seed0 r0) (below : ∀ label ∈ labels, label < buckets)
    (suffix : hashes.drop i = rest) (placing : Placing hashes labels overflow buckets i state) :
    Placing hashes labels overflow buckets (i + rest.length)
      (placeKeys seed0 r0 overflow rest i state) := by
  induction rest generalizing i state with
  | nil => exact placing
  | cons h rest ih =>
      have foundHash : hashes[i]? = some h := by
        have head := congrArg List.head? suffix
        rwa [List.head?_drop, List.head?_cons] at head
      have found : labels[i]? = some (bucketOf h seed0 r0) := by
        rw [labelsEq, List.getElem?_map, foundHash]
        rfl
      have next : hashes.drop (i + 1) = rest := by
        rw [← List.tail_drop, suffix, List.tail_cons]
      have length : i + (h :: rest).length = i + 1 + rest.length := by
        rw [List.length_cons]
        omega
      rw [placeKeys, length]
      apply ih next
      cases marked : Bitset.test overflow (bucketOf h seed0 r0) with
      | true =>
          rw [if_pos rfl]
          exact placing.putAside found foundHash marked
      | false =>
          rw [if_neg (by simp)]
          exact placing.putDirect found (below _ (List.mem_of_getElem? found)) marked

end Placing

/-- Patching writes the placements at the indices of the list and leaves the rest. -/
theorem patchLevel1_spec (l1 : Placements) {overflowOrig : List Nat} {idx n : Nat}
    {placements : MultilevelPlacements} (nodup : overflowOrig.Nodup) (inside : ∀ j ∈ overflowOrig, j < n)
    (bucketLength : placements.bucket.length = n) (slotLength : placements.slot.length = n) :
    let patched := patchLevel1 l1 overflowOrig idx placements
    patched.level = placements.level ∧ patched.bucket.length = n ∧ patched.slot.length = n ∧
      (∀ k j, overflowOrig[k]? = some j → patched.bucket[j]? = some (l1.bucket.getD (idx + k) 0) ∧
        patched.slot[j]? = some (l1.slot.getD (idx + k) 0)) ∧
      ∀ j, j ∉ overflowOrig → patched.bucket[j]? = placements.bucket[j]? ∧
        patched.slot[j]? = placements.slot[j]? := by
  induction overflowOrig generalizing idx placements with
  | nil => exact ⟨rfl, bucketLength, slotLength, by simp, fun _ _ => ⟨rfl, rfl⟩⟩
  | cons orig overflowOrig ih =>
      obtain ⟨fresh, tailNodup⟩ := List.nodup_cons.mp nodup
      have origBound := inside orig List.mem_cons_self
      obtain ⟨sameLevel, newBucketLength, newSlotLength, patched, others⟩ :=
        @ih (idx + 1)
          { placements with
            bucket := placements.bucket.set orig (l1.bucket.getD idx 0)
            slot := placements.slot.set orig (l1.slot.getD idx 0) }
          tailNodup (fun j member => inside j (List.mem_cons_of_mem _ member))
          (by simpa using bucketLength) (by simpa using slotLength)
      refine ⟨sameLevel, newBucketLength, newSlotLength, fun k j found => ?_, fun j outside => ?_⟩
      · cases k with
        | zero =>
            obtain rfl : orig = j := by simpa using found
            obtain ⟨sameBucket, sameSlot⟩ := others orig fresh
            simp only [patchLevel1]
            rw [sameBucket, sameSlot]
            simp [bucketLength, slotLength, origBound]
        | succ k =>
            rw [List.getElem?_cons_succ] at found
            have step := patched k j found
            rwa [show idx + 1 + k = idx + (k + 1) by omega] at step
      · rw [List.mem_cons, not_or] at outside
        obtain ⟨sameBucket, sameSlot⟩ := others j outside.2
        have apart : orig ≠ j := fun same => outside.1 same.symm
        simp only [patchLevel1]
        rw [sameBucket, sameSlot]
        simp only [List.getElem?_set_ne apart, and_self]

section Build
variable {hashes : List UInt64} {lambda0 lambda1 : Lambda} {phf : MultilevelBucketedPhf}
  {placements : MultilevelPlacements}

/-- The query's answer for a bit that can be read. -/
theorem classify_eq {buckets : Nat} (positive : 0 < buckets) (few : buckets ≤ u32Max)
    (number : phf.level0.numBuckets = UInt32.ofNat buckets) (words : phf.overflow.length = (buckets + 63) / 64)
    (hash : UInt64) :
    phf.level0.bucket hash < buckets ∧
      (Bitset.test phf.overflow (phf.level0.bucket hash) = true → ∀ l1, phf.level1 = some l1 →
        phf.classify hash = .ok (1, l1.bucket hash)) ∧
      (Bitset.test phf.overflow (phf.level0.bucket hash) = false →
        phf.classify hash = .ok (0, phf.level0.bucket hash)) := by
  obtain ⟨count, same⟩ := bucket_eq_bucketOf positive few number hash
  have below : phf.level0.bucket hash < buckets := by
    rw [same]
    exact bucketOf_ofNat_lt positive few hash _
  have nonzero : phf.level0.numBuckets ≠ 0 := by
    intro zero
    rw [zero] at count
    exact absurd count (Nat.ne_of_lt positive)
  have inside : phf.level0.bucket hash / 64 < phf.overflow.length := by
    rw [words]
    omega
  have read : Bitset.test phf.overflow (phf.level0.bucket hash) =
      (phf.overflow[phf.level0.bucket hash / 64] &&& Bitset.bit (phf.level0.bucket hash) != 0) := by
    rw [Bitset.test, List.getD_eq_getElem?_getD, List.getElem?_eq_getElem inside, Option.getD_some]
  refine ⟨below, fun set l1 exists1 => ?_, fun clear => ?_⟩
  · rw [read, bne_iff_ne] at set
    simp only [MultilevelBucketedPhf.classify, if_neg nonzero, List.getElem?_eq_getElem inside, if_pos set,
      exists1]
  · rw [read, bne_eq_false_iff_eq] at clear
    simp only [MultilevelBucketedPhf.classify, if_neg nonzero, List.getElem?_eq_getElem inside, clear,
      ne_eq, not_true_eq_false, if_false]

/-- Build and query agree, and the placements are distinct. -/
structure Consistent (hashes : List UInt64) (phf : MultilevelBucketedPhf) (placements : MultilevelPlacements) :
    Prop where
  levelLength : placements.level.length = hashes.length
  bucketLength : placements.bucket.length = hashes.length
  slotLength : placements.slot.length = hashes.length
  classified : ∀ (i : Nat) hash level bucket slot, hashes[i]? = some hash → placements.level[i]? = some level →
    placements.bucket[i]? = some bucket → placements.slot[i]? = some slot →
    phf.classify hash = .ok (level, bucket) ∧ slot < SLOTS_PER_BUCKET
  distinct : (placements.level.zip (placements.bucket.zip placements.slot)).Nodup
  redirected : ∀ hash, Bitset.test phf.overflow (phf.level0.bucket hash) = true →
    ∃ l1, phf.level1 = some l1 ∧ phf.classify hash = .ok (1, l1.bucket hash) ∧
      l1.bucket hash < phf.numBucketsLevel1
  stays : hashes ≠ [] → ∀ hash, Bitset.test phf.overflow (phf.level0.bucket hash) = false →
    phf.classify hash = .ok (0, phf.level0.bucket hash) ∧ phf.level0.bucket hash < phf.numBucketsLevel0

/-- Two level-0 keys of a bucket have different numbers of earlier keys. -/
theorem count_take_ne {labels : List Nat} {i j b : Nat} (before : i < j) (found : labels[i]? = some b) :
    (labels.take i).count b ≠ (labels.take j).count b := by
  have inPrefix : (labels.take j)[i]? = some b := by
    rw [List.getElem?_take, if_pos before, found]
  have strict := CountingSort.count_take_lt inPrefix
  rw [List.take_take, min_eq_left (Nat.le_of_lt before)] at strict
  exact Nat.ne_of_lt strict

/-- Where the build put each key, by its level-0 bucket. -/
structure Settled (hashes : List UInt64) (labels : List Nat) (phf : MultilevelBucketedPhf)
    (placements : MultilevelPlacements) : Prop where
  levelLength : placements.level.length = hashes.length
  bucketLength : placements.bucket.length = hashes.length
  slotLength : placements.slot.length = hashes.length
  direct : ∀ j b : Nat, labels[j]? = some b → Bitset.test phf.overflow b = false →
    placements.level[j]? = some 0 ∧ placements.bucket[j]? = some b ∧
      placements.slot[j]? = some ((labels.take j).count b)
  fits : ∀ b, Bitset.test phf.overflow b = false → b ∈ labels → labels.count b ≤ SLOTS_PER_BUCKET
  moved : ∀ j b : Nat, labels[j]? = some b → Bitset.test phf.overflow b = true →
    ∃ l1, phf.level1 = some l1 ∧ placements.level[j]? = some 1 ∧
      placements.bucket[j]? = (hashes[j]?).map l1.bucket ∧
      ∀ slot, placements.slot[j]? = some slot → slot < SLOTS_PER_BUCKET
  apart : ∀ i j b b' : Nat, labels[i]? = some b → labels[j]? = some b' → Bitset.test phf.overflow b = true →
    Bitset.test phf.overflow b' = true → placements.bucket[i]? = placements.bucket[j]? →
    placements.slot[i]? = placements.slot[j]? → i = j
  next : ∀ b, Bitset.test phf.overflow b = true →
    ∃ l1, phf.level1 = some l1 ∧ ∀ hash, l1.bucket hash < l1.numBuckets.toNat

theorem Settled.consistent {labels : List Nat} {buckets : Nat} (settled : Settled hashes labels phf placements)
    (positive : 0 < buckets) (few : buckets ≤ u32Max) (number : phf.level0.numBuckets = UInt32.ofNat buckets)
    (words : phf.overflow.length = (buckets + 63) / 64) (labelsEq : labels = hashes.map phf.level0.bucket) :
    Consistent hashes phf placements := by
  have query := classify_eq positive few number words
  have labelOf : ∀ {i : Nat} {hash : UInt64}, hashes[i]? = some hash →
      labels[i]? = some (phf.level0.bucket hash) := by
    intro i hash found
    rw [labelsEq, List.getElem?_map, found]
    rfl
  refine ⟨settled.levelLength, settled.bucketLength, settled.slotLength, ?_, ?_, fun hash set => ?_,
    fun nonempty hash clear => ?_⟩
  · intro i hash level bucket slot found levelFound bucketFound slotFound
    have label := labelOf found
    cases marked : Bitset.test phf.overflow (phf.level0.bucket hash) with
    | false =>
        obtain ⟨isLevel, isBucket, isSlot⟩ := settled.direct i _ label marked
        cases isLevel.symm.trans levelFound
        cases isBucket.symm.trans bucketFound
        cases isSlot.symm.trans slotFound
        have room := settled.fits _ marked (List.mem_of_getElem? label)
        have rank := CountingSort.count_take_lt label
        exact ⟨(query hash).2.2 marked, by omega⟩
    | true =>
        obtain ⟨l1, exists1, isLevel, isBucket, small⟩ := settled.moved i _ label marked
        cases isLevel.symm.trans levelFound
        rw [found, Option.map_some] at isBucket
        cases isBucket.symm.trans bucketFound
        exact ⟨(query hash).2.1 marked l1 exists1, small slot slotFound⟩
  · rw [List.Nodup, List.pairwise_iff_getElem]
    intro i j iBound jBound before same
    simp only [List.length_zip, settled.levelLength, settled.bucketLength, settled.slotLength, min_self]
      at iBound jBound
    simp only [List.getElem_zip, Prod.mk.injEq] at same
    obtain ⟨sameLevel, sameBucket, sameSlot⟩ := same
    have iLabel := labelOf (List.getElem?_eq_getElem iBound)
    have jLabel := labelOf (List.getElem?_eq_getElem jBound)
    have levels : placements.level[i]? = placements.level[j]? := by
      rw [List.getElem?_eq_getElem (by rw [settled.levelLength]; exact iBound),
        List.getElem?_eq_getElem (by rw [settled.levelLength]; exact jBound), sameLevel]
    have bucketsEq : placements.bucket[i]? = placements.bucket[j]? := by
      rw [List.getElem?_eq_getElem (by rw [settled.bucketLength]; exact iBound),
        List.getElem?_eq_getElem (by rw [settled.bucketLength]; exact jBound), sameBucket]
    have slots : placements.slot[i]? = placements.slot[j]? := by
      rw [List.getElem?_eq_getElem (by rw [settled.slotLength]; exact iBound),
        List.getElem?_eq_getElem (by rw [settled.slotLength]; exact jBound), sameSlot]
    cases iMarked : Bitset.test phf.overflow (phf.level0.bucket hashes[i]) with
    | false =>
        obtain ⟨iLevel, iBucket, iSlot⟩ := settled.direct i _ iLabel iMarked
        cases jMarked : Bitset.test phf.overflow (phf.level0.bucket hashes[j]) with
        | false =>
            obtain ⟨jLevel, jBucket, jSlot⟩ := settled.direct j _ jLabel jMarked
            rw [iBucket, jBucket, Option.some.injEq] at bucketsEq
            rw [iSlot, jSlot, Option.some.injEq, ← bucketsEq] at slots
            exact count_take_ne before iLabel slots
        | true =>
            obtain ⟨_, _, jLevel, _⟩ := settled.moved j _ jLabel jMarked
            rw [iLevel, jLevel] at levels
            cases levels
    | true =>
        obtain ⟨_, _, iLevel, _⟩ := settled.moved i _ iLabel iMarked
        cases jMarked : Bitset.test phf.overflow (phf.level0.bucket hashes[j]) with
        | false =>
            obtain ⟨jLevel, _, _⟩ := settled.direct j _ jLabel jMarked
            rw [iLevel, jLevel] at levels
            cases levels
        | true =>
            have equal := settled.apart i j _ _ iLabel jLabel iMarked jMarked bucketsEq slots
            exact absurd equal (Nat.ne_of_lt before)
  · obtain ⟨l1, exists1, below⟩ := settled.next _ set
    refine ⟨l1, exists1, (query hash).2.1 set l1 exists1, ?_⟩
    rw [MultilevelBucketedPhf.numBucketsLevel1, exists1]
    exact below hash
  · refine ⟨(query hash).2.2 clear, ?_⟩
    rw [MultilevelBucketedPhf.numBucketsLevel0, (bucket_eq_bucketOf positive few number hash).1]
    exact (query hash).1

/-- The marked buckets are those with more keys than slots. -/
theorem marked_iff {labels : List Nat} {buckets : Nat} (b : Nat) :
    Bitset.test (markOverflow (CountingSort.tally buckets labels) 0 (Bitset.zeroed ((buckets + 63) / 64))) b =
      true ↔ b < buckets ∧ SLOTS_PER_BUCKET < labels.count b := by
  have room : 0 + (CountingSort.tally buckets labels).length ≤
      64 * (Bitset.zeroed ((buckets + 63) / 64)).length := by
    rw [CountingSort.tally_length, Bitset.zeroed, List.length_replicate]
    omega
  rw [markOverflow_test room, Bitset.test_zeroed]
  constructor
  · rintro (impossible | ⟨k, sz, found, same, large⟩)
    · cases impossible
    · rw [Nat.zero_add] at same
      subst same
      have bound := (List.getElem?_eq_some_iff.mp found).1
      rw [CountingSort.tally_length] at bound
      rw [CountingSort.tally_getElem bound, Option.some.injEq] at found
      exact ⟨bound, found ▸ large⟩
  · rintro ⟨bound, large⟩
    exact .inr ⟨b, _, CountingSort.tally_getElem bound, (Nat.zero_add b).symm, large⟩

section Settle
variable {labels : List Nat} {overflow : List UInt64} {buckets : Nat} {placer : Placer} {level0 : BucketedPhf}

/-- No key was put aside: no bit is set. -/
theorem settled_without (length : labels.length = hashes.length)
    (placing : Placing hashes labels overflow buckets hashes.length placer)
    (fits : ∀ b, Bitset.test overflow b = false → b ∈ labels → labels.count b ≤ SLOTS_PER_BUCKET)
    (occurs : ∀ b, Bitset.test overflow b = true → b ∈ labels) (none : placer.overflowHashes = []) :
    Settled hashes labels ⟨level0, overflow, Option.none⟩ placer.placements := by
  have noOrig : placer.overflowOrig = [] := by
    have mapped := placing.hashes_eq
    rw [none] at mapped
    exact List.map_eq_nil_iff.mp mapped.symm
  have clearAll : ∀ b, Bitset.test overflow b = false := by
    intro b
    cases set : Bitset.test overflow b with
    | false => rfl
    | true =>
        obtain ⟨j, bound, found⟩ := List.getElem_of_mem (occurs b set)
        have member := (placing.mem_orig j).mpr
          ⟨length ▸ bound, b, List.getElem?_eq_some_iff.mpr ⟨bound, found⟩, set⟩
        rw [noOrig] at member
        cases member
  have impossible : ∀ {b : Nat} {p : Prop}, Bitset.test overflow b = true → p := by
    intro b p set
    rw [clearAll b] at set
    cases set
  refine ⟨placing.levelLength.trans length, placing.bucketLength.trans length,
    placing.slotLength.trans length, fun j b found clear => ?_, fits, fun j b found set => impossible set,
    fun i j b b' found foundOther set => impossible set, fun b set => impossible set⟩
  exact placing.direct j (length ▸ (List.getElem?_eq_some_iff.mp found).1) b found clear

/-- The keys put aside were placed by level 1 and patched back. -/
theorem settled_with {l1 : BucketedPhf} {l1Placements : Placements} (length : labels.length = hashes.length)
    (placing : Placing hashes labels overflow buckets hashes.length placer)
    (fits : ∀ b, Bitset.test overflow b = false → b ∈ labels → labels.count b ≤ SLOTS_PER_BUCKET)
    (places : PlacesAll placer.overflowHashes l1 l1Placements)
    (below : ∀ hash, l1.bucket hash < l1.numBuckets.toNat) :
    Settled hashes labels ⟨level0, overflow, some l1⟩
      (patchLevel1 l1Placements placer.overflowOrig 0 placer.placements) := by
  have inside : ∀ j ∈ placer.overflowOrig, j < labels.length := by
    intro j member
    obtain ⟨_, b, found, _⟩ := (placing.mem_orig j).mp member
    exact (List.getElem?_eq_some_iff.mp found).1
  obtain ⟨sameLevel, bucketLength, slotLength, patched, others⟩ := @patchLevel1_spec l1Placements
    placer.overflowOrig 0 labels.length placer.placements placing.orig_nodup inside placing.bucketLength
    placing.slotLength
  have count : placer.overflowHashes.length = placer.overflowOrig.length := by
    rw [placing.hashes_eq, List.length_map]
  -- A key of a marked bucket has an index among those put aside.
  have indexOf : ∀ j b : Nat, labels[j]? = some b → Bitset.test overflow b = true →
      ∃ k : Nat, placer.overflowOrig[k]? = some j := by
    intro j b found set
    have member := (placing.mem_orig j).mpr
      ⟨length ▸ (List.getElem?_eq_some_iff.mp found).1, b, found, set⟩
    obtain ⟨k, bound, same⟩ := List.getElem_of_mem member
    exact ⟨k, List.getElem?_eq_some_iff.mpr ⟨bound, same⟩⟩
  have bucketAt : ∀ k j : Nat, placer.overflowOrig[k]? = some j →
      l1Placements.bucket[k]? = some (l1.bucket (hashes.getD j 0)) := by
    intro k j found
    rw [places.bucket_eq, placing.hashes_eq, List.map_map, List.getElem?_map, found]
    rfl
  have bucketRead : ∀ k j : Nat, placer.overflowOrig[k]? = some j →
      l1Placements.bucket.getD k 0 = l1.bucket (hashes.getD j 0) := by
    intro k j found
    refine List.getD_eq_getElem?_getD.trans ?_
    rw [bucketAt k j found, Option.getD_some]
  have slotAt : ∀ k j : Nat, placer.overflowOrig[k]? = some j → ∃ slot, l1Placements.slot[k]? = some slot := by
    intro k j found
    have bound := (List.getElem?_eq_some_iff.mp found).1
    exact ⟨_, List.getElem?_eq_getElem (by rw [places.slotLength, count]; exact bound)⟩
  refine ⟨?_, bucketLength.trans length, slotLength.trans length, fun j b found clear => ?_, fits,
    fun j b found set => ?_, fun i j b b' found foundOther set setOther sameBucket sameSlot => ?_,
    fun b set => ⟨l1, rfl, below⟩⟩
  · rw [sameLevel]
    exact placing.levelLength.trans length
  · have bound := (List.getElem?_eq_some_iff.mp found).1
    obtain ⟨levelFound, bucketFound, slotFound⟩ := placing.direct j (length ▸ bound) b found clear
    have outside : j ∉ placer.overflowOrig := by
      intro member
      obtain ⟨_, b', found', set⟩ := (placing.mem_orig j).mp member
      cases found.symm.trans found'
      rw [show Bitset.test overflow b = false from clear] at set
      cases set
    obtain ⟨keptBucket, keptSlot⟩ := others j outside
    exact ⟨by rw [sameLevel]; exact levelFound, keptBucket.trans bucketFound, keptSlot.trans slotFound⟩
  · have bound := (List.getElem?_eq_some_iff.mp found).1
    obtain ⟨k, origFound⟩ := indexOf j b found set
    obtain ⟨slot, slotFound⟩ := slotAt k j origFound
    obtain ⟨bucketWritten, slotWritten⟩ := patched k j origFound
    rw [Nat.zero_add] at bucketWritten slotWritten
    refine ⟨l1, rfl, ?_, ?_, fun other otherFound => ?_⟩
    · rw [sameLevel]
      exact placing.aside j (length ▸ bound) b found set
    · rw [bucketWritten, bucketRead k j origFound, List.getElem?_eq_getElem (length ▸ bound),
        List.getD_eq_getElem?_getD, List.getElem?_eq_getElem (length ▸ bound)]
      rfl
    · rw [slotWritten, List.getD_eq_getElem?_getD, slotFound, Option.getD_some, Option.some.injEq] at otherFound
      exact otherFound ▸ places.slot_lt slot (List.mem_of_getElem? slotFound)
  · obtain ⟨k, iFound⟩ := indexOf i b found set
    obtain ⟨k', jFound⟩ := indexOf j b' foundOther setOther
    obtain ⟨slot, slotFound⟩ := slotAt k i iFound
    obtain ⟨slot', slotFound'⟩ := slotAt k' j jFound
    obtain ⟨iBucket, iSlot⟩ := patched k i iFound
    obtain ⟨jBucket, jSlot⟩ := patched k' j jFound
    rw [Nat.zero_add] at iBucket iSlot jBucket jSlot
    rw [iBucket, jBucket, Option.some.injEq, bucketRead k i iFound, bucketRead k' j jFound] at sameBucket
    rw [iSlot, jSlot, Option.some.injEq, List.getD_eq_getElem?_getD, slotFound, List.getD_eq_getElem?_getD,
      slotFound', Option.getD_some, Option.getD_some] at sameSlot
    have first : (l1Placements.bucket.zip l1Placements.slot)[k]? =
        some (l1.bucket (hashes.getD i 0), slot) :=
      List.getElem?_zip_eq_some.mpr ⟨bucketAt k i iFound, slotFound⟩
    have second : (l1Placements.bucket.zip l1Placements.slot)[k']? =
        some (l1.bucket (hashes.getD i 0), slot) := by
      rw [sameBucket, sameSlot]
      exact List.getElem?_zip_eq_some.mpr ⟨bucketAt k' j jFound, slotFound'⟩
    obtain ⟨firstBound, firstIs⟩ := List.getElem?_eq_some_iff.mp first
    obtain ⟨secondBound, secondIs⟩ := List.getElem?_eq_some_iff.mp second
    have sameIndex := (List.Nodup.getElem_inj_iff places.distinct).mp (firstIs.trans secondIs.symm)
    subst sameIndex
    exact Option.some.inj (iFound.symm.trans jFound)

end Settle

theorem build_consistent (built : MultilevelBucketedPhf.build hashes lambda0 lambda1 = .ok (phf, placements)) :
    hashes.Nodup ∧ Consistent hashes phf placements := by
  simp only [MultilevelBucketedPhf.build] at built
  split at built
  · rename_i empty
    obtain rfl : hashes = [] := List.length_eq_zero_iff.mp empty
    cases built
    refine ⟨List.nodup_nil, ⟨rfl, rfl, rfl, by simp, by simp, fun hash set => ?_, by simp⟩⟩
    rw [show ([] : List UInt64) = Bitset.zeroed 0 from rfl, Bitset.test_zeroed] at set
    cases set
  · split at built
    · cases built
    · rename_i noDuplicate
      rw [hasDuplicate_iff, not_not] at noDuplicate
      refine ⟨noDuplicate, ?_⟩
      split at built
      · cases built
      · rename_i few
        obtain ⟨buckets, bucketsEq⟩ : ∃ buckets, buckets = max (lambda0.buckets hashes.length) 1 := ⟨_, rfl⟩
        rw [← bucketsEq] at built few
        have positive : 0 < buckets := by omega
        have small : buckets ≤ u32Max := by omega
        obtain ⟨labels, labelsEq⟩ : ∃ labels,
            labels = hashes.map fun h => bucketOf h MULTILEVEL_SEED_BASE (UInt64.ofNat buckets) := ⟨_, rfl⟩
        rw [← labelsEq] at built
        have length : labels.length = hashes.length := by rw [labelsEq, List.length_map]
        have below : ∀ label ∈ labels, label < buckets := by
          intro label member
          rw [labelsEq] at member
          obtain ⟨h, _, rfl⟩ := List.mem_map.mp member
          exact bucketOf_ofNat_lt positive small h _
        obtain ⟨overflow, overflowEq⟩ : ∃ overflow, overflow = markOverflow
            (CountingSort.tally buckets labels) 0 (Bitset.zeroed ((buckets + 63) / 64)) := ⟨_, rfl⟩
        rw [← overflowEq] at built
        have words : overflow.length = (buckets + 63) / 64 := by
          rw [overflowEq, markOverflow_length]
          exact List.length_replicate
        have fits : ∀ b, Bitset.test overflow b = false → b ∈ labels → labels.count b ≤ SLOTS_PER_BUCKET := by
          intro b clear member
          by_contra large
          rw [overflowEq, (marked_iff b).mpr ⟨below b member, by omega⟩] at clear
          cases clear
        have occurs : ∀ b, Bitset.test overflow b = true → b ∈ labels := by
          intro b set
          rw [overflowEq] at set
          obtain ⟨_, large⟩ := (marked_iff b).mp set
          exact List.count_pos_iff.mp (by omega)
        have start : Placing hashes labels overflow buckets 0
            ⟨⟨List.replicate hashes.length 0, List.replicate hashes.length 0, List.replicate hashes.length 0⟩,
              List.replicate buckets 0, [], []⟩ := by
          refine ⟨fun b inside _ => by simp [inside], by simp [length], by simp [length], by simp [length],
            fun j _ inside => by simp [← length, inside], fun j impossible => by omega,
            fun j impossible => by omega, List.nodup_nil, by simp, rfl⟩
        have placing := placeKeys_placing labelsEq below List.drop_zero start
        rw [Nat.zero_add] at placing
        have queries : ∀ h, (BucketedPhf.fromParts MULTILEVEL_SEED_BASE (UInt32.ofNat buckets)).bucket h =
            bucketOf h MULTILEVEL_SEED_BASE (UInt64.ofNat buckets) :=
          fun h => (@bucket_eq_bucketOf (BucketedPhf.fromParts MULTILEVEL_SEED_BASE (UInt32.ofNat buckets)) _
            positive small rfl h).2
        have sameLabels : labels =
            hashes.map (BucketedPhf.fromParts MULTILEVEL_SEED_BASE (UInt32.ofNat buckets)).bucket := by
          rw [labelsEq]
          exact List.map_congr_left fun h _ => (queries h).symm
        split at built
        · rename_i none
          cases built
          exact (settled_without length placing fits occurs (List.isEmpty_iff.mp none)).consistent positive
            small rfl words sameLabels
        · rename_i some
          simp only [bind, Except.bind] at built
          split at built
          · cases built
          · rename_i result l1Built
            obtain ⟨l1, l1Placements⟩ := result
            cases built
            obtain ⟨_, places, inside⟩ := build_places l1Built
            have nonempty := fun nil => some (List.isEmpty_iff.mpr nil)
            exact (settled_with length placing fits places (inside nonempty).2).consistent positive small rfl
              words sameLabels

end Build

section Slabs
variable {α : Type} {feature : ReducedHash} {f : α → UInt64} {placements : MultilevelPlacements}
  {phf : MultilevelBucketedPhf}

/-- What filling writes into one level: the items placed there. -/
def levelWrites (feature : ReducedHash) (f : α → UInt64) (level : Nat) (placed : List ((Nat × Nat × Nat) × α)) :
    List ((Nat × Nat) × UInt8 × α) :=
  (placed.filter fun entry => entry.1.1 = level).map fun entry =>
    (entry.1.2, hashTag feature (f entry.2), entry.2)

theorem fill_eq {items : List α} {i : Nat} {slabs : Slab α × Slab α} {positions : List (Nat × Nat × Nat)}
    (positionsEq : (placements.level.zip (placements.bucket.zip placements.slot)).drop i = positions)
    (length : positions.length = items.length)
    (inside : ∀ position ∈ positions, position.1 = 0 ∧ (slabs.1.cell position.2).isSome ∨
      position.1 = 1 ∧ (slabs.2.cell position.2).isSome) :
    fill feature placements (items.zip (items.map f)) i slabs =
      .ok ((Slab.memory α).writeAll slabs.1
            (Slab.initialised (levelWrites feature f 0 (positions.zip items))),
          (Slab.memory α).writeAll slabs.2
            (Slab.initialised (levelWrites feature f 1 (positions.zip items)))) := by
  induction items generalizing i slabs positions with
  | nil =>
      obtain rfl : positions = [] := List.length_eq_zero_iff.mp length
      rfl
  | cons item items ih =>
      cases positions with
      | nil => cases length
      | cons position positions =>
          obtain ⟨level, bucket, slot⟩ := position
          have found : (placements.level.zip (placements.bucket.zip placements.slot))[i]? =
              some (level, bucket, slot) := by
            have head := congrArg List.head? positionsEq
            rwa [List.head?_drop, List.head?_cons] at head
          rw [List.getElem?_zip_eq_some, List.getElem?_zip_eq_some] at found
          obtain ⟨levelFound, bucketFound, slotFound⟩ := found
          have next : (placements.level.zip (placements.bucket.zip placements.slot)).drop (i + 1) =
              positions := by
            rw [← List.tail_drop, positionsEq, List.tail_cons]
          have kept : ∀ {slab : Slab α} {value : UInt8 × Option α} {other : Nat × Nat},
              (slab.cell (bucket, slot)).isSome → (slab.cell other).isSome →
              (((Slab.memory α).write slab (bucket, slot) value).cell other).isSome := by
            intro slab value other here isSome
            rw [show ((Slab.memory α).write slab (bucket, slot) value).cell other = _ from
              (Slab.memory α).read_write here _ other]
            split
            · rfl
            · exact isSome
          rcases inside (level, bucket, slot) List.mem_cons_self with ⟨rfl, here⟩ | ⟨rfl, here⟩
          · have written : slabs.1.write bucket slot (hashTag feature (f item)) item = .ok
                ((Slab.memory α).write slabs.1 (bucket, slot) (hashTag feature (f item), some item)) :=
              Slab.write_eq here
            simp only [List.map_cons, List.zip_cons_cons, fill, bucketFound, slotFound, levelFound, written,
              bind, Except.bind]
            rw [ih next (by simpa using length) fun other member => ?_]
            · rfl
            · rcases inside other (List.mem_cons_of_mem _ member) with ⟨zero, isSome⟩ | one
              · exact .inl ⟨zero, kept here isSome⟩
              · exact .inr one
          · have written : slabs.2.write bucket slot (hashTag feature (f item)) item = .ok
                ((Slab.memory α).write slabs.2 (bucket, slot) (hashTag feature (f item), some item)) :=
              Slab.write_eq here
            simp only [List.map_cons, List.zip_cons_cons, fill, bucketFound, slotFound, levelFound, written,
              bind, Except.bind]
            rw [ih next (by simpa using length) fun other member => ?_]
            · rfl
            · rcases inside other (List.mem_cons_of_mem _ member) with zero | ⟨one, isSome⟩
              · exact .inl zero
              · exact .inr ⟨one, kept here isSome⟩

/-- Whether the query goes to level 1. -/
def redirects (phf : MultilevelBucketedPhf) (hash : UInt64) : Bool :=
  Bitset.test phf.overflow (phf.level0.bucket hash)

/-- The bucket of a hash within level 1. -/
def bucketLevel1 (phf : MultilevelBucketedPhf) (hash : UInt64) : Nat :=
  match phf.level1 with
  | some l1 => l1.bucket hash
  | none => 0

/-- Both slabs hold the items of their level. -/
structure FillsBoth (feature : ReducedHash) (items : List α) (f : α → UInt64) (phf : MultilevelBucketedPhf)
    (slabs : Slab α × Slab α) : Prop where
  level0 : ∃ written, Fills feature (items.filter fun item => !redirects phf (f item)) f phf.level0.bucket
    phf.numBucketsLevel0 slabs.1 written
  level1 : ∃ written, Fills feature (items.filter fun item => redirects phf (f item)) f (bucketLevel1 phf)
    phf.numBucketsLevel1 slabs.2 written

theorem fill_fills {items : List α} (consistent : Consistent (items.map f) phf placements) :
    ∃ slabs, fill feature placements (items.zip (items.map f)) 0
        (Slab.uninit phf.numBucketsLevel0, Slab.uninit phf.numBucketsLevel1) = .ok slabs ∧
      FillsBoth feature items f phf slabs := by
  obtain ⟨positions, positionsEq⟩ : ∃ positions,
      positions = placements.level.zip (placements.bucket.zip placements.slot) := ⟨_, rfl⟩
  have length : positions.length = items.length := by
    rw [positionsEq, List.length_zip, List.length_zip, consistent.levelLength, consistent.bucketLength,
      consistent.slotLength, List.length_map]
    simp
  -- Each entry stands at the bucket of its hash, within the level the query finds.
  have paired : ∀ entry ∈ positions.zip items, entry.1.2.2 < SLOTS_PER_BUCKET ∧
      ((redirects phf (f entry.2) = false ∧ entry.1.1 = 0 ∧ entry.1.2.1 = phf.level0.bucket (f entry.2) ∧
          entry.1.2.1 < phf.numBucketsLevel0) ∨
        (redirects phf (f entry.2) = true ∧ entry.1.1 = 1 ∧ entry.1.2.1 = bucketLevel1 phf (f entry.2) ∧
          entry.1.2.1 < phf.numBucketsLevel1)) := by
    rintro ⟨⟨level, bucket, slot⟩, item⟩ member
    obtain ⟨j, bound, found⟩ := List.getElem_of_mem member
    have jFound := List.getElem?_eq_some_iff.mpr ⟨bound, found⟩
    rw [List.getElem?_zip_eq_some, positionsEq, List.getElem?_zip_eq_some, List.getElem?_zip_eq_some] at jFound
    obtain ⟨⟨levelFound, bucketFound, slotFound⟩, itemFound⟩ := jFound
    have hashFound : (items.map f)[j]? = some (f item) := by
      rw [List.getElem?_map, itemFound]
      rfl
    obtain ⟨classified, small⟩ :=
      consistent.classified j (f item) level bucket slot hashFound levelFound bucketFound slotFound
    refine ⟨small, ?_⟩
    cases redirected : redirects phf (f item) with
    | false =>
        obtain ⟨stays, below⟩ := consistent.stays (List.ne_nil_of_mem (List.mem_of_getElem? hashFound)) _ redirected
        rw [stays] at classified
        cases classified
        exact .inl ⟨rfl, rfl, rfl, below⟩
    | true =>
        obtain ⟨l1, exists1, moves, below⟩ := consistent.redirected _ redirected
        rw [moves] at classified
        cases classified
        refine .inr ⟨rfl, rfl, ?_, below⟩
        simp only [bucketLevel1, exists1]
  have ofPosition : ∀ position ∈ positions, ∃ item, (position, item) ∈ positions.zip items := by
    intro position member
    rw [← List.map_fst_zip (Nat.le_of_eq length)] at member
    obtain ⟨⟨other, item⟩, zipped, rfl⟩ := List.mem_map.mp member
    exact ⟨item, zipped⟩
  have distinct : positions.Nodup := positionsEq ▸ consistent.distinct
  -- The writes of a level keep its positions distinct.
  have levelNodup : ∀ level, ((levelWrites feature f level (positions.zip items)).map Prod.fst).Nodup := by
    intro level
    rw [levelWrites, List.map_map]
    have zipped : ((positions.zip items).map Prod.fst).Nodup := by
      rw [List.map_fst_zip (Nat.le_of_eq length)]
      exact distinct
    have filtered := zipped.of_map.filter fun entry => decide (entry.1.1 = level)
    refine filtered.map_on fun first inFirst second inSecond same => ?_
    rw [List.mem_filter, decide_eq_true_eq] at inFirst inSecond
    have equal : first.1 = second.1 := Prod.ext (inFirst.2.trans inSecond.2.symm) same
    exact List.inj_on_of_nodup_map zipped inFirst.1 inSecond.1 equal
  have levelItems : ∀ (level : Nat) (keep : α → Bool),
      (∀ entry ∈ positions.zip items, (entry.1.1 = level ↔ keep entry.2 = true)) →
      (levelWrites feature f level (positions.zip items)).map (fun entry => entry.2.2) = items.filter keep := by
    intro level keep agrees
    have same : (positions.zip items).filter (fun entry => decide (entry.1.1 = level)) =
        (positions.zip items).filter fun entry => keep entry.2 := by
      refine List.filter_congr fun entry member => ?_
      rw [Bool.eq_iff_iff, decide_eq_true_eq]
      exact agrees entry member
    have second : items = (positions.zip items).map Prod.snd := (List.map_snd_zip (Nat.le_of_eq length.symm)).symm
    rw [levelWrites, List.map_map, same]
    conv_rhs => rw [second, List.filter_map]
    rfl
  have levelEntry : ∀ level, ∀ entry ∈ levelWrites feature f level (positions.zip items),
      ∃ position, position.1 = level ∧ (position, entry.2.2) ∈ positions.zip items ∧ entry.1 = position.2 ∧
        entry.2.1 = hashTag feature (f entry.2.2) := by
    intro level entry member
    obtain ⟨⟨position, item⟩, filtered, rfl⟩ := List.mem_map.mp member
    rw [List.mem_filter, decide_eq_true_eq] at filtered
    exact ⟨position, filtered.2, filtered.1, rfl, rfl⟩
  refine ⟨_, fill_eq (by rw [positionsEq, List.drop_zero]) length fun position member => ?_,
    ⟨⟨levelWrites feature f 0 (positions.zip items), ?_⟩, ⟨levelWrites feature f 1 (positions.zip items), ?_⟩⟩⟩
  · obtain ⟨item, zipped⟩ := ofPosition position member
    obtain ⟨small, ⟨_, zero, _, below⟩ | ⟨_, one, _, below⟩⟩ := paired _ zipped
    · exact .inl ⟨zero, Option.isSome_iff_exists.mpr ⟨_, Slab.uninit_cell below small⟩⟩
    · exact .inr ⟨one, Option.isSome_iff_exists.mpr ⟨_, Slab.uninit_cell below small⟩⟩
  · refine ⟨Slab.writeAll_holds (levelNodup 0) fun entry member => ?_, levelItems 0 _ fun entry member => ?_,
      fun entry member => ?_⟩
    · obtain ⟨position, zero, zipped, same, _⟩ := levelEntry 0 entry member
      obtain ⟨small, ⟨_, _, _, below⟩ | ⟨_, one, _, _⟩⟩ := paired _ zipped
      · rw [same]
        exact ⟨below, small⟩
      · rw [zero] at one
        cases one
    · obtain ⟨_, ⟨clear, zero, _⟩ | ⟨set, one, _⟩⟩ := paired entry member
      · simp [clear, zero]
      · simp [set, one]
    · obtain ⟨position, zero, zipped, same, tag⟩ := levelEntry 0 entry member
      obtain ⟨_, ⟨_, _, bucketEq, _⟩ | ⟨_, one, _, _⟩⟩ := paired _ zipped
      · rw [same]
        exact ⟨bucketEq, tag⟩
      · rw [zero] at one
        cases one
  · refine ⟨Slab.writeAll_holds (levelNodup 1) fun entry member => ?_, levelItems 1 _ fun entry member => ?_,
      fun entry member => ?_⟩
    · obtain ⟨position, one, zipped, same, _⟩ := levelEntry 1 entry member
      obtain ⟨small, ⟨_, zero, _, _⟩ | ⟨_, _, _, below⟩⟩ := paired _ zipped
      · rw [one] at zero
        cases zero
      · rw [same]
        exact ⟨below, small⟩
    · obtain ⟨_, ⟨clear, zero, _⟩ | ⟨set, one, _⟩⟩ := paired entry member
      · simp [clear, zero]
      · simp [set, one]
    · obtain ⟨position, one, zipped, same, tag⟩ := levelEntry 1 entry member
      obtain ⟨_, ⟨_, zero, _, _⟩ | ⟨_, _, bucketEq, _⟩⟩ := paired _ zipped
      · rw [one] at zero
        cases zero
      · rw [same]
        exact ⟨bucketEq, tag⟩

/-- A lookup scans one bucket of the level that holds the key, if any does. -/
theorem find_iff {items : List α} {slabs : Slab α × Slab α} (nonempty : items ≠ [])
    (consistent : Consistent (items.map f) phf placements) (fills : FillsBoth feature items f phf slabs)
    {h : UInt64} {isQuery : α → Bool} (sameHash : ∀ item, isQuery item = true → f item = h)
    (unique : ∀ first ∈ items, ∀ second ∈ items, isQuery first = true → isQuery second = true →
      first = second) :
    ∃ answer, find feature phf slabs h isQuery = .ok answer ∧
      ∀ item, answer = some item ↔ item ∈ items ∧ isQuery item = true := by
  have within : ∀ keep : α → Bool, ∀ first ∈ items.filter keep, ∀ second ∈ items.filter keep,
      isQuery first = true → isQuery second = true → first = second := fun keep first inFirst second inSecond =>
    unique first (List.mem_of_mem_filter inFirst) second (List.mem_of_mem_filter inSecond)
  cases redirected : redirects phf h with
  | false =>
      obtain ⟨classified, below⟩ := consistent.stays (by simpa using nonempty) h redirected
      obtain ⟨written, level0⟩ := fills.level0
      obtain ⟨answer, found, iff⟩ := level0.find_iff below sameHash (within _)
      refine ⟨answer, by simpa [find, classified, bind, Except.bind] using found, fun item => ?_⟩
      rw [iff, List.mem_filter, and_assoc]
      refine and_congr_right fun _ => ⟨fun both => both.2, fun query => ⟨?_, query⟩⟩
      rw [sameHash item query, redirected]
      rfl
  | true =>
      obtain ⟨l1, exists1, classified, below⟩ := consistent.redirected h redirected
      have bucketEq : bucketLevel1 phf h = l1.bucket h := by simp only [bucketLevel1, exists1]
      obtain ⟨written, level1⟩ := fills.level1
      obtain ⟨answer, found, iff⟩ := level1.find_iff (bucketEq ▸ below) sameHash (within _)
      rw [bucketEq] at found
      refine ⟨answer, by simpa [find, classified, bind, Except.bind] using found, fun item => ?_⟩
      rw [iff, List.mem_filter, and_assoc]
      refine and_congr_right fun _ => ⟨fun both => both.2, fun query => ⟨?_, query⟩⟩
      rw [sameHash item query, redirected]

/-- Both levels together list every item once. -/
theorem FillsBoth.iter_perm {items : List α} {slabs : Slab α × Slab α}
    (fills : FillsBoth feature items f phf slabs) (nodup : (items.map f).Nodup) :
    ∃ listed, iterLevels slabs = .ok listed ∧ listed.Perm items := by
  have filtered : ∀ keep : α → Bool, ((items.filter keep).map f).Nodup := fun keep =>
    nodup.sublist (List.filter_sublist.map f)
  obtain ⟨_, level0⟩ := fills.level0
  obtain ⟨_, level1⟩ := fills.level1
  obtain ⟨listed0, iter0, perm0⟩ := level0.iter_perm (filtered _)
  obtain ⟨listed1, iter1, perm1⟩ := level1.iter_perm (filtered _)
  refine ⟨listed0 ++ listed1, by simp [iterLevels, iter0, iter1, bind, Except.bind, pure, Except.pure], ?_⟩
  have split := List.filter_append_perm (fun item => !redirects phf (f item)) items
  simp only [Bool.not_not] at split
  exact (perm0.append perm1).trans split

theorem FillsBoth.rows {items : List α} {slabs : Slab α × Slab α}
    (fills : FillsBoth feature items f phf slabs) :
    slabs.1.tags.length = phf.numBucketsLevel0 ∧ slabs.2.tags.length = phf.numBucketsLevel1 := by
  obtain ⟨_, level0⟩ := fills.level0
  obtain ⟨_, level1⟩ := fills.level1
  exact ⟨level0.holds.rows, level1.holds.rows⟩

/-- An empty slab holds nothing. -/
theorem fills_nil (bucket : UInt64 → Nat) : Fills feature ([] : List α) f bucket 0 ⟨[], []⟩ [] := by
  refine ⟨⟨rfl, ?_, ?_, ?_⟩, rfl, by simp⟩
  · intro bucket impossible
    exact absurd impossible (Nat.not_lt_zero _)
  · intro position tag item
    simp [Slab.cell]
  · intro position tag
    simp [Slab.cell]

theorem buildSlabs_fills {items : List α} {lambda0 lambda1 : Lambda} {slabs : Slab α × Slab α}
    (built : buildSlabs feature items f lambda0 lambda1 = .ok (phf, slabs)) :
    (items.map f).Nodup ∧ FillsBoth feature items f phf slabs ∧
      ∃ placements, Consistent (items.map f) phf placements := by
  by_cases empty : items = []
  · subst empty
    cases phfBuilt : MultilevelBucketedPhf.build [] lambda0 lambda1 with
    | error failure => simp [MultilevelBucketedPhf.build] at phfBuilt
    | ok result =>
        obtain ⟨function, placements⟩ := result
        obtain ⟨_, consistent⟩ := build_consistent phfBuilt
        simp only [buildSlabs, phfBuilt, List.length_nil, if_true, bind, Except.bind, pure, Except.pure,
          Except.ok.injEq, Prod.mk.injEq] at built
        obtain ⟨rfl, rfl⟩ := built
        simp only [MultilevelBucketedPhf.build, List.length_nil, if_true, Except.ok.injEq,
          Prod.mk.injEq] at phfBuilt
        obtain ⟨rfl, rfl⟩ := phfBuilt
        exact ⟨List.nodup_nil, ⟨⟨[], fills_nil _⟩, ⟨[], fills_nil _⟩⟩, _, consistent⟩
  · have some : items.length ≠ 0 := fun zero => empty (List.length_eq_zero_iff.mp zero)
    simp only [buildSlabs, if_neg some, bind, Except.bind] at built
    cases phfBuilt : MultilevelBucketedPhf.build (items.map f) lambda0 lambda1 with
    | error failure =>
        rw [phfBuilt] at built
        cases built
    | ok result =>
        obtain ⟨function, placements⟩ := result
        obtain ⟨nodup, consistent⟩ := build_consistent phfBuilt
        obtain ⟨filled, returned, fills⟩ := @fill_fills _ feature _ _ _ _ consistent
        rw [phfBuilt] at built
        simp only [returned, faulting, Except.mapError, pure, Except.pure, Except.ok.injEq, Prod.mk.injEq]
          at built
        obtain ⟨rfl, rfl⟩ := built
        exact ⟨nodup, fills, placements, consistent⟩

end Slabs

section Exact
variable {K V : Type} [DecidableEq K] {feature : ReducedHash} {hash : K → UInt64} {lambda0 lambda1 : Lambda}

theorem PerfectMapMultilevelBucketed.exact {entries : List (K × V)} {map : PerfectMapMultilevelBucketed K V}
    (built : PerfectMapMultilevelBucketed.fromEntries feature entries hash lambda0 lambda1 = .ok map) :
    ∃ listed, map.iter = .ok listed ∧ ExactMap entries (map.get feature) listed map.len := by
  cases slabsBuilt : buildSlabs feature entries (fun entry => hash entry.1) lambda0 lambda1 with
  | error failure => simp [PerfectMapMultilevelBucketed.fromEntries, slabsBuilt, bind, Except.bind] at built
  | ok result =>
      obtain ⟨phf, slabs⟩ := result
      obtain ⟨nodup, fills, placements, consistent⟩ := buildSlabs_fills slabsBuilt
      simp only [PerfectMapMultilevelBucketed.fromEntries, slabsBuilt, bind, Except.bind, pure, Except.pure,
        Except.ok.injEq] at built
      subst built
      obtain ⟨listed, iterated, same⟩ := fills.iter_perm nodup
      have answers : ∀ key, ∃ answer,
          PerfectMapMultilevelBucketed.get feature ⟨slabs, phf, hash, entries.length⟩ key = .ok answer ∧
          ∀ value, answer = some value ↔ (key, value) ∈ entries := by
        intro key
        by_cases empty : entries = []
        · exact ⟨none, by simp [PerfectMapMultilevelBucketed.get, empty], by simp [empty]⟩
        · have some : entries.length ≠ 0 := fun zero => empty (List.length_eq_zero_iff.mp zero)
          obtain ⟨answer, found, iff⟩ := find_iff empty consistent fills
            (fun entry query => congrArg hash (decide_eq_true_eq.mp query)) (@entry_unique _ _ _ _ _ nodup key)
          refine ⟨answer.map Prod.snd, ?_, value_iff iff⟩
          simp only [PerfectMapMultilevelBucketed.get, if_neg some, found, Except.map]
      exact ⟨listed, iterated, .of_answers (keys_nodup nodup) answers same rfl⟩

theorem PerfectSetMultilevelBucketed.exact {keys : List K} {set : PerfectSetMultilevelBucketed K}
    (built : PerfectSetMultilevelBucketed.fromKeys feature keys hash lambda0 lambda1 = .ok set) :
    ∃ listed, set.iter = .ok listed ∧
      ExactSet keys (set.contains feature) (set.get feature) listed set.len := by
  cases slabsBuilt : buildSlabs feature keys hash lambda0 lambda1 with
  | error failure => simp [PerfectSetMultilevelBucketed.fromKeys, slabsBuilt, bind, Except.bind] at built
  | ok result =>
      obtain ⟨phf, slabs⟩ := result
      obtain ⟨nodup, fills, placements, consistent⟩ := buildSlabs_fills slabsBuilt
      simp only [PerfectSetMultilevelBucketed.fromKeys, slabsBuilt, bind, Except.bind, pure, Except.pure,
        Except.ok.injEq] at built
      subst built
      obtain ⟨listed, iterated, same⟩ := fills.iter_perm nodup
      have answers : ∀ key, ∃ answer,
          PerfectSetMultilevelBucketed.get feature ⟨slabs, phf, hash, keys.length⟩ key = .ok answer ∧
          ∀ stored, answer = some stored ↔ stored = key ∧ key ∈ keys := by
        intro key
        by_cases empty : keys = []
        · exact ⟨none, by simp [PerfectSetMultilevelBucketed.get, empty], by simp [empty]⟩
        · have some : keys.length ≠ 0 := fun zero => empty (List.length_eq_zero_iff.mp zero)
          obtain ⟨answer, found, iff⟩ := @find_iff _ _ _ _ _ _ _ empty consistent fills (hash key)
            (fun stored => decide (stored = key))
            (fun stored query => congrArg hash (decide_eq_true_eq.mp query))
            (fun first _ second _ firstKey secondKey =>
              (decide_eq_true_eq.mp firstKey).trans (decide_eq_true_eq.mp secondKey).symm)
          exact ⟨answer, by simp only [PerfectSetMultilevelBucketed.get, if_neg some, found], stored_iff iff⟩
      exact ⟨listed, iterated, .of_answers (List.Nodup.of_map hash nodup) answers (fun _ => rfl) same rfl⟩

theorem PerfectMapMultilevelBucketed.rows {entries : List (K × V)} {map : PerfectMapMultilevelBucketed K V}
    (built : PerfectMapMultilevelBucketed.fromEntries feature entries hash lambda0 lambda1 = .ok map) :
    map.slabs.1.tags.length = map.phf.numBucketsLevel0 ∧
      map.slabs.2.tags.length = map.phf.numBucketsLevel1 := by
  cases slabsBuilt : buildSlabs feature entries (fun entry => hash entry.1) lambda0 lambda1 with
  | error failure => simp [PerfectMapMultilevelBucketed.fromEntries, slabsBuilt, bind, Except.bind] at built
  | ok result =>
      simp only [PerfectMapMultilevelBucketed.fromEntries, slabsBuilt, bind, Except.bind, pure, Except.pure,
        Except.ok.injEq] at built
      subst built
      exact (buildSlabs_fills slabsBuilt).2.1.rows

theorem PerfectSetMultilevelBucketed.rows {keys : List K} {set : PerfectSetMultilevelBucketed K}
    (built : PerfectSetMultilevelBucketed.fromKeys feature keys hash lambda0 lambda1 = .ok set) :
    set.slabs.1.tags.length = set.phf.numBucketsLevel0 ∧
      set.slabs.2.tags.length = set.phf.numBucketsLevel1 := by
  cases slabsBuilt : buildSlabs feature keys hash lambda0 lambda1 with
  | error failure => simp [PerfectSetMultilevelBucketed.fromKeys, slabsBuilt, bind, Except.bind] at built
  | ok result =>
      simp only [PerfectSetMultilevelBucketed.fromKeys, slabsBuilt, bind, Except.bind, pure, Except.pure,
        Except.ok.injEq] at built
      subst built
      exact (buildSlabs_fills slabsBuilt).2.1.rows

end Exact

/-- Build and query agree for every hash, member or not, the tag arrays are as
large as the hash function assumes, and the containers are exact. -/
theorem multilevel_tables_exact (feature : ReducedHash) (lambda0 lambda1 : Lambda) :
    (∀ hashes phf placements, MultilevelBucketedPhf.build hashes lambda0 lambda1 = .ok (phf, placements) →
      Consistent hashes phf placements) ∧
    (∀ {K V : Type} [DecidableEq K] (hash : K → UInt64) (entries : List (K × V)) map,
      PerfectMapMultilevelBucketed.fromEntries feature entries hash lambda0 lambda1 = .ok map →
      (map.slabs.1.tags.length = map.phf.numBucketsLevel0 ∧
        map.slabs.2.tags.length = map.phf.numBucketsLevel1) ∧
      ∃ listed, map.iter = .ok listed ∧ ExactMap entries (map.get feature) listed map.len) ∧
    (∀ {K : Type} [DecidableEq K] (hash : K → UInt64) (keys : List K) set,
      PerfectSetMultilevelBucketed.fromKeys feature keys hash lambda0 lambda1 = .ok set →
      (set.slabs.1.tags.length = set.phf.numBucketsLevel0 ∧
        set.slabs.2.tags.length = set.phf.numBucketsLevel1) ∧
      ∃ listed, set.iter = .ok listed ∧
        ExactSet keys (set.contains feature) (set.get feature) listed set.len) := by
  refine ⟨fun hashes phf placements built => (build_consistent built).2, fun hash entries map built =>
    ⟨PerfectMapMultilevelBucketed.rows built, PerfectMapMultilevelBucketed.exact built⟩,
    fun hash keys set built =>
    ⟨PerfectSetMultilevelBucketed.rows built, PerfectSetMultilevelBucketed.exact built⟩⟩

/-- Seventeen keys in one level-0 bucket all go to level 1. -/
theorem multilevel_seventeen_exact :
    ∃ map, PerfectMapMultilevelBucketed.fromEntries .asm
        ((List.range 17).map fun n => (UInt64.ofNat n, n)) id ⟨fun _ => 1⟩ ⟨fun _ => 4⟩ = .ok map ∧
      map.phf.level1.isSome = true ∧
      (map.get .asm 5 = .ok (some 5) ↔ (5, 5) ∈ (List.range 17).map fun n => (UInt64.ofNat n, n)) := by
  have built : ((PerfectMapMultilevelBucketed.fromEntries .asm
      ((List.range 17).map fun n => (UInt64.ofNat n, n)) id ⟨fun _ => 1⟩ ⟨fun _ => 4⟩).toOption.map
        fun map => map.phf.level1.isSome) = some true := by
    decide +kernel
  cases returned : PerfectMapMultilevelBucketed.fromEntries .asm
      ((List.range 17).map fun n => (UInt64.ofNat n, n)) id ⟨fun _ => 1⟩ ⟨fun _ => 4⟩ with
  | error failure =>
      rw [returned] at built
      cases built
  | ok map =>
      obtain ⟨_, _, _, exact⟩ :=
        (multilevel_tables_exact .asm ⟨fun _ => 1⟩ ⟨fun _ => 4⟩).2.1 id _ map returned
      rw [returned] at built
      exact ⟨map, rfl, Option.some.inj built, exact.get_iff 5 5⟩

end Optimap.Perfect.Multilevel
