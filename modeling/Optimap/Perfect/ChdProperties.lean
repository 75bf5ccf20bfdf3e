import Optimap.Perfect.Chd

/-!
# The CHD construction is perfect

Every bucket that was placed keeps its slots apart from those of the buckets
before it, and the query reads the displacement that placed the bucket.
-/

set_option autoImplicit false
set_option linter.unusedSectionVars false

namespace Optimap.Perfect.Chd

open Lib

theorem bitsetTest_eq (bits : List UInt64) (i : Nat) : bitsetTest bits i = Bitset.test bits i := by
  rw [bitsetTest, Bitset.test, Bitset.bit, Nat.shiftRight_eq_div_pow,
    show (63 : Nat) = 2 ^ 6 - 1 from rfl, Nat.and_two_pow_sub_one_eq_mod]

theorem bitsetSet_eq (bits : List UInt64) (i : Nat) : bitsetSet bits i = Bitset.set bits i := by
  rw [bitsetSet, Bitset.set, Bitset.bit, Nat.shiftRight_eq_div_pow,
    show (63 : Nat) = 2 ^ 6 - 1 from rfl, Nat.and_two_pow_sub_one_eq_mod]

theorem slotOf_lt {m : UInt64} (positive : 0 < m.toNat) (h seed : UInt64) (d : UInt32) :
    slotOf h seed d m < m.toNat := by
  rw [slotOf, UInt64.toNat_mod]
  exact Nat.mod_lt _ positive

theorem foldl_bitsetSet {slots : List Nat} {bits : List UInt64} (inside : ∀ s ∈ slots, s / 64 < bits.length) :
    (slots.foldl bitsetSet bits).length = bits.length ∧
      ∀ i, Bitset.test (slots.foldl bitsetSet bits) i = true ↔ i ∈ slots ∨ Bitset.test bits i = true := by
  induction slots generalizing bits with
  | nil => simp
  | cons slot slots ih =>
      have length : (bitsetSet bits slot).length = bits.length := by
        rw [bitsetSet_eq, Bitset.set_length]
      have tailInside : ∀ s ∈ slots, s / 64 < (bitsetSet bits slot).length := by
        intro s member
        rw [length]
        exact inside s (List.mem_cons_of_mem _ member)
      obtain ⟨sameLength, tests⟩ := ih tailInside
      refine ⟨sameLength.trans length, fun i => ?_⟩
      rw [List.foldl_cons, tests, bitsetSet_eq, Bitset.test_set (inside slot List.mem_cons_self),
        List.mem_cons]
      tauto

section Search
variable {hashes occupied : List UInt64} {seed m : UInt64} {keys : List Nat}

/-- The slot of key `ki` under displacement `d`. -/
def slotAt (hashes : List UInt64) (seed m : UInt64) (d : UInt32) (ki : Nat) : Nat :=
  slotOf (hashes.getD ki 0) seed d m

/-- An accepted pass met distinct slots, all of them free. -/
theorem tentativeSlots_some {d : UInt32} {tentative slots : List Nat}
    (accepted : tentativeSlots occupied hashes seed d m keys tentative = some slots)
    (nodup : tentative.Nodup) :
    slots = tentative ++ keys.map (slotAt hashes seed m d) ∧ slots.Nodup ∧
      ∀ ki ∈ keys, Bitset.test occupied (slotAt hashes seed m d ki) = false := by
  induction keys generalizing tentative with
  | nil =>
      cases accepted
      exact ⟨by simp, nodup, by simp⟩
  | cons ki keys ih =>
      simp only [tentativeSlots] at accepted
      split at accepted
      · cases accepted
      · rename_i free
        simp only [Bool.or_eq_true, List.contains_iff_mem, not_or, Bool.not_eq_true] at free
        obtain ⟨unoccupied, fresh⟩ := free
        have extended : (tentative ++ [slotOf (hashes.getD ki 0) seed d m]).Nodup := by
          rw [List.nodup_append]
          refine ⟨nodup, List.nodup_singleton _, ?_⟩
          intro slot member other single same
          rw [List.mem_singleton] at single
          exact fresh (single ▸ same ▸ member)
        obtain ⟨same, slotsNodup, others⟩ := ih accepted extended
        refine ⟨by simp [same, slotAt], slotsNodup, fun other member => ?_⟩
        rcases List.mem_cons.mp member with rfl | later
        · rw [← bitsetTest_eq]
          exact unoccupied
        · exact others other later

theorem searchDisplacement_some {tries : Nat} {start d : UInt32} {slots : List Nat}
    (found : searchDisplacement occupied hashes seed m keys tries start = some (d, slots)) :
    tentativeSlots occupied hashes seed d m keys [] = some slots := by
  induction tries generalizing start with
  | zero => cases found
  | succ tries ih =>
      simp only [searchDisplacement] at found
      split at found
      · rename_i accepted
        cases found
        exact accepted
      · exact ih found

end Search

section Buckets
variable {hashes : List UInt64} {seed : UInt64} {m r : Nat} {buckets : Buckets}

/-- Displacement read for a bucket. -/
def Search.at (search : Search) (b : Nat) : UInt32 := search.displacements.getD b 0

/-- The buckets of `done` hold distinct slots, all marked. -/
structure Placed (hashes : List UInt64) (seed : UInt64) (m r : Nat) (buckets : Buckets)
    (done : List Nat) (search : Search) : Prop where
  words : search.occupied.length = (m + 63) / 64
  length : search.displacements.length = r
  marked : ∀ b ∈ done, ∀ ki ∈ buckets.keysIn b,
    Bitset.test search.occupied (slotAt hashes seed (UInt64.ofNat m) (search.at b) ki) = true
  distinct : ∀ b ∈ done, ∀ b' ∈ done, ∀ ki ∈ buckets.keysIn b, ∀ ki' ∈ buckets.keysIn b',
    slotAt hashes seed (UInt64.ofNat m) (search.at b) ki =
      slotAt hashes seed (UInt64.ofNat m) (search.at b') ki' → b = b' ∧ ki = ki'

theorem ofNat_toNat {n : Nat} (bound : n ≤ u32Max) : (UInt64.ofNat n).toNat = n := by
  rw [UInt64.toNat_ofNat']
  exact Nat.mod_eq_of_lt (lt_of_le_of_lt bound (by decide))

/-- A bucket without keys changes nothing. -/
theorem Placed.skip {done : List Nat} {search : Search} {b : Nat}
    (placed : Placed hashes seed m r buckets done search) (none : buckets.keysIn b = []) :
    Placed hashes seed m r buckets (b :: done) search where
  words := placed.words
  length := placed.length
  marked := by
    intro other member ki inside
    rcases List.mem_cons.mp member with rfl | earlier
    · rw [none] at inside
      cases inside
    · exact placed.marked other earlier ki inside
  distinct := by
    intro first firstMember second secondMember ki inside ki' inside'
    rcases List.mem_cons.mp firstMember with rfl | firstEarlier
    · rw [none] at inside
      cases inside
    · rcases List.mem_cons.mp secondMember with rfl | secondEarlier
      · rw [none] at inside'
        cases inside'
      · exact placed.distinct first firstEarlier second secondEarlier ki inside ki' inside'

theorem Placed.accept {done : List Nat} {search : Search} {b : Nat} {d : UInt32} {slots : List Nat}
    (placed : Placed hashes seed m r buckets done search) (positive : 0 < m) (bound : m ≤ u32Max)
    (fresh : b ∉ done) (inside : b < r)
    (accepted : tentativeSlots search.occupied hashes seed d (UInt64.ofNat m) (buckets.keysIn b) [] =
      some slots) :
    Placed hashes seed m r buckets (b :: done)
      { occupied := slots.foldl bitsetSet search.occupied
        displacements := search.displacements.set b d } := by
  obtain ⟨slotsEq, slotsNodup, free⟩ := tentativeSlots_some accepted List.nodup_nil
  rw [List.nil_append] at slotsEq
  have below : ∀ slot ∈ slots, slot / 64 < search.occupied.length := by
    intro slot member
    rw [slotsEq] at member
    obtain ⟨ki, _, rfl⟩ := List.mem_map.mp member
    have small := slotOf_lt (m := UInt64.ofNat m) (by rw [ofNat_toNat bound]; exact positive)
      (hashes.getD ki 0) seed d
    rw [ofNat_toNat bound] at small
    rw [placed.words, slotAt]
    omega
  obtain ⟨words, marks⟩ := foldl_bitsetSet below
  have own : ({ occupied := slots.foldl bitsetSet search.occupied
                displacements := search.displacements.set b d } : Search).at b = d := by
    simp [Search.at, placed.length, inside]
  have others : ∀ other ∈ done,
      ({ occupied := slots.foldl bitsetSet search.occupied
         displacements := search.displacements.set b d } : Search).at other = search.at other := by
    intro other member
    have different : b ≠ other := fun same => fresh (same ▸ member)
    simp [Search.at, List.getD_eq_getElem?_getD, List.getElem?_set_ne different]
  -- A key of the new bucket is on a free slot, one of an earlier bucket on a marked one.
  have apart : ∀ other ∈ done, ∀ ki ∈ buckets.keysIn b, ∀ ki' ∈ buckets.keysIn other,
      slotAt hashes seed (UInt64.ofNat m) d ki ≠
        slotAt hashes seed (UInt64.ofNat m) (search.at other) ki' := by
    intro other member ki inBucket ki' inOther same
    have unmarked := free ki inBucket
    rw [same, placed.marked other member ki' inOther] at unmarked
    cases unmarked
  refine ⟨words.trans placed.words, by rw [List.length_set]; exact placed.length, ?_, ?_⟩
  · intro other member ki inBucket
    rw [marks]
    rcases List.mem_cons.mp member with rfl | earlier
    · rw [own, slotsEq]
      exact .inl (List.mem_map_of_mem inBucket)
    · rw [others other earlier]
      exact .inr (placed.marked other earlier ki inBucket)
  · intro first firstMember second secondMember ki inFirst ki' inSecond same
    rcases List.mem_cons.mp firstMember with rfl | firstEarlier
    · rcases List.mem_cons.mp secondMember with rfl | secondEarlier
      · rw [own] at same
        rw [slotsEq] at slotsNodup
        exact ⟨rfl, List.inj_on_of_nodup_map slotsNodup inFirst inSecond same⟩
      · rw [own, others second secondEarlier] at same
        exact absurd same (apart second secondEarlier ki inFirst ki' inSecond)
    · rcases List.mem_cons.mp secondMember with rfl | secondEarlier
      · rw [own, others first firstEarlier] at same
        exact absurd same.symm (apart first firstEarlier ki' inSecond ki inFirst)
      · rw [others first firstEarlier, others second secondEarlier] at same
        exact placed.distinct first firstEarlier second secondEarlier ki inFirst ki' inSecond same

theorem placeBuckets_placed {order done : List Nat} {search final : Search}
    (empty : ∀ b ∈ order, buckets.sizes.getD b 0 = 0 → buckets.keysIn b = [])
    (positive : 0 < m) (bound : m ≤ u32Max) (nodup : (order ++ done).Nodup) (below : ∀ b ∈ order, b < r)
    (placed : Placed hashes seed m r buckets done search)
    (returned : placeBuckets hashes seed (UInt64.ofNat m) buckets order search = .ok final) :
    ∃ finished, (∀ b, b ∈ finished ↔ b ∈ order ∨ b ∈ done) ∧
      Placed hashes seed m r buckets finished final := by
  induction order generalizing done search with
  | nil =>
      cases returned
      exact ⟨done, by simp, placed⟩
  | cons b order ih =>
      have fresh : b ∉ done := fun member =>
        (List.nodup_cons.mp nodup).1 (List.mem_append_right _ member)
      have moved : (order ++ b :: done).Nodup := (List.perm_middle.nodup_iff).mpr nodup
      have tailEmpty := fun other member => empty other (List.mem_cons_of_mem b member)
      have tailBelow := fun other member => below other (List.mem_cons_of_mem b member)
      have reorder : ∀ finished : List Nat, (∀ other, other ∈ finished ↔ other ∈ order ∨ other ∈ b :: done) →
          ∀ other, other ∈ finished ↔ other ∈ b :: order ∨ other ∈ done := by
        intro finished members other
        rw [members, List.mem_cons, List.mem_cons]
        tauto
      simp only [placeBuckets] at returned
      split at returned
      · rename_i noKeys
        obtain ⟨finished, members, done⟩ :=
          ih tailEmpty moved tailBelow (placed.skip (empty b List.mem_cons_self noKeys)) returned
        exact ⟨finished, reorder finished members, done⟩
      · split at returned
        · cases returned
        · rename_i found
          have accepted := placed.accept positive bound fresh (below b List.mem_cons_self)
            (searchDisplacement_some found)
          obtain ⟨finished, members, done⟩ := ih tailEmpty moved tailBelow accepted returned
          exact ⟨finished, reorder finished members, done⟩

end Buckets

section Attempts
variable {sorter : UnstableSort} {hashes : List UInt64} {m r : Nat}

/-- What an attempt hands out: one displacement per bucket, under which the
hashes keep distinct slots. -/
structure Separates (hashes : List UInt64) (m r : Nat) (seed : UInt64) (displacements : List UInt32) :
    Prop where
  length : displacements.length = r
  apart : ∀ i j, i < hashes.length → j < hashes.length →
    slotOf (hashes.getD i 0) seed
        (displacements.getD (bucketOf (hashes.getD i 0) seed (UInt64.ofNat r)) 0) (UInt64.ofNat m) =
      slotOf (hashes.getD j 0) seed
        (displacements.getD (bucketOf (hashes.getD j 0) seed (UInt64.ofNat r)) 0) (UInt64.ofNat m) →
    i = j

theorem tryBuildSeed_separates {seed : UInt64} {displacements : List UInt32} (positive : 0 < m)
    (bound : m ≤ u32Max) (someBucket : 0 < r) (fewBuckets : r ≤ u32Max)
    (returned : tryBuildSeed sorter hashes m r seed = .ok displacements) :
    Separates hashes m r seed displacements := by
  obtain ⟨labels, labelsEq⟩ :
      ∃ labels, labels = hashes.map fun h => bucketOf h seed (UInt64.ofNat r) := ⟨_, rfl⟩
  have below : ∀ label ∈ labels, label < r := by
    intro label member
    rw [labelsEq] at member
    obtain ⟨h, _, rfl⟩ := List.mem_map.mp member
    exact bucketOf_ofNat_lt someBucket fewBuckets h seed
  have bucketsEq : assignBuckets hashes r seed =
      ⟨CountingSort.tally r labels, CountingSort.offsets (CountingSort.tally r labels),
        CountingSort.grouped r labels⟩ := by
    rw [labelsEq]
    rfl
  have start : Placed hashes seed m r (assignBuckets hashes r seed) []
      ⟨List.replicate ((m + 63) / 64) 0, List.replicate r 0⟩ :=
    ⟨List.length_replicate, List.length_replicate, by simp, by simp⟩
  have order := sorter.perm (fun b => (assignBuckets hashes r seed).sizes.getD b 0) (List.range r)
  simp only [tryBuildSeed, bind, Except.bind] at returned
  split at returned
  · cases returned
  · rename_i search searched
    cases returned
    have outcome := placeBuckets_placed ?_ positive bound ?_ ?_ start searched
    · -- Every key stands in the range of its bucket, and every bucket was placed.
      obtain ⟨finished, members, placed⟩ := outcome
      have own : ∀ i < hashes.length, i ∈ (assignBuckets hashes r seed).keysIn
          (bucketOf (hashes.getD i 0) seed (UInt64.ofNat r)) := by
        intro i inside
        rw [bucketsEq]
        refine CountingSort.mem_slice_grouped below ?_
        rw [labelsEq, List.getElem?_map, List.getElem?_eq_getElem inside, List.getD_eq_getElem?_getD,
          List.getElem?_eq_getElem inside]
        rfl
      have done : ∀ i, bucketOf (hashes.getD i 0) seed (UInt64.ofNat r) ∈ finished := by
        intro i
        rw [members, order.mem_iff, List.mem_range]
        exact .inl (bucketOf_ofNat_lt someBucket fewBuckets _ seed)
      refine ⟨placed.length, fun i j iInside jInside same => ?_⟩
      exact (placed.distinct _ (done i) _ (done j) i (own i iInside) j (own j jInside) same).2
    · intro b member noKeys
      rw [order.mem_iff, List.mem_range] at member
      rw [bucketsEq] at noKeys ⊢
      simp only [List.getD_eq_getElem?_getD, CountingSort.tally_getElem member, Option.getD_some] at noKeys
      exact CountingSort.slice_eq_nil member noKeys
    · rw [List.append_nil, order.nodup_iff]
      exact List.nodup_range
    · intro b member
      rwa [order.mem_iff, List.mem_range] at member

theorem placeBuckets_error {order : List Nat} {seed m : UInt64} {buckets : Buckets} {search : Search}
    {error : BuildError} (returned : placeBuckets hashes seed m buckets order search = .error error) :
    error = .exhausted := by
  induction order generalizing search with
  | nil => cases returned
  | cons b order ih =>
      simp only [placeBuckets] at returned
      split at returned
      · exact ih returned
      · split at returned
        · cases returned
          rfl
        · exact ih returned

/-- An attempt only ever runs out of displacements. -/
theorem tryBuildSeed_error {seed : UInt64} {error : BuildError}
    (returned : tryBuildSeed sorter hashes m r seed = .error error) : error = .exhausted := by
  simp only [tryBuildSeed, bind, Except.bind] at returned
  split at returned
  · rename_i failed
    cases returned
    exact placeBuckets_error failed
  · cases returned

theorem trySeeds_ok {seedTries : List Nat} {phf : ChdPhf}
    (returned : trySeeds sorter hashes m r seedTries = .ok phf) :
    phf.m = UInt32.ofNat m ∧ tryBuildSeed sorter hashes m r phf.seed = .ok phf.displacements := by
  induction seedTries with
  | nil => cases returned
  | cons seedTry seedTries ih =>
      simp only [trySeeds] at returned
      split at returned
      · rename_i attempt
        cases returned
        exact ⟨rfl, attempt⟩
      · cases returned
      · exact ih returned

theorem trySeeds_error {seedTries : List Nat} {failure : Failure}
    (returned : trySeeds sorter hashes m r seedTries = .error failure) :
    failure = .build .exhausted := by
  induction seedTries with
  | nil =>
      cases returned
      rfl
  | cons seedTry seedTries ih =>
      simp only [trySeeds] at returned
      split at returned
      · cases returned
      · rename_i attempt
        cases tryBuildSeed_error attempt
      · exact ih returned

end Attempts

section Build
variable {sorter : UnstableSort} {hashes : List UInt64} {m : Nat} {phf : ChdPhf}

/-- The query of a separating table reads the slot the build gave out. -/
theorem index_eq {r : Nat} (separates : Separates hashes m r phf.seed phf.displacements)
    (sameM : phf.m = UInt32.ofNat m) (positive : 0 < m) (bound : m ≤ u32Max) (someBucket : 0 < r)
    (fewBuckets : r ≤ u32Max) (hash : UInt64) :
    phf.index hash = .ok (slotOf hash phf.seed
      (phf.displacements.getD (bucketOf hash phf.seed (UInt64.ofNat r)) 0) (UInt64.ofNat m)) := by
  have mNat : phf.m.toNat = m := by
    rw [sameM, UInt32.toNat_ofNat']
    exact Nat.mod_eq_of_lt (lt_of_le_of_lt bound (by decide))
  have mNonzero : phf.m ≠ 0 := by
    intro zero
    rw [zero] at mNat
    exact absurd mNat (Nat.ne_of_lt positive)
  have wide : phf.m.toUInt64 = UInt64.ofNat m := by
    apply UInt64.toNat_inj.mp
    rw [UInt32.toNat_toUInt64, mNat, ofNat_toNat bound]
  have rNonzero : UInt64.ofNat r ≠ 0 := by
    intro zero
    have same := ofNat_toNat fewBuckets
    rw [zero] at same
    exact absurd same (Nat.ne_of_lt someBucket)
  have inside : bucketOf hash phf.seed (UInt64.ofNat r) < phf.displacements.length := by
    rw [separates.length]
    exact bucketOf_ofNat_lt someBucket fewBuckets hash phf.seed
  rw [ChdPhf.index, if_neg mNonzero, separates.length]
  simp only [if_neg rNonzero, List.getElem?_eq_getElem inside, List.getD_eq_getElem?_getD,
    Option.getD_some, wide]

/-- Without hashes there are no buckets to choose from. -/
theorem build_nil_index (built : ChdPhf.build sorter [] m = .ok phf) (positive : 0 < m) (hash : UInt64) :
    phf.index hash = .error .remainderByZero := by
  have small : ¬ u32Max < m := by
    intro large
    simp [ChdPhf.build, large] at built
  have same : phf = { seed := 0, displacements := [], m := UInt32.ofNat m } := by
    simpa [ChdPhf.build, small, eq_comm] using built
  have slots : UInt32.ofNat m ≠ 0 := by
    intro zero
    have value := congrArg UInt32.toNat zero
    rw [UInt32.toNat_ofNat', Nat.mod_eq_of_lt (lt_of_le_of_lt (Nat.le_of_not_lt small) (by decide))] at value
    exact Nat.ne_of_gt positive value
  subst same
  simp [ChdPhf.index, slots]

/-- A built function over some hashes gives every hash a slot of the table, and
the input hashes distinct ones. -/
theorem build_spec (built : ChdPhf.build sorter hashes m = .ok phf) (nonempty : hashes ≠ []) :
    hashes.length ≤ m ∧ hashes.Nodup ∧
      ∃ slot : UInt64 → Nat, (∀ hash, phf.index hash = .ok (slot hash)) ∧ (∀ hash, slot hash < m) ∧
        Set.InjOn slot {hash | hash ∈ hashes} := by
  have someHash : 0 < hashes.length := List.length_pos_iff.mpr nonempty
  simp only [ChdPhf.build] at built
  split at built
  · cases built
  · rename_i large
    split at built
    · cases built
    · rename_i small
      rw [if_neg (Nat.ne_of_gt someHash)] at built
      split at built
      · cases built
      · rename_i noDuplicate
        rw [hasDuplicate_iff, not_not] at noDuplicate
        obtain ⟨sameM, attempt⟩ := trySeeds_ok built
        have positive : 0 < m := by omega
        have bound : m ≤ u32Max := by omega
        have someBucket : 0 < max ((hashes.length + DEFAULT_LAMBDA - 1) / DEFAULT_LAMBDA) 1 := by omega
        have fewBuckets : max ((hashes.length + DEFAULT_LAMBDA - 1) / DEFAULT_LAMBDA) 1 ≤ u32Max := by
          have shrinks : (hashes.length + DEFAULT_LAMBDA - 1) / DEFAULT_LAMBDA ≤ hashes.length := by
            unfold DEFAULT_LAMBDA
            omega
          have one : 1 ≤ u32Max := by decide
          omega
        have separates := tryBuildSeed_separates positive bound someBucket fewBuckets attempt
        refine ⟨by omega, noDuplicate, _, index_eq separates sameM positive bound someBucket fewBuckets,
          ?_, ?_⟩
        · intro hash
          have below := slotOf_lt (m := UInt64.ofNat m) (by rw [ofNat_toNat bound]; exact positive)
          rw [ofNat_toNat bound] at below
          exact below _ _ _
        · intro first firstMember second secondMember same
          obtain ⟨i, iInside, rfl⟩ := List.getElem_of_mem firstMember
          obtain ⟨j, jInside, rfl⟩ := List.getElem_of_mem secondMember
          have read : ∀ k (inside : k < hashes.length), hashes.getD k 0 = hashes[k] := by
            intro k inside
            rw [List.getD_eq_getElem?_getD, List.getElem?_eq_getElem inside, Option.getD_some]
          have equal := separates.apart i j iInside jInside (by rw [read i iInside, read j jInside]; exact same)
          subst equal
          rfl

/-- An injection of `n` hashes into `n` slots fills them all. -/
theorem bijOn_of_full {slot : UInt64 → Nat} (nodup : hashes.Nodup)
    (injective : Set.InjOn slot {hash | hash ∈ hashes}) (below : ∀ hash ∈ hashes, slot hash < hashes.length) :
    Set.BijOn slot {hash | hash ∈ hashes} (Set.Iio hashes.length) := by
  have filled : (hashes.map slot).toFinset = Finset.range hashes.length := by
    apply Finset.eq_of_subset_of_card_le
    · intro s member
      simp only [List.mem_toFinset, List.mem_map] at member
      obtain ⟨hash, inside, rfl⟩ := member
      exact Finset.mem_range.mpr (below hash inside)
    · have unique : (hashes.map slot).Nodup := nodup.map_on fun first inside second inside' same =>
        injective inside inside' same
      rw [Finset.card_range, List.toFinset_card_of_nodup unique, List.length_map]
  refine ⟨fun hash inside => below hash inside, injective, fun s bound => ?_⟩
  have member : s ∈ (hashes.map slot).toFinset := by
    rw [filled]
    exact Finset.mem_range.mpr bound
  simp only [List.mem_toFinset, List.mem_map] at member
  obtain ⟨hash, inside, same⟩ := member
  exact ⟨hash, inside, same⟩

theorem build_duplicate_iff (large : hashes.length ≤ m) (small : m ≤ u32Max) (nonempty : hashes ≠ []) :
    ChdPhf.build sorter hashes m = .error (.build .duplicateHash) ↔ ¬ hashes.Nodup := by
  have someHash : 0 < hashes.length := List.length_pos_iff.mpr nonempty
  simp only [ChdPhf.build]
  rw [if_neg (by omega), if_neg (by omega), if_neg (Nat.ne_of_gt someHash), ← hasDuplicate_iff]
  cases duplicate : hasDuplicate hashes with
  | true => simp
  | false =>
      simp only [Bool.false_eq_true, if_false, iff_false]
      intro failed
      cases trySeeds_error failed

/-- A construction that succeeds is injective on the input hashes, and it reports
duplicates exactly when there are some. -/
theorem chd_build_correct (sorter : UnstableSort) (hashes : List UInt64) (m : Nat)
    (large : hashes.length ≤ m) (small : m ≤ u32Max) :
    (∀ phf, ChdPhf.build sorter hashes m = .ok phf →
      ∃ slot : UInt64 → Nat, (∀ hash ∈ hashes, phf.index hash = .ok (slot hash) ∧ slot hash < m) ∧
        Set.InjOn slot {hash | hash ∈ hashes} ∧
        (m = hashes.length → Set.BijOn slot {hash | hash ∈ hashes} (Set.Iio hashes.length))) ∧
    (hashes ≠ [] →
      (ChdPhf.build sorter hashes m = .error (.build .duplicateHash) ↔ ¬ hashes.Nodup)) := by
  refine ⟨fun phf built => ?_, build_duplicate_iff large small⟩
  by_cases nonempty : hashes = []
  · subst nonempty
    refine ⟨fun _ => 0, by simp, by simp [Set.InjOn], fun _ => ?_⟩
    exact ⟨by simp [Set.MapsTo], by simp [Set.InjOn], by simp [Set.SurjOn]⟩
  · obtain ⟨_, nodup, slot, index, below, injective⟩ := build_spec built nonempty
    refine ⟨slot, fun hash _ => ⟨index hash, below hash⟩, injective, fun minimal => ?_⟩
    exact bijOn_of_full nodup injective fun hash _ => minimal ▸ below hash

/-- Three keys in three slots: the fifth displacement fits. -/
theorem chd_build_three_correct :
    ChdPhf.build insertionSorter [1, 2, 3] 3 = .ok ⟨SEED_BASE, [4], 3⟩ ∧
      ∃ slot : UInt64 → Nat, Set.BijOn slot {hash | hash ∈ [1, 2, 3]} (Set.Iio 3) := by
  have built : ChdPhf.build insertionSorter [1, 2, 3] 3 = .ok ⟨SEED_BASE, [4], 3⟩ := by decide +kernel
  obtain ⟨slot, _, _, minimal⟩ :=
    (chd_build_correct insertionSorter [1, 2, 3] 3 (by decide) (by decide)).1 _ built
  exact ⟨built, slot, minimal rfl⟩

end Build

/-- `index` answers every hash with a slot of the table unless the function was
built over no hashes: the early return of the construction then leaves no
displacement to choose from. -/
theorem chd_index_in_range_iff (sorter : UnstableSort) {hashes : List UInt64} {m : Nat} {phf : ChdPhf}
    (built : ChdPhf.build sorter hashes m = .ok phf) (positive : 0 < m) :
    (∀ hash, ∃ slot, phf.index hash = .ok slot ∧ slot < m) ↔ hashes ≠ [] := by
  constructor
  · intro total empty
    subst empty
    obtain ⟨slot, returned, _⟩ := total 0
    rw [build_nil_index built positive] at returned
    cases returned
  · intro nonempty hash
    obtain ⟨_, _, slot, returns, below, _⟩ := build_spec built nonempty
    exact ⟨slot hash, returns hash, below hash⟩

/-- A function over no hashes and one slot divides by its bucket count of zero. -/
theorem chd_empty_index_fails :
    ∃ phf, ChdPhf.build insertionSorter [] 1 = .ok phf ∧ phf.index 7 = .error .remainderByZero :=
  ⟨_, rfl, rfl⟩

/-- Three hashes: a stranger gets a slot as well. -/
theorem chd_index_three_in_range :
    ∃ slot, ChdPhf.index ⟨SEED_BASE, [4], 3⟩ 99 = .ok slot ∧ slot < 3 := by
  have built : ChdPhf.build insertionSorter [1, 2, 3] 3 = .ok ⟨SEED_BASE, [4], 3⟩ := by decide +kernel
  exact (chd_index_in_range_iff insertionSorter built (by decide)).mpr (by simp) 99

end Optimap.Perfect.Chd
