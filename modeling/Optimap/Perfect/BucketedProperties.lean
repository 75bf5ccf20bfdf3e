import Optimap.Perfect.Bucketed

/-!
# Bucketed lookups are exact

The slot of a key is the number of earlier keys of its bucket, whatever the
failed seeds left in the placement arrays.
-/

set_option autoImplicit false
set_option linter.unusedSectionVars false

namespace Optimap.Perfect.Bucketed

open Lib Hash

section Attempts
variable {hashes : List UInt64} {seed r : UInt64} {labels : List Nat} {buckets : Nat}

/-- What an attempt has placed before key `i`. -/
structure Placing (buckets : Nat) (labels : List Nat) (i : Nat) (state : Attempt) : Prop where
  sizes : ∀ b < buckets, state.bucketSize[b]? = some ((labels.take i).count b)
  bucketLength : state.placements.bucket.length = labels.length
  slotLength : state.placements.slot.length = labels.length
  placed : ∀ j < i, ∀ b, labels[j]? = some b → state.placements.bucket[j]? = some b ∧
    state.placements.slot[j]? = some ((labels.take j).count b) ∧ (labels.take j).count b < SLOTS_PER_BUCKET

/-- Each key is recorded with its bucket and the number of earlier keys there. -/
structure Recorded (labels : List Nat) (placements : Placements) : Prop where
  bucket_eq : placements.bucket = labels
  slotLength : placements.slot.length = labels.length
  slot : ∀ j b, labels[j]? = some b →
    placements.slot[j]? = some ((labels.take j).count b) ∧ (labels.take j).count b < SLOTS_PER_BUCKET

theorem Placing.put {state : Attempt} {i b : Nat} (placing : Placing buckets labels i state)
    (found : labels[i]? = some b) (inside : b < buckets)
    (room : ¬ SLOTS_PER_BUCKET ≤ state.bucketSize.getD b 0) :
    Placing buckets labels (i + 1)
      { placements := { bucket := state.placements.bucket.set i b
                        slot := state.placements.slot.set i (state.bucketSize.getD b 0) }
        bucketSize := state.bucketSize.set b (state.bucketSize.getD b 0 + 1) } := by
  have bound := (List.getElem?_eq_some_iff.mp found).1
  have size : state.bucketSize.getD b 0 = (labels.take i).count b := by
    rw [List.getD_eq_getElem?_getD, placing.sizes b inside, Option.getD_some]
  rw [size] at room ⊢
  refine ⟨fun other otherInside => ?_, ?_, ?_, fun j below other foundOther => ?_⟩
  · have taken : labels.take (i + 1) = labels.take i ++ [b] := by
      rw [List.take_add_one, found]
      rfl
    rw [taken, List.count_append, List.getElem?_set]
    by_cases same : b = other
    · subst same
      have sizeBound := (List.getElem?_eq_some_iff.mp (placing.sizes b inside)).1
      simp [sizeBound]
    · rw [if_neg same, placing.sizes other otherInside]
      simp [same]
  · rw [List.length_set]
    exact placing.bucketLength
  · rw [List.length_set]
    exact placing.slotLength
  · rcases Nat.lt_succ_iff_lt_or_eq.mp below with earlier | rfl
    · obtain ⟨bucketFound, slotFound, small⟩ := placing.placed j earlier other foundOther
      have apart : i ≠ j := Nat.ne_of_gt earlier
      simp only [List.getElem?_set_ne apart]
      exact ⟨bucketFound, slotFound, small⟩
    · obtain rfl : b = other := Option.some.inj (found.symm.trans foundOther)
      refine ⟨?_, ?_, by omega⟩
      · simp [placing.bucketLength, bound]
      · simp [placing.slotLength, bound]

theorem attempt_recorded {rest : List UInt64} {i : Nat} {state : Attempt} {placements : Placements}
    (labelsEq : labels = hashes.map fun h => bucketOf h seed r) (below : ∀ label ∈ labels, label < buckets)
    (suffix : hashes.drop i = rest) (placing : Placing buckets labels i state)
    (returned : attempt seed r rest i state = .ok placements) : Recorded labels placements := by
  induction rest generalizing i state with
  | nil =>
      cases returned
      have done : labels.length ≤ i := by
        rw [labelsEq, List.length_map]
        simpa using suffix
      refine ⟨List.ext_getElem? fun j => ?_, placing.slotLength, fun j b found => ?_⟩
      · by_cases inside : j < labels.length
        · have found := List.getElem?_eq_getElem inside
          rw [found]
          exact (placing.placed j (by omega) _ found).1
        · rw [List.getElem?_eq_none (by rw [placing.bucketLength]; omega), List.getElem?_eq_none (by omega)]
      · have bound := (List.getElem?_eq_some_iff.mp found).1
        exact (placing.placed j (by omega) b found).2
  | cons h rest ih =>
      have foundHash : hashes[i]? = some h := by
        have head := congrArg List.head? suffix
        rwa [List.head?_drop, List.head?_cons] at head
      have found : labels[i]? = some (bucketOf h seed r) := by
        rw [labelsEq, List.getElem?_map, foundHash]
        rfl
      have next : hashes.drop (i + 1) = rest := by
        rw [← List.tail_drop, suffix, List.tail_cons]
      simp only [attempt] at returned
      split at returned
      · cases returned
      · rename_i room
        exact ih next (placing.put found (below _ (List.mem_of_getElem? found)) room) returned

/-- A failed attempt leaves the arrays at their lengths. -/
theorem attempt_lengths {rest : List UInt64} {i : Nat} {state : Attempt} {placements : Placements}
    (returned : attempt seed r rest i state = .error placements) :
    placements.bucket.length = state.placements.bucket.length ∧
      placements.slot.length = state.placements.slot.length := by
  induction rest generalizing i state with
  | nil => cases returned
  | cons h rest ih =>
      simp only [attempt] at returned
      split at returned
      · cases returned
        exact ⟨rfl, rfl⟩
      · have lengths := ih returned
        simpa only [List.length_set] using lengths

theorem trySeeds_recorded {seedTries : List Nat} {start placements : Placements} {phf : BucketedPhf}
    (positive : 0 < buckets) (few : buckets ≤ u32Max) (bucketLength : start.bucket.length = hashes.length)
    (slotLength : start.slot.length = hashes.length)
    (returned : trySeeds hashes buckets seedTries start = .ok (phf, placements)) :
    phf.numBuckets = UInt32.ofNat buckets ∧
      Recorded (hashes.map fun h => bucketOf h phf.seed (UInt64.ofNat buckets)) placements := by
  induction seedTries generalizing start with
  | nil => cases returned
  | cons seedTry seedTries ih =>
      simp only [trySeeds] at returned
      split at returned
      · rename_i attempted
        cases returned
        have fresh : Placing buckets
            (hashes.map fun h => bucketOf h (SEED_BASE + UInt64.ofNat seedTry) (UInt64.ofNat buckets)) 0
            ⟨start, List.replicate buckets 0⟩ := by
          refine ⟨fun b inside => by simp [inside], ?_, ?_, fun j impossible => by omega⟩
          · rw [List.length_map]
            exact bucketLength
          · rw [List.length_map]
            exact slotLength
        refine ⟨rfl, attempt_recorded rfl (fun label member => ?_) List.drop_zero fresh attempted⟩
        obtain ⟨h, _, rfl⟩ := List.mem_map.mp member
        exact bucketOf_ofNat_lt positive few h _
      · rename_i failed
        obtain ⟨sameBucket, sameSlot⟩ := attempt_lengths failed
        exact ih (sameBucket.trans bucketLength) (sameSlot.trans slotLength) returned

/-- Two keys of a bucket have different numbers of earlier keys. -/
theorem Recorded.distinct {placements : Placements} (recorded : Recorded labels placements) :
    (placements.bucket.zip placements.slot).Nodup := by
  rw [List.Nodup, List.pairwise_iff_getElem]
  intro j k jBound kBound before same
  rw [List.getElem_zip, List.getElem_zip, Prod.mk.injEq] at same
  obtain ⟨sameBucket, sameSlot⟩ := same
  rw [List.length_zip] at jBound kBound
  have jFound : labels[j]? = some placements.bucket[j] := by
    rw [← recorded.bucket_eq]
    exact List.getElem?_eq_getElem (by omega)
  have kFound : labels[k]? = some placements.bucket[j] := by
    rw [sameBucket, ← recorded.bucket_eq]
    exact List.getElem?_eq_getElem (by omega)
  have jSlot := (recorded.slot j _ jFound).1
  have kSlot := (recorded.slot k _ kFound).1
  rw [List.getElem?_eq_getElem (by omega), Option.some.injEq] at jSlot kSlot
  have inPrefix : (labels.take k)[j]? = some placements.bucket[j] := by
    rw [List.getElem?_take, if_pos before, jFound]
  have strict := CountingSort.count_take_lt inPrefix
  rw [List.take_take, min_eq_left (Nat.le_of_lt before)] at strict
  omega

end Attempts

/-- What a successful build hands out: distinct slots below the bucket width, and
the buckets a query computes. -/
structure PlacesAll (hashes : List UInt64) (phf : BucketedPhf) (placements : Placements) : Prop where
  bucket_eq : placements.bucket = hashes.map phf.bucket
  slotLength : placements.slot.length = hashes.length
  slot_lt : ∀ slot ∈ placements.slot, slot < SLOTS_PER_BUCKET
  distinct : (placements.bucket.zip placements.slot).Nodup

section Build
variable {hashes : List UInt64} {lambda : Lambda} {phf : BucketedPhf} {placements : Placements}

theorem bucket_eq_bucketOf {buckets : Nat} (positive : 0 < buckets) (few : buckets ≤ u32Max)
    (same : phf.numBuckets = UInt32.ofNat buckets) (h : UInt64) :
    phf.numBuckets.toNat = buckets ∧ phf.bucket h = bucketOf h phf.seed (UInt64.ofNat buckets) := by
  have number : phf.numBuckets.toNat = buckets := by
    rw [same, UInt32.toNat_ofNat']
    exact Nat.mod_eq_of_lt (lt_of_le_of_lt few (by decide))
  have nonzero : phf.numBuckets ≠ 0 := by
    intro zero
    rw [zero] at number
    exact absurd number (Nat.ne_of_lt positive)
  have wide : phf.numBuckets.toUInt64 = UInt64.ofNat buckets := by
    apply UInt64.toNat_inj.mp
    rw [UInt32.toNat_toUInt64, number, Chd.ofNat_toNat few]
  exact ⟨number, by rw [BucketedPhf.bucket, if_neg nonzero, wide]⟩

theorem build_places (built : BucketedPhf.build hashes lambda = .ok (phf, placements)) :
    hashes.Nodup ∧ PlacesAll hashes phf placements ∧
      (hashes ≠ [] → 0 < phf.numBuckets.toNat ∧ ∀ h, phf.bucket h < phf.numBuckets.toNat) := by
  simp only [BucketedPhf.build] at built
  split at built
  · rename_i empty
    obtain rfl : hashes = [] := List.length_eq_zero_iff.mp empty
    cases built
    exact ⟨List.nodup_nil, ⟨rfl, rfl, by simp, by simp⟩, by simp⟩
  · split at built
    · cases built
    · rename_i noDuplicate
      rw [hasDuplicate_iff, not_not] at noDuplicate
      split at built
      · cases built
      · rename_i few
        have positive : 0 < max (lambda.buckets hashes.length) 1 := by omega
        obtain ⟨same, recorded⟩ := trySeeds_recorded positive (by omega) List.length_replicate
          List.length_replicate built
        have query := bucket_eq_bucketOf positive (by omega) same
        have labels : hashes.map phf.bucket =
            hashes.map fun h => bucketOf h phf.seed (UInt64.ofNat (max (lambda.buckets hashes.length) 1)) :=
          List.map_congr_left fun h _ => (query h).2
        refine ⟨noDuplicate, ⟨?_, ?_, fun slot member => ?_, recorded.distinct⟩, fun _ => ⟨?_, fun h => ?_⟩⟩
        · rw [labels]
          exact recorded.bucket_eq
        · simpa using recorded.slotLength
        · obtain ⟨j, bound, rfl⟩ := List.getElem_of_mem member
          have inside : j < hashes.length := by
            have lengths := recorded.slotLength
            rw [List.length_map] at lengths
            omega
          have found := recorded.slot j _ (List.getElem?_eq_getElem (by rwa [List.length_map]))
          rw [List.getElem?_eq_getElem bound, Option.some.injEq] at found
          omega
        · rw [(query 0).1]
          exact positive
        · rw [(query h).1, (query h).2]
          exact bucketOf_ofNat_lt positive (by omega) h _

end Build

section Slabs
variable {α : Type} {feature : ReducedHash} {f : α → UInt64} {placements : Placements}

/-- What filling writes: each item at its placement, tagged by its hash. -/
def writes (feature : ReducedHash) (f : α → UInt64) (positions : List (Nat × Nat)) (items : List α) :
    List ((Nat × Nat) × UInt8 × α) :=
  (positions.zip items).map fun (position, item) => (position, hashTag feature (f item), item)

theorem writes_positions {positions : List (Nat × Nat)} {items : List α}
    (length : positions.length = items.length) :
    (writes feature f positions items).map Prod.fst = positions := by
  rw [writes, List.map_map]
  exact List.map_fst_zip (by omega)

theorem writes_items {positions : List (Nat × Nat)} {items : List α}
    (length : positions.length = items.length) :
    (writes feature f positions items).map (fun entry => entry.2.2) = items := by
  rw [writes, List.map_map]
  exact List.map_snd_zip (by omega)

theorem fill_eq {items : List α} {i : Nat} {slab : Slab α} {positions : List (Nat × Nat)}
    (positionsEq : (placements.bucket.zip placements.slot).drop i = positions)
    (length : positions.length = items.length)
    (inside : ∀ position ∈ positions, (slab.cell position).isSome) :
    fill feature placements (items.zip (items.map f)) i slab =
      .ok ((Slab.memory α).writeAll slab (Slab.initialised (writes feature f positions items))) := by
  induction items generalizing i slab positions with
  | nil =>
      obtain rfl : positions = [] := List.length_eq_zero_iff.mp length
      rfl
  | cons item items ih =>
      cases positions with
      | nil => cases length
      | cons position positions =>
          obtain ⟨bucket, slot⟩ := position
          have found : (placements.bucket.zip placements.slot)[i]? = some (bucket, slot) := by
            have head := congrArg List.head? positionsEq
            rwa [List.head?_drop, List.head?_cons] at head
          rw [List.getElem?_zip_eq_some] at found
          have next : (placements.bucket.zip placements.slot).drop (i + 1) = positions := by
            rw [← List.tail_drop, positionsEq, List.tail_cons]
          have here := inside (bucket, slot) List.mem_cons_self
          have written : slab.write bucket slot (hashTag feature (f item)) item =
              .ok ((Slab.memory α).write slab (bucket, slot) (hashTag feature (f item), some item)) :=
            Slab.write_eq here
          simp only [List.map_cons, List.zip_cons_cons, fill, found.1, found.2, written, bind, Except.bind]
          rw [ih next (by simpa using length) fun other member => ?_]
          · rfl
          · rw [show ((Slab.memory α).write slab (bucket, slot) (hashTag feature (f item), some item)).cell
                other = _ from (Slab.memory α).read_write here _ other]
            split
            · rfl
            · exact inside other (List.mem_cons_of_mem _ member)

/-- A filled slab and the buckets its hash function sends a hash to. -/
structure Fills (feature : ReducedHash) (items : List α) (f : α → UInt64) (bucket : UInt64 → Nat) (r : Nat)
    (slab : Slab α) (written : List ((Nat × Nat) × UInt8 × α)) : Prop where
  holds : slab.Holds r written
  items_eq : written.map (fun entry => entry.2.2) = items
  placed : ∀ entry ∈ written, entry.1.1 = bucket (f entry.2.2) ∧ entry.2.1 = hashTag feature (f entry.2.2)

theorem fill_fills {items : List α} {phf : BucketedPhf}
    (places : PlacesAll (items.map f) phf placements)
    (below : items ≠ [] → ∀ h, phf.bucket h < phf.numBuckets.toNat) :
    ∃ slab written,
      fill feature placements (items.zip (items.map f)) 0 (Slab.uninit phf.numBuckets.toNat) = .ok slab ∧
        Fills feature items f phf.bucket phf.numBuckets.toNat slab written := by
  obtain ⟨positions, positionsEq⟩ :
      ∃ positions, positions = placements.bucket.zip placements.slot := ⟨_, rfl⟩
  have bucketLength : placements.bucket.length = items.length := by
    rw [places.bucket_eq, List.length_map, List.length_map]
  have slotLength : placements.slot.length = items.length := by
    rw [places.slotLength, List.length_map]
  have length : positions.length = items.length := by
    rw [positionsEq, List.length_zip, bucketLength, slotLength, min_self]
  have inside : ∀ position ∈ positions,
      position.1 < phf.numBuckets.toNat ∧ position.2 < SLOTS_PER_BUCKET := by
    intro position member
    rw [positionsEq] at member
    have nonempty : items ≠ [] := by
      rintro rfl
      rw [← positionsEq, List.length_eq_zero_iff.mp length] at member
      cases member
    have bucketMember := (List.of_mem_zip member).1
    rw [places.bucket_eq] at bucketMember
    obtain ⟨h, _, same⟩ := List.mem_map.mp bucketMember
    exact ⟨same ▸ below nonempty h, places.slot_lt _ (List.of_mem_zip member).2⟩
  refine ⟨_, writes feature f positions items, fill_eq ?_ length fun position member => ?_, ⟨?_, ?_, ?_⟩⟩
  · rw [positionsEq, List.drop_zero]
  · obtain ⟨bucketBound, slotBound⟩ := inside position member
    exact Option.isSome_iff_exists.mpr ⟨_, Slab.uninit_cell bucketBound slotBound⟩
  · refine Slab.writeAll_holds ?_ fun entry member => ?_
    · rw [writes_positions length, positionsEq]
      exact places.distinct
    · apply inside
      rw [← @writes_positions _ feature f _ _ length]
      exact List.mem_map_of_mem member
  · exact writes_items length
  · intro entry member
    obtain ⟨⟨position, item⟩, zipped, rfl⟩ := List.mem_map.mp member
    refine ⟨?_, rfl⟩
    -- The position and the item stand at one index of the arrays.
    obtain ⟨j, bound, found⟩ := List.getElem_of_mem zipped
    rw [List.getElem_zip, Prod.mk.injEq] at found
    obtain ⟨foundPosition, foundItem⟩ := found
    simp only [positionsEq, List.getElem_zip, places.bucket_eq, List.getElem_map] at foundPosition
    rw [← foundPosition, ← foundItem]

theorem Fills.find_iff {items : List α} {bucket : UInt64 → Nat} {r : Nat} {slab : Slab α}
    {written : List ((Nat × Nat) × UInt8 × α)} (fills : Fills feature items f bucket r slab written)
    {h : UInt64} {isQuery : α → Bool} (bound : bucket h < r)
    (sameHash : ∀ item, isQuery item = true → f item = h)
    (unique : ∀ first ∈ items, ∀ second ∈ items, isQuery first = true → isQuery second = true →
      first = second) :
    ∃ answer, slab.find (bucket h) (hashTag feature h) isQuery = .ok answer ∧
      ∀ item, answer = some item ↔ item ∈ items ∧ isQuery item = true := by
  obtain ⟨answer, found, hit, missed⟩ :=
    @Slab.Holds.find_answers _ _ _ _ fills.holds _ _ isQuery bound (hashTag_ne_zero feature h)
  have listed : ∀ {position tag item}, (position, tag, item) ∈ written → item ∈ items := by
    intro position tag item member
    rw [← fills.items_eq]
    exact List.mem_map.mpr ⟨_, member, rfl⟩
  refine ⟨answer, found, fun item => ⟨fun same => ?_, fun member => ?_⟩⟩
  · obtain ⟨query, position, member⟩ := hit item same
    exact ⟨listed member, query⟩
  · obtain ⟨inside, query⟩ := member
    rw [← fills.items_eq] at inside
    obtain ⟨⟨⟨inBucket, slot⟩, tag, stored⟩, entryMember, rfl⟩ := List.mem_map.mp inside
    obtain ⟨sameBucket, sameTag⟩ := fills.placed _ entryMember
    simp only at sameBucket sameTag query
    rw [sameHash stored query] at sameBucket sameTag
    subst sameBucket sameTag
    cases answer with
    | none =>
        rw [missed rfl slot stored entryMember] at query
        cases query
    | some other =>
        obtain ⟨otherQuery, _, otherMember⟩ := hit other rfl
        rw [unique other (listed otherMember) stored (listed entryMember) otherQuery query]

theorem Fills.nonzero {items : List α} {bucket : UInt64 → Nat} {r : Nat} {slab : Slab α}
    {written : List ((Nat × Nat) × UInt8 × α)} (fills : Fills feature items f bucket r slab written) :
    ∀ entry ∈ written, entry.2.1 ≠ 0 := by
  intro entry member
  rw [(fills.placed entry member).2]
  exact hashTag_ne_zero feature _

theorem Fills.iter_perm {items : List α} {bucket : UInt64 → Nat} {r : Nat} {slab : Slab α}
    {written : List ((Nat × Nat) × UInt8 × α)} (fills : Fills feature items f bucket r slab written)
    (nodup : (items.map f).Nodup) : ∃ listed, slab.iter = .ok listed ∧ listed.Perm items := by
  have listed := fills.holds.iter_perm fills.nonzero (by
    rw [fills.items_eq]
    exact List.Nodup.of_map f nodup)
  rwa [fills.items_eq] at listed

theorem buildSlab_fills {items : List α} {lambda : Lambda} {phf : BucketedPhf} {slab : Slab α}
    (built : buildSlab feature items f lambda = .ok (phf, slab)) :
    (items.map f).Nodup ∧
      (∃ written, Fills feature items f phf.bucket phf.numBuckets.toNat slab written) ∧
      (items = [] → slab.tags = []) ∧
      (items ≠ [] → slab.tags ≠ [] ∧ ∀ h, phf.bucket h < phf.numBuckets.toNat) := by
  by_cases empty : items = []
  · subst empty
    simp only [buildSlab, BucketedPhf.build, List.length_nil, if_true, bind, Except.bind, pure, Except.pure,
      Except.ok.injEq, Prod.mk.injEq] at built
    obtain ⟨rfl, rfl⟩ := built
    refine ⟨List.nodup_nil, ⟨[], ⟨⟨rfl, ?_, ?_, ?_⟩, rfl, by simp⟩⟩, fun _ => rfl, by simp⟩
    · intro bucket impossible
      exact absurd impossible (Nat.not_lt_zero _)
    · intro position tag item
      simp [Slab.cell]
    · intro position tag
      simp [Slab.cell]
  · have some : items.length ≠ 0 := fun zero => empty (List.length_eq_zero_iff.mp zero)
    simp only [buildSlab, if_neg some, bind, Except.bind] at built
    cases phfBuilt : BucketedPhf.build (items.map f) lambda with
    | error failure =>
        rw [phfBuilt] at built
        cases built
    | ok result =>
        obtain ⟨function, placements⟩ := result
        obtain ⟨nodup, places, buckets⟩ := build_places phfBuilt
        obtain ⟨positive, below⟩ := buckets (by simpa using empty)
        obtain ⟨filled, written, returned, fills⟩ := @fill_fills _ feature _ _ _ _ places fun _ => below
        rw [phfBuilt] at built
        simp only [returned, faulting, Except.mapError, pure, Except.pure, Except.ok.injEq, Prod.mk.injEq]
          at built
        obtain ⟨rfl, rfl⟩ := built
        refine ⟨nodup, ⟨written, fills⟩, fun none => absurd none empty, fun _ => ⟨fun noTags => ?_, below⟩⟩
        have rows := fills.holds.rows
        rw [noTags, List.length_nil] at rows
        omega

end Slabs

section Exact
variable {K V : Type} [DecidableEq K] {feature : ReducedHash} {hash : K → UInt64} {lambda : Lambda}

theorem entry_unique {entries : List (K × V)} (nodup : (entries.map fun entry => hash entry.1).Nodup)
    {key : K} : ∀ first ∈ entries, ∀ second ∈ entries, decide (first.1 = key) = true →
      decide (second.1 = key) = true → first = second := by
  intro first firstMember second secondMember firstKey secondKey
  rw [decide_eq_true_eq] at firstKey secondKey
  exact List.inj_on_of_nodup_map nodup firstMember secondMember (by simp only [firstKey, secondKey])

/-- The value of the entry with the key. -/
theorem value_iff {entries : List (K × V)} {key : K} {answer : Option (K × V)}
    (found : ∀ entry, answer = some entry ↔ entry ∈ entries ∧ decide (entry.1 = key) = true) (value : V) :
    answer.map Prod.snd = some value ↔ (key, value) ∈ entries := by
  constructor
  · intro same
    obtain ⟨⟨k, v⟩, rfl, rfl⟩ := Option.map_eq_some_iff.mp same
    obtain ⟨member, query⟩ := (found (k, v)).mp rfl
    rw [decide_eq_true_eq] at query
    exact query ▸ member
  · intro member
    rw [(found (key, value)).mpr ⟨member, by simp⟩]
    rfl

/-- The key a set looks for is the one that it stores. -/
theorem stored_iff {keys : List K} {key : K} {answer : Option K}
    (found : ∀ stored, answer = some stored ↔ stored ∈ keys ∧ decide (stored = key) = true) (stored : K) :
    answer = some stored ↔ stored = key ∧ key ∈ keys := by
  rw [found, decide_eq_true_eq]
  constructor
  · rintro ⟨member, rfl⟩
    exact ⟨rfl, member⟩
  · rintro ⟨rfl, member⟩
    exact ⟨member, rfl⟩

theorem PerfectMapBucketed.exact {entries : List (K × V)} {map : PerfectMapBucketed K V}
    (built : PerfectMapBucketed.fromEntries feature entries hash lambda = .ok map) :
    ∃ listed, map.iter = .ok listed ∧ ExactMap entries (map.get feature) listed map.len ∧
      map.slab.TagsMatch := by
  cases slabBuilt : buildSlab feature entries (fun entry => hash entry.1) lambda with
  | error failure => simp [PerfectMapBucketed.fromEntries, slabBuilt, bind, Except.bind] at built
  | ok result =>
      obtain ⟨phf, slab⟩ := result
      obtain ⟨nodup, ⟨written, fills⟩, whenEmpty, nonempty⟩ := buildSlab_fills slabBuilt
      simp only [PerfectMapBucketed.fromEntries, slabBuilt, bind, Except.bind, pure, Except.pure,
        Except.ok.injEq] at built
      subst built
      obtain ⟨listed, iterated, same⟩ := fills.iter_perm nodup
      have answers : ∀ key, ∃ answer,
          PerfectMapBucketed.get feature ⟨slab, phf, hash, entries.length⟩ key = .ok answer ∧
          ∀ value, answer = some value ↔ (key, value) ∈ entries := by
        intro key
        by_cases empty : entries = []
        · refine ⟨none, by simp [PerfectMapBucketed.get, whenEmpty empty], by simp [empty]⟩
        · obtain ⟨someTags, below⟩ := nonempty empty
          obtain ⟨answer, found, iff⟩ := fills.find_iff (below (hash key))
            (fun entry query => congrArg hash (decide_eq_true_eq.mp query)) (entry_unique nodup)
          refine ⟨answer.map Prod.snd, ?_, value_iff iff⟩
          simp [PerfectMapBucketed.get, someTags, found, Except.map]
      exact ⟨listed, iterated, .of_answers (keys_nodup nodup) answers same rfl, fills.holds.tagsMatch fills.nonzero⟩

theorem PerfectSetBucketed.exact {keys : List K} {set : PerfectSetBucketed K}
    (built : PerfectSetBucketed.fromKeys feature keys hash lambda = .ok set) :
    ∃ listed, set.iter = .ok listed ∧
      ExactSet keys (set.contains feature) (set.get feature) listed set.len ∧ set.slab.TagsMatch := by
  cases slabBuilt : buildSlab feature keys hash lambda with
  | error failure => simp [PerfectSetBucketed.fromKeys, slabBuilt, bind, Except.bind] at built
  | ok result =>
      obtain ⟨phf, slab⟩ := result
      obtain ⟨nodup, ⟨written, fills⟩, whenEmpty, nonempty⟩ := buildSlab_fills slabBuilt
      simp only [PerfectSetBucketed.fromKeys, slabBuilt, bind, Except.bind, pure, Except.pure,
        Except.ok.injEq] at built
      subst built
      obtain ⟨listed, iterated, same⟩ := fills.iter_perm nodup
      have answers : ∀ key, ∃ answer,
          PerfectSetBucketed.get feature ⟨slab, phf, hash, keys.length⟩ key = .ok answer ∧
          ∀ stored, answer = some stored ↔ stored = key ∧ key ∈ keys := by
        intro key
        by_cases empty : keys = []
        · exact ⟨none, by simp [PerfectSetBucketed.get, whenEmpty empty], by simp [empty]⟩
        · obtain ⟨someTags, below⟩ := nonempty empty
          obtain ⟨answer, found, iff⟩ := @Fills.find_iff _ _ _ _ _ _ _ _ fills (hash key)
            (fun stored => decide (stored = key)) (below (hash key))
            (fun stored query => congrArg hash (decide_eq_true_eq.mp query))
            (fun first _ second _ firstKey secondKey =>
              (decide_eq_true_eq.mp firstKey).trans (decide_eq_true_eq.mp secondKey).symm)
          exact ⟨answer, by simp [PerfectSetBucketed.get, someTags, found], stored_iff iff⟩
      exact ⟨listed, iterated, .of_answers (List.Nodup.of_map hash nodup) answers (fun _ => rfl) same rfl,
        fills.holds.tagsMatch fills.nonzero⟩

end Exact

/-- Placements are distinct and agree with the query, and the containers built
from them are exact. -/
theorem bucketed_tables_exact (feature : ReducedHash) (lambda : Lambda) :
    (∀ hashes phf placements, BucketedPhf.build hashes lambda = .ok (phf, placements) →
      (placements.bucket.zip placements.slot).Nodup ∧ placements.slot.length = hashes.length ∧
        (∀ slot ∈ placements.slot, slot < SLOTS_PER_BUCKET) ∧
        placements.bucket = hashes.map phf.bucket) ∧
    (∀ {K V : Type} [DecidableEq K] (hash : K → UInt64) (entries : List (K × V)) map,
      PerfectMapBucketed.fromEntries feature entries hash lambda = .ok map →
      ∃ listed, map.iter = .ok listed ∧ ExactMap entries (map.get feature) listed map.len ∧
        map.slab.TagsMatch) ∧
    (∀ {K : Type} [DecidableEq K] (hash : K → UInt64) (keys : List K) set,
      PerfectSetBucketed.fromKeys feature keys hash lambda = .ok set →
      ∃ listed, set.iter = .ok listed ∧
        ExactSet keys (set.contains feature) (set.get feature) listed set.len ∧ set.slab.TagsMatch) := by
  refine ⟨fun hashes phf placements built => ?_, fun hash entries map built =>
    PerfectMapBucketed.exact built, fun hash keys set built => PerfectSetBucketed.exact built⟩
  obtain ⟨_, places, _⟩ := build_places built
  exact ⟨places.distinct, places.slotLength, places.slot_lt, places.bucket_eq⟩

/-- Two entries in one bucket. -/
theorem bucketed_two_exact :
    ∃ map, PerfectMapBucketed.fromEntries .asm [((1 : UInt64), 10), (2, 20)] id ⟨fun _ => 1⟩ = .ok map ∧
      (map.get .asm 2 = .ok (some 20) ↔ (2, 20) ∈ [((1 : UInt64), 10), (2, 20)]) := by
  have built : (PerfectMapBucketed.fromEntries .asm [((1 : UInt64), 10), (2, 20)] id ⟨fun _ => 1⟩).isOk =
      true := by
    decide +kernel
  cases returned : PerfectMapBucketed.fromEntries .asm [((1 : UInt64), 10), (2, 20)] id ⟨fun _ => 1⟩ with
  | error failure =>
      rw [returned] at built
      cases built
  | ok map =>
      obtain ⟨_, _, exact, _⟩ := (bucketed_tables_exact .asm ⟨fun _ => 1⟩).2.1 id _ map returned
      exact ⟨map, rfl, exact.get_iff 2 20⟩

end Optimap.Perfect.Bucketed
