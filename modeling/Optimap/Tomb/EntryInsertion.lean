import Optimap.Map.EntryInsertion
import Optimap.Tomb.Contract

/-!
# Entry insertion into the tombstone tables

The probe of an entry and the loop of `insert_no_check` prefer the first tombstone on
the way and stop at the first group with an EMPTY slot, so they choose the same slot
and charge the same growth.
-/

set_option autoImplicit false
set_option linter.unusedSectionVars false

namespace Optimap.Tomb

open Lib Hash Map

namespace RawTable

variable {engine : Engine} {tag : TombstoneTag} {S : Type → Type → Type} [KvStorage S] {K V : Type}
  {table : RawTable engine tag S K V} {h : UInt64} {eq : K → Bool}

/-! ## The slot a full probe chooses -/

/-- The first tombstone before probe position `probe`. -/
def tombstoneBefore (table : RawTable engine tag S K V) (h : UInt64) : Nat → Option Slot
  | 0 => none
  | probe + 1 => table.trackTombstone (table.probeAt h probe) (table.tombstoneBefore h probe)

/-- The first tombstone up to the first group with an EMPTY slot, else that slot. -/
structure FirstFree (table : RawTable engine tag S K V) (h : UInt64) (slot : Slot) (last : Nat) : Prop where
  passed : table.Passed h last
  stop : table.matchEmpty (table.probeAt h last) ≠ []
  chosen : (table.tombstoneBefore h (last + 1)).or
    ((table.matchEmpty (table.probeAt h last)).head?.map fun si => (table.probeAt h last, si)) = some slot

theorem FirstFree.unique {slot other : Slot} {last otherLast : Nat} (first : table.FirstFree h slot last)
    (second : table.FirstFree h other otherLast) : slot = other := by
  have behind : ¬ last < otherLast := fun before => first.stop (second.passed last before)
  have ahead : ¬ otherLast < last := fun before => second.stop (first.passed otherLast before)
  have same : last = otherLast := by omega
  subst same
  have chosen := first.chosen
  rw [second.chosen, Option.some.injEq] at chosen
  exact chosen.symm

theorem insertNoCheckLoop_first {key : K} {value : V} (fuel : Nat) :
    ∀ {probe : Nat} {slot : Slot} {later : RawTable engine tag S K V}, table.Passed h probe →
      table.insertNoCheckLoop h key value fuel (table.probeAt h probe) probe
        (table.tombstoneBefore h probe) = some (slot, later) →
      ∃ last, table.FirstFree h slot last := by
  induction fuel with
  | zero => intro probe slot later _ returned; cases returned
  | succ fuel ih =>
      intro probe slot later passed returned
      have tracked : table.trackTombstone (table.probeAt h probe) (table.tombstoneBefore h probe) =
          table.tombstoneBefore h (probe + 1) := rfl
      unfold insertNoCheckLoop at returned
      simp only [tracked] at returned
      split at returned
      · rename_i si head
        have stop : table.matchEmpty (table.probeAt h probe) ≠ [] := by
          intro full
          rw [full] at head
          cases head
        refine ⟨probe, passed, stop, ?_⟩
        rw [head]
        split at returned
        · rename_i remembered chosen
          cases returned
          rw [chosen]
          rfl
        · rename_i missing
          cases returned
          rw [missing]
          rfl
      · rename_i full
        rw [nextGroup_probeAt] at returned
        exact ih (passed.extend (List.head?_eq_none_iff.mp full)) returned

theorem insertNoCheck_first {key : K} {value : V} {fuel : Nat} {slot : Slot}
    {later : RawTable engine tag S K V}
    (returned : table.insertNoCheck fuel h key value = some (slot, later)) :
    later = table.insertAt h slot key value 0 ∧ ∃ last, table.FirstFree h slot last :=
  ⟨(insertNoCheck_returns returned).2,
    @insertNoCheckLoop_first _ _ _ _ _ _ table h key value fuel 0 _ _ (Passed.start table h) returned⟩

theorem findOrLocateOverflow_first (fuel : Nat) :
    ∀ {probe : Nat} {slot : Slot} {mask : UInt8}, table.Passed h probe →
      table.findOrLocateOverflow h eq fuel (table.probeAt h probe) probe
        (table.tombstoneBefore h probe) = some (.insertSlot slot mask) →
      ∃ last, table.FirstFree h slot last := by
  induction fuel with
  | zero => intro probe slot mask _ returned; cases returned
  | succ fuel ih =>
      intro probe slot mask passed returned
      have tracked : table.trackTombstone (table.probeAt h probe) (table.tombstoneBefore h probe) =
          table.tombstoneBefore h (probe + 1) := rfl
      unfold findOrLocateOverflow at returned
      simp only [tracked] at returned
      split at returned
      · cases returned
      · split at returned
        · rename_i full
          rw [nextGroup_probeAt, full, List.head?_nil, Option.map_none, Option.or_none] at returned
          exact ih (passed.extend full) returned
        · rename_i stop
          split at returned
          · rename_i remembered chosen
            cases returned
            exact ⟨probe, passed, stop, chosen⟩
          · cases returned

/-- The probe of an entry does not end without a slot. -/
theorem findOrLocateOverflow_located (fuel : Nat) :
    ∀ {gi probe : Nat} {first : Option Slot},
      table.findOrLocateOverflow h eq fuel gi probe first ≠ some .notFound := by
  induction fuel with
  | zero => intro gi probe first returned; cases returned
  | succ fuel ih =>
      intro gi probe first returned
      unfold findOrLocateOverflow at returned
      simp only at returned
      split at returned
      · cases returned
      · split at returned
        · exact ih returned
        · rename_i stop
          obtain ⟨si, head⟩ := matchEmpty_head_some stop
          split at returned
          · cases returned
          · rename_i missing
            rw [head, Option.map_some, Option.or_eq_none_iff] at missing
            cases missing.2

theorem home_tombstone (full : table.matchEmpty (table.groupIndex h) = []) :
    table.Passed h 1 ∧ table.tombstoneBefore h 1 =
      (table.matchByte (table.groupIndex h) TOMBSTONE).head?.map fun tsi => (table.groupIndex h, tsi) :=
  ⟨(Passed.start table h).extend full, rfl⟩

/-! ## Fresh tables -/

theorem allocate_matchByte (numGroups gi : Nat) (byte : UInt8) :
    (table.allocate numGroups).matchByte gi byte = if byte = 0 then List.range engine.groupSize else [] := by
  have bytes : ∀ si, (table.allocate numGroups).metaByte gi si = 0 := fun _ => rfl
  simp only [matchByte, matchWhere, bytes]
  split
  · rename_i zero
    simp [zero]
  · rename_i nonzero
    simp [Ne.symm nonzero]

/-- An insertion into a fresh table fills the first slot of the home group. -/
theorem allocate_first (h : UInt64) :
    ((table.allocate 1).matchEmpty ((table.allocate 1).groupIndex h)).head? = some 0 ∧
      (table.allocate 1).FirstFree h ((table.allocate 1).groupIndex h, 0) 0 := by
  have home : ((table.allocate 1).matchEmpty ((table.allocate 1).groupIndex h)).head? = some 0 := by
    rw [matchEmpty, allocate_matchByte, if_pos (show EMPTY = 0 from rfl)]
    cases engine with
    | inPlaceOverflow => rfl
    | ipo64 => rfl
  have untouched : (table.allocate 1).tombstoneBefore h 1 = none := by
    change trackTombstone _ _ none = none
    rw [trackTombstone, allocate_matchByte, if_neg (by decide)]
    rfl
  have place : (table.allocate 1).probeAt h 0 = (table.allocate 1).groupIndex h := rfl
  refine ⟨home, Passed.start _ h, ?_, ?_⟩
  · intro full
    rw [place] at full
    rw [full] at home
    cases home
  · rw [untouched, place, home]
    rfl

/-! ## Both paths -/

section Keyed
variable [DecidableEq K] {hash : K → UInt64} {map : PMap K V} {key : K}

/-- The table an insertion of an absent key leaves: an EMPTY slot of the home group,
else the slot of a full probe, filled, or the grown table filled. -/
inductive InsertsAbsent (fuel : Nat) (hash : K → UInt64) (table : RawTable engine tag S K V) (key : K)
    (value : V) : RawTable engine tag S K V → Prop where
  | home {si : Nat} : table.growthLeft ≠ 0 →
      (table.matchEmpty (table.groupIndex (hash key))).head? = some si →
      InsertsAbsent fuel hash table key value
        (table.insertAt (hash key) (table.groupIndex (hash key), si) key value 0)
  | probed {slot : Slot} {last : Nat} : table.growthLeft ≠ 0 →
      table.matchEmpty (table.groupIndex (hash key)) = [] → table.FirstFree (hash key) slot last →
      InsertsAbsent fuel hash table key value (table.insertAt (hash key) slot key value 0)
  | grown {grown later : RawTable engine tag S K V} {slot : Slot} : table.growthLeft = 0 →
      table.growOrRehash fuel hash = some grown →
      grown.insertNoCheck fuel (hash key) key value = some (slot, later) →
      InsertsAbsent fuel hash table key value later

theorem InsertsAbsent.unique {fuel : Nat} {value : V} {left right : RawTable engine tag S K V}
    (leftward : InsertsAbsent fuel hash table key value left)
    (rightward : InsertsAbsent fuel hash table key value right) : left = right := by
  cases leftward with
  | home growth head =>
      cases rightward with
      | home _ otherHead =>
          rw [head, Option.some.injEq] at otherHead
          rw [otherHead]
      | probed _ full _ =>
          rw [full] at head
          cases head
      | grown exhausted _ _ => exact absurd exhausted growth
  | probed growth full first =>
      cases rightward with
      | home _ head =>
          rw [full] at head
          cases head
      | probed _ _ second => rw [first.unique second]
      | grown exhausted _ _ => exact absurd exhausted growth
  | grown exhausted grew inserted =>
      cases rightward with
      | home growth _ => exact absurd exhausted growth
      | probed growth _ _ => exact absurd exhausted growth
      | grown _ otherGrew otherInserted =>
          rw [grew, Option.some.injEq] at otherGrew
          subst otherGrew
          rw [inserted, Option.some.injEq, Prod.mk.injEq] at otherInserted
          exact otherInserted.2

theorem findInGroup_absent (refines : table.Refines hash map) (absent : map key = none) {gi : Nat}
    (bound : gi ≤ table.mask) : table.findInGroup (hash key) (fun stored => stored = key) gi = none := by
  cases found : table.findInGroup (hash key) (fun stored => stored = key) gi with
  | none => rfl
  | some si =>
      obtain ⟨value, holds⟩ := Matches.holds refines.valid (findInGroup_matches bound found)
      rw [(refines.stores.lookup key value).mpr ⟨_, holds⟩] at absent
      cases absent

theorem Answered.absent {found : Option Slot} (answered : table.Answered map key found)
    (refines : table.Refines hash map) (absent : map key = none) : found = none := by
  cases found with
  | none => rfl
  | some slot =>
      obtain ⟨value, holds⟩ := answered
      rw [(refines.stores.lookup key value).mpr ⟨_, holds⟩] at absent
      cases absent

theorem insertProbing_absent {fuel : Nat} {value : V} {result : Option V}
    {later : RawTable engine tag S K V} (refines : table.Refines hash map) (absent : map key = none)
    (full : table.growthLeft ≠ 0 → table.matchEmpty (table.groupIndex (hash key)) = [])
    (returned : table.insertProbing fuel hash (hash key) key value = some (result, later)) :
    InsertsAbsent fuel hash table key value later := by
  obtain ⟨found, looked, returned⟩ := Option.bind_eq_some_iff.mp returned
  cases (findByHash_refines refines looked).absent refines absent
  obtain ⟨grown, grew, returned⟩ := Option.bind_eq_some_iff.mp returned
  obtain ⟨⟨slot, filled⟩, inserted, returned⟩ := Option.bind_eq_some_iff.mp returned
  cases returned
  split at grew
  · rename_i exhausted
    exact .grown exhausted grew inserted
  · rename_i growth
    cases grew
    obtain ⟨rfl, last, first⟩ := insertNoCheck_first inserted
    exact .probed growth (full growth) first

/-- What a plain insertion of an absent key into an allocated table went through. -/
theorem insertOrReplace_absent {fuel : Nat} {value : V} {result : Option V}
    {later : RawTable engine tag S K V} (refines : table.Refines hash map) (absent : map key = none)
    (allocated : table.isAllocated = true)
    (returned : table.insertOrReplace fuel hash key value = some (result, later)) :
    InsertsAbsent fuel hash table key value later := by
  unfold insertOrReplace at returned
  simp only [allocated, ↓reduceIte] at returned
  split at returned
  · rename_i exhausted
    exact insertProbing_absent refines absent (absurd exhausted) returned
  · rename_i growth
    rw [findInGroup_absent refines absent (table.groupIndex_le _)] at returned
    simp only at returned
    split at returned
    · rename_i si head
      cases returned
      have empty := (mem_matchByte.mp (List.mem_of_head? head)).2
      rw [putSlot_eq_insertAt_empty 0 empty]
      exact .home growth head
    · rename_i full
      exact insertProbing_absent refines absent (fun _ => List.head?_eq_none_iff.mp full) returned

/-- What inserting an absent key through an entry went through. -/
theorem probedInsert_absent {fuel : Nat} {value : V} {next : GenericMap (RawTable engine tag S K V) K}
    (refines : table.Refines hash map) (absent : map key = none)
    (returned : (⟨table, hash⟩ : GenericMap (RawTable engine tag S K V) K).probedInsert fuel key value =
      some next) :
    next.hashBuilder = hash ∧ InsertsAbsent fuel hash table key value next.table := by
  obtain ⟨probe, located, commit⟩ := Option.bind_eq_some_iff.mp returned
  change table.findForEntry fuel (hash key) key = some probe at located
  unfold findForEntry at located
  split at located
  · rename_i exhausted
    obtain ⟨found, looked, located⟩ := Option.bind_eq_some_iff.mp located
    cases (findByHash_refines refines looked).absent refines absent
    cases located
    obtain ⟨⟨chosen, inserted⟩, growing, same⟩ := Option.bind_eq_some_iff.mp commit
    cases same
    obtain ⟨grown, ensured, growing⟩ := Option.bind_eq_some_iff.mp growing
    obtain ⟨⟨slot, later⟩, filled, same⟩ := Option.bind_eq_some_iff.mp growing
    cases same
    change ensureCapacity fuel hash table = some grown at ensured
    rw [ensureCapacity, if_pos exhausted] at ensured
    exact ⟨rfl, .grown exhausted ensured filled⟩
  · rename_i growth
    simp only [findInGroup_absent refines absent (table.groupIndex_le _)] at located
    split at located
    · rename_i si head
      cases located
      cases commit
      exact ⟨rfl, .home growth head⟩
    · rename_i full
      have homeFull : table.matchEmpty (table.groupIndex (hash key)) = [] := List.head?_eq_none_iff.mp full
      obtain ⟨passed, remembered⟩ := home_tombstone homeFull
      obtain ⟨result, ran, located⟩ := Option.bind_eq_some_iff.mp located
      have outcome := findOrLocate_returns ran
      simp only [findOrLocate, findInGroup_absent refines absent (table.groupIndex_le _), full,
        ← remembered] at ran
      have second : table.nextGroup (table.groupIndex (hash key)) 1 = table.probeAt (hash key) 1 :=
        table.nextGroup_probeAt (hash key) 0
      rw [second] at ran
      cases result with
      | found slot =>
          obtain ⟨value, holds⟩ := Matches.holds refines.valid outcome
          rw [(refines.stores.lookup key value).mpr ⟨slot, holds⟩] at absent
          cases absent
      | insertSlot slot mask =>
          cases located
          cases commit
          obtain ⟨last, first⟩ := findOrLocateOverflow_first fuel passed ran
          exact ⟨rfl, .probed growth homeFull first⟩
      | notFound => exact absurd ran (findOrLocateOverflow_located fuel)

/-! ## Unallocated tables -/

/-- Growing an unallocated table is allocating one group, as the insertion does. -/
theorem InsertsAbsent.allocate {fuel : Nat} {value : V} {later : RawTable engine tag S K V}
    (refines : table.Refines hash map) (unallocated : table.isAllocated = false)
    (inserts : InsertsAbsent fuel hash table key value later) :
    InsertsAbsent fuel hash (table.allocate 1) key value later := by
  have growthLeft := refines.accounted.unallocated unallocated
  have len := refines.valid.len_of_unallocated unallocated
  cases inserts with
  | home growth _ => exact absurd growthLeft.1 growth
  | probed growth _ _ => exact absurd growthLeft.1 growth
  | grown _ grew inserted =>
      have fresh : table.detached.allocate 1 = table.allocate 1 := by
        simp only [RawTable.allocate, detached, len]
      rw [growOrRehash, grownGroups, rehashWith, unallocated, if_neg Bool.false_ne_true,
        if_neg Bool.false_ne_true, Option.some.injEq, fresh] at grew
      subst grew
      have growth : (table.allocate 1).growthLeft ≠ 0 := Nat.ne_of_gt (engine.maxLoadFor_pos 1 Nat.one_pos)
      obtain ⟨rfl, last, first⟩ := insertNoCheck_first inserted
      obtain ⟨head, chosen⟩ := @allocate_first _ _ _ _ _ _ table (hash key)
      rw [first.unique chosen]
      exact .home growth head

theorem isAllocated_allocate (numGroups : Nat) (positive : 0 < numGroups) :
    (table.allocate numGroups).isAllocated = true := by
  unfold isAllocated Engine.isAllocated
  cases engine with
  | inPlaceOverflow => exact decide_eq_true (Engine.inPlaceOverflow.maxLoadFor_pos _ positive)
  | ipo64 => rfl

theorem insertOrReplace_allocates (fuel : Nat) (value : V) (unallocated : table.isAllocated = false) :
    table.insertOrReplace fuel hash key value = (table.allocate 1).insertOrReplace fuel hash key value := by
  unfold insertOrReplace
  rw [unallocated, isAllocated_allocate 1 Nat.one_pos]
  rfl

theorem probed_agrees {fuel : Nat} {value : V} {probed : GenericMap (RawTable engine tag S K V) K}
    {final : Option V × GenericMap (RawTable engine tag S K V) K} (refines : table.Refines hash map)
    (absent : map key = none)
    (probing : (⟨table, hash⟩ : GenericMap (RawTable engine tag S K V) K).probedInsert fuel key value =
      some probed)
    (inserting : (⟨table, hash⟩ : GenericMap (RawTable engine tag S K V) K).insert fuel key value =
      some final) :
    final = (none, probed) := by
  obtain ⟨⟨result, later⟩, returned, same⟩ := Option.bind_eq_some_iff.mp inserting
  cases same
  change table.insertOrReplace fuel hash key value = some (result, later) at returned
  obtain ⟨answer, _⟩ := insertOrReplace_refines refines returned
  obtain ⟨builder, inserts⟩ := probedInsert_absent refines absent probing
  have reached : later = probed.table := by
    cases allocated : table.isAllocated with
    | true => exact (insertOrReplace_absent refines absent allocated returned).unique inserts
    | false =>
        have len := refines.valid.len_of_unallocated allocated
        rw [insertOrReplace_allocates fuel value allocated] at returned
        have plain := insertOrReplace_absent (allocate_refines ⟨0, rfl⟩ len) rfl
          (isAllocated_allocate 1 Nat.one_pos) returned
        exact plain.unique (inserts.allocate refines allocated)
  rw [answer, absent, reached]
  simp only [Prod.mk.injEq, true_and]
  cases probed
  cases builder
  rfl

theorem insert_returns (refines : table.Refines hash map) (value : V) :
    Returns fun fuel => (⟨table, hash⟩ : GenericMap (RawTable engine tag S K V) K).insert fuel key value :=
  Returns.bind (insertOrReplace_total refines key value) fun _ _ _ => .pure _

theorem probedInsert_returns (refines : table.Refines hash map) (value : V) :
    Returns fun fuel =>
      (⟨table, hash⟩ : GenericMap (RawTable engine tag S K V) K).probedInsert fuel key value := by
  refine Returns.bind (findForEntry_total refines (hash key) key) fun probe _ _ => ?_
  cases probe with
  | found slot => exact .pure _
  | vacant slot =>
      refine Returns.bind ?_ fun _ _ _ => .pure _
      cases slot with
      | some located => exact .pure _
      | none =>
          refine Returns.bind (ensureCapacity_total refines) fun grown fuel ensured => ?_
          have grownRefines := (ensureCapacity_refines refines ensured).1
          exact Returns.bind (insertNoCheck_total grownRefines _ key value) fun _ _ _ => .pure _

theorem probed_settles_iff {value : V} {next : GenericMap (RawTable engine tag S K V) K}
    (refines : table.Refines hash map) (absent : map key = none) :
    Settles (fun fuel =>
        (⟨table, hash⟩ : GenericMap (RawTable engine tag S K V) K).probedInsert fuel key value) next ↔
      Settles (fun fuel => (⟨table, hash⟩ : GenericMap (RawTable engine tag S K V) K).insert fuel key value)
        (none, next) := by
  constructor
  · intro settles
    exact @Returns.agree _ _ _ _ (fun next => (none, next)) (fun fuel result final =>
      probed_agrees refines absent) (insert_returns refines value) _ settles
  · intro settles
    refine @Returns.agree _ _ _ _ Prod.snd (fun fuel result final inserting probing => ?_)
      (probedInsert_returns refines value) _ settles
    rw [probed_agrees refines absent probing inserting]

theorem tryInsert_settles_iff {value : V} {next : GenericMap (RawTable engine tag S K V) K}
    (refines : table.Refines hash map) (absent : map key = none) (allocated : table.isAllocated = true) :
    Settles (fun fuel => (⟨table, hash⟩ : GenericMap (RawTable engine tag S K V) K).tryInsert fuel key value)
        (none, next) ↔
      Settles (fun fuel => (⟨table, hash⟩ : GenericMap (RawTable engine tag S K V) K).insert fuel key value)
        (none, next) := by
  have same := fun fuel => GenericMap.tryInsert_eq_probed (rawTableLaws hash) refines absent allocated fuel value
  simp only [same]
  rw [Settles.map_iff (Prod.mk_right_injective none)]
  exact probed_settles_iff refines absent

theorem groupsForCapacity_one (engine : Engine) : engine.groupsForCapacity 1 = 1 := by
  cases engine with
  | inPlaceOverflow => rfl
  | ipo64 => rfl

/-- An entry on an unallocated table allocates the group the insertion would. -/
theorem tryInsert_allocates (fuel : Nat) (value : V) (len : table.len = 0)
    (unallocated : table.isAllocated = false) :
    (⟨table, hash⟩ : GenericMap (RawTable engine tag S K V) K).tryInsert fuel key value =
      (⟨table.allocate 1, hash⟩ : GenericMap (RawTable engine tag S K V) K).tryInsert fuel key value := by
  have reserved : RawTableApi.reserve fuel hash table 1 = some (table.allocate 1) := by
    change table.reserve fuel hash 1 = _
    rw [reserve]
    simp only [unallocated, len, Nat.zero_add, Nat.one_pos, Bool.false_eq_true, ↓reduceIte,
      groupsForCapacity_one]
  have started : (⟨table, hash⟩ : GenericMap (RawTable engine tag S K V) K).allocate fuel =
      some (table.allocate 1) := by
    have unflagged : RawTableApi.isAllocated table = false := unallocated
    simp only [GenericMap.allocate, unflagged, Bool.false_eq_true, ↓reduceIte, reserved]
  have again : (⟨table.allocate 1, hash⟩ : GenericMap (RawTable engine tag S K V) K).allocate fuel =
      some (table.allocate 1) := if_pos (isAllocated_allocate 1 Nat.one_pos)
  simp only [GenericMap.tryInsert, GenericMap.entry, started, again]

/-- Both paths settle on the same table. -/
theorem sameInsertion (refines : table.Refines hash map) (absent : map key = none) (value : V) :
    (⟨table, hash⟩ : GenericMap (RawTable engine tag S K V) K).SameInsertion key value where
  entry next := by
    cases allocated : table.isAllocated with
    | true => exact tryInsert_settles_iff refines absent allocated
    | false =>
        have len := refines.valid.len_of_unallocated allocated
        have plain : ∀ fuel, (⟨table, hash⟩ : GenericMap (RawTable engine tag S K V) K).insert fuel key value =
            (⟨table.allocate 1, hash⟩ : GenericMap (RawTable engine tag S K V) K).insert fuel key value := by
          intro fuel
          have moved : RawTableApi.insertOrReplace fuel hash table key value =
              RawTableApi.insertOrReplace fuel hash (table.allocate 1) key value :=
            insertOrReplace_allocates fuel value allocated
          simp only [GenericMap.insert, moved]
        simp only [tryInsert_allocates _ value len allocated, plain]
        exact tryInsert_settles_iff (allocate_refines ⟨0, rfl⟩ len) rfl (isAllocated_allocate 1 Nat.one_pos)
  probed _ settles := (probed_settles_iff refines absent).mp settles
  allocated _ _ := probed_settles_iff refines absent

end Keyed

end RawTable

end Optimap.Tomb
