import Optimap.Map.EntryInsertion
import Optimap.Overflow.SingleBit

/-!
# Entry insertion into the overflow-bit table

The probe of an entry remembers the first free slot and up to eight full groups on
the way. Every group before that slot has its bit set already, so setting the bits
again changes nothing, and the loop of `insert_no_check` stops at the same slot.
-/

set_option autoImplicit false
set_option linter.unusedSectionVars false

namespace Optimap.Overflow

open Lib Hash Map

namespace RawTable

variable {L : GroupLayout} {S : Type → Type → Type} [KvStorage S] {K V : Type}
  {table : RawTable L S K V} {h : UInt64} {eq : K → Bool}

/-! ## Bits that are set already -/

theorem or_shift_of_and {byte amount : UInt8} (set : byte &&& 1 <<< amount ≠ 0) :
    byte ||| 1 <<< amount = byte := by
  have power : ((1 : UInt8) <<< amount).toNat = 2 ^ (amount.toNat % 8) := by
    rw [UInt8.toNat_shiftLeft, UInt8.toNat_one, Nat.shiftLeft_eq, one_mul]
    exact Nat.mod_eq_of_lt (Nat.pow_lt_pow_right (by decide) (Nat.mod_lt _ (by decide)))
  have bit : byte.toNat.testBit (amount.toNat % 8) = true := by
    apply and_two_pow_ne_zero
    intro zero
    apply set
    apply UInt8.toNat_inj.mp
    rw [UInt8.toNat_and, power, zero, UInt8.toNat_zero]
  apply UInt8.toNat_inj.mp
  rw [UInt8.toNat_or, power]
  apply Nat.eq_of_testBit_eq
  intro position
  rw [Nat.testBit_or, Nat.testBit_two_pow]
  by_cases here : amount.toNat % 8 = position
  · rw [← here, bit]
    rfl
  · simp [here]

theorem overflowMask_single (tags : UInt64) (gi : Nat) :
    ∃ amount : UInt8, L.overflowMask gi (L.tags.overflowChannel tags) = 1 <<< amount := by
  unfold GroupLayout.overflowMask
  cases L.overflow with
  | bitSeparate => exact ⟨_, rfl⟩
  | byteSeparate => exact L.tags.channel_single tags
  | embedded => exact L.tags.channel_single tags

theorem setOverflowBit_of_set {gi : Nat}
    (set : table.hasOverflowBit gi (L.tags.overflowChannel h) = true) :
    table.setOverflowBit gi (L.tags.overflowChannel h) = table := by
  obtain ⟨amount, single⟩ := @overflowMask_single L h gi
  simp only [hasOverflowBit, bne_iff_ne] at set
  rw [single] at set
  have same : table.ctrl.read (L.overflowOffset table.mask gi) |||
      L.overflowMask gi (L.tags.overflowChannel h) = table.ctrl.read (L.overflowOffset table.mask gi) := by
    rw [single]
    exact or_shift_of_and set
  have written : table.ctrl.write (L.overflowOffset table.mask gi)
      (table.ctrl.read (L.overflowOffset table.mask gi)) = table.ctrl := by
    cases table.ctrl with
    | sentinel => rfl
    | alloc bytes =>
        apply congrArg Ctrl.alloc
        funext offset
        unfold setCell
        split
        · rename_i here
          rw [here]
          rfl
        · rfl
  simp only [setOverflowBit, same, written]

theorem setBits_of_set (groups : List Nat)
    (set : ∀ gi ∈ groups, table.hasOverflowBit gi (L.tags.overflowChannel h) = true) :
    setBits (L.tags.overflowChannel h) groups table = table := by
  induction groups with
  | nil => rfl
  | cons gi groups ih =>
      unfold setBits at ih ⊢
      rw [List.foldl_cons, setOverflowBit_of_set (set gi List.mem_cons_self)]
      exact ih fun other member => set other (List.mem_cons_of_mem _ member)

/-- By induction on the rounds left: bit `i` of the mask stands for probe position
`probe + i`. -/
theorem setFullMask_of_set (rounds : Nat) :
    ∀ {probe : Nat} {mask : UInt8}, (∀ bit, mask.toNat.testBit bit = true →
        table.hasOverflowBit (table.probeAt h (probe + bit)) (L.tags.overflowChannel h) = true) →
      setFullMask (L.tags.overflowChannel h) rounds table (table.probeAt h probe) probe mask = table := by
  induction rounds with
  | zero => intro probe mask _; rfl
  | succ rounds ih =>
      intro probe mask set
      have shifted : ∀ bit, (mask >>> 1).toNat.testBit bit = true → table.hasOverflowBit
          (table.probeAt h (probe + 1 + bit)) (L.tags.overflowChannel h) = true := by
        intro bit here
        rw [UInt8.toNat_shiftRight, Nat.testBit_shiftRight] at here
        have moved := set (bit + 1) (by simpa [Nat.add_comm] using here)
        rwa [show probe + 1 + bit = probe + (bit + 1) by omega]
      have home : (if mask &&& 1 ≠ 0 then
          table.setOverflowBit (table.probeAt h probe) (L.tags.overflowChannel h) else table) = table := by
        split
        · rename_i low
          apply setOverflowBit_of_set
          apply set 0
          apply and_two_pow_ne_zero
          intro zero
          exact low (UInt8.toNat_inj.mp (by rw [UInt8.toNat_and]; exact zero))
        · rfl
      unfold setFullMask
      split
      · rfl
      · simp only [home, nextGroup_probeAt]
        exact ih shifted

/-! ## The first free slot -/

/-- The lowest empty slot of the first group with one, behind groups whose bit is
set. -/
structure FirstEmpty (table : RawTable L S K V) (h : UInt64) (slot : Slot) (last : Nat) : Prop where
  reached : slot.1 = table.probeAt h last
  head : (table.matchEmpty slot.1).head? = some slot.2
  full : ∀ earlier < last, table.matchEmpty (table.probeAt h earlier) = []
  passed : table.Passed h last

theorem FirstEmpty.unique {slot other : Slot} {last otherLast : Nat} (first : table.FirstEmpty h slot last)
    (reached : other.1 = table.probeAt h otherLast)
    (head : (table.matchEmpty other.1).head? = some other.2)
    (full : ∀ earlier < otherLast, table.matchEmpty (table.probeAt h earlier) = []) :
    other = slot ∧ otherLast = last := by
  have behind : ¬ last < otherLast := by
    intro before
    have head := first.head
    rw [first.reached, full last before] at head
    cases head
  have ahead : ¬ otherLast < last := by
    intro before
    rw [reached, first.full otherLast before] at head
    cases head
  have same : otherLast = last := by omega
  subst same
  have groups : other.1 = slot.1 := reached.trans first.reached.symm
  rw [groups, first.head] at head
  exact ⟨Prod.ext groups (Option.some.inj head).symm, rfl⟩

/-- The loop without check fills that slot and leaves every other byte alone. -/
theorem FirstEmpty.insertNoCheck_eq {slot chosen : Slot} {last fuel : Nat} {key : K} {value : V}
    {later : RawTable L S K V} (first : table.FirstEmpty h slot last)
    (returned : table.insertNoCheck fuel h key value = some (chosen, later)) :
    chosen = slot ∧ later = table.fillSlot h slot key value := by
  obtain ⟨end_, _, reached, head, full, result⟩ :=
    @insertLoop_returns _ _ _ _ _ _ _ _ fuel table 0 _ _ returned
  obtain ⟨rfl, rfl⟩ := first.unique reached head
    fun earlier before => full _ (mem_probeRange.mpr ⟨earlier, Nat.zero_le _, before, rfl⟩)
  refine ⟨rfl, ?_⟩
  rw [result, setBits_of_set]
  intro gi member
  obtain ⟨probe, _, before, rfl⟩ := mem_probeRange.mp member
  exact first.passed probe before

/-- By induction on the rounds left: once a free slot is remembered it is the one
returned, and until then every group seen was full. -/
theorem findOrLocateOverflow_first (fuel : Nat) :
    ∀ {probe : Nat} {firstEmpty : Option Slot} {fullMask mask : UInt8} {slot : Slot},
      table.Passed h probe → (∀ remembered, firstEmpty = some remembered →
        ∃ last, table.FirstEmpty h remembered last) →
      (firstEmpty = none → ∀ earlier < probe, table.matchEmpty (table.probeAt h earlier) = []) →
      table.findOrLocateOverflow h eq fuel (table.probeAt h probe) probe firstEmpty fullMask =
        some (.insertSlot slot mask) →
      ∃ last, table.FirstEmpty h slot last := by
  induction fuel with
  | zero => intro probe firstEmpty fullMask mask slot _ _ _ returned; cases returned
  | succ fuel ih =>
      intro probe firstEmpty fullMask mask slot passed known unknown returned
      unfold findOrLocateOverflow at returned
      split at returned
      · cases returned
      · simp only at returned
        generalize located : firstEmpty.or ((table.matchEmpty (table.probeAt h probe)).head?.map
          fun si => (table.probeAt h probe, si)) = slot? at returned
        have laterKnown : ∀ remembered, slot? = some remembered →
            ∃ last, table.FirstEmpty h remembered last := by
          intro remembered chosen
          rw [← located, Option.or_eq_some_iff] at chosen
          cases chosen with
          | inl earlier => exact known remembered earlier
          | inr here =>
              obtain ⟨si, head, rfl⟩ := Option.map_eq_some_iff.mp here.2
              exact ⟨probe, rfl, head, unknown here.1, passed⟩
        have laterUnknown : slot? = none →
            ∀ earlier < probe + 1, table.matchEmpty (table.probeAt h earlier) = [] := by
          intro missing earlier before
          rw [← located, Option.or_eq_none_iff, Option.map_eq_none_iff, List.head?_eq_none_iff] at missing
          rcases Nat.lt_succ_iff_lt_or_eq.mp before with old | rfl
          · exact unknown missing.1 earlier old
          · exact missing.2
        split at returned
        · rename_i set
          rw [nextGroup_probeAt] at returned
          exact ih (passed.extend set) laterKnown laterUnknown returned
        · split at returned
          · rename_i remembered
            cases returned
            exact laterKnown _ rfl
          · cases returned

theorem findOrLocate_first {fuel : Nat} {slot : Slot} {mask : UInt8}
    (returned : table.findOrLocate fuel h eq = some (.insertSlot slot mask)) :
    ∃ last, table.FirstEmpty h slot last := by
  have start : table.Passed h 0 := fun earlier before => absurd before (Nat.not_lt_zero earlier)
  have home : ∀ si, (table.matchEmpty (table.groupIndex h)).head? = some si →
      table.FirstEmpty h (table.groupIndex h, si) 0 := fun si head =>
    ⟨rfl, head, fun earlier before => absurd before (Nat.not_lt_zero earlier), start⟩
  unfold findOrLocate at returned
  simp only at returned
  split at returned
  · cases returned
  · split at returned
    · rename_i si head
      split at returned
      · rename_i set
        refine findOrLocateOverflow_first fuel (start.extend set) ?_ (by simp) returned
        intro remembered chosen
        cases chosen
        exact ⟨0, home si head⟩
      · cases returned
        exact ⟨0, home si head⟩
    · rename_i full
      split at returned
      · rename_i set
        refine findOrLocateOverflow_first fuel (start.extend set) (by simp) ?_ returned
        intro _ earlier before
        have zero : earlier = 0 := by omega
        rw [zero]
        exact List.head?_eq_none_iff.mp full
      · cases returned

/-! ## Both paths -/

section Keyed
variable [DecidableEq K] {hash : K → UInt64} {map : PMap K V} {key : K}

theorem findInGroup_absent (refines : table.Refines hash map) (absent : map key = none) {gi : Nat}
    (bound : gi ≤ table.mask) : table.findInGroup (hash key) (fun stored => stored = key) gi = none := by
  cases found : table.findInGroup (hash key) (fun stored => stored = key) gi with
  | none => rfl
  | some si =>
      obtain ⟨value, holds⟩ := Matches.holds refines.valid (findInGroup_matches bound found)
      rw [(refines.stores.lookup key value).mpr ⟨_, holds⟩] at absent
      cases absent

theorem findByHash_absent {fuel : Nat} {found : Option Slot} (refines : table.Refines hash map)
    (absent : map key = none)
    (returned : table.findByHash fuel (hash key) (fun stored => stored = key) = some found) :
    found = none := by
  have outcome := findByHash_refines refines returned
  cases found with
  | none => rfl
  | some slot =>
      obtain ⟨value, holds⟩ := outcome
      rw [(refines.stores.lookup key value).mpr ⟨_, holds⟩] at absent
      cases absent

/-- The table an insertion of an absent key leaves: the first free slot filled, or the
grown table filled by the loop without check. -/
inductive InsertsAbsent (fuel : Nat) (hash : K → UInt64) (table : RawTable L S K V) (key : K) (value : V) :
    RawTable L S K V → Prop where
  | first {slot : Slot} {last : Nat} : table.FirstEmpty (hash key) slot last → table.len < table.maxLoad →
      InsertsAbsent fuel hash table key value (table.fillSlot (hash key) slot key value)
  | grown {grown later : RawTable L S K V} {slot : Slot} : ensureCapacity fuel hash table = some grown →
      grown.insertNoCheck fuel (hash key) key value = some (slot, later) →
      InsertsAbsent fuel hash table key value later

theorem InsertsAbsent.unique {fuel : Nat} {value : V} {left right : RawTable L S K V}
    (leftward : InsertsAbsent fuel hash table key value left)
    (rightward : InsertsAbsent fuel hash table key value right) : left = right := by
  have unchanged : ∀ {grown : RawTable L S K V}, table.len < table.maxLoad →
      ensureCapacity fuel hash table = some grown → grown = table := by
    intro grown room ensured
    rw [ensureCapacity, if_neg (by omega)] at ensured
    exact (Option.some.inj ensured).symm
  cases leftward with
  | first leftFirst room =>
      cases rightward with
      | first rightFirst _ =>
          rw [(rightFirst.unique leftFirst.reached leftFirst.head leftFirst.full).1]
      | grown ensured inserted =>
          cases unchanged room ensured
          exact (leftFirst.insertNoCheck_eq inserted).2.symm
  | grown ensured inserted =>
      cases rightward with
      | first rightFirst room =>
          cases unchanged room ensured
          exact (rightFirst.insertNoCheck_eq inserted).2
      | grown otherEnsured otherInserted =>
          rw [ensured, Option.some.injEq] at otherEnsured
          subst otherEnsured
          rw [inserted, Option.some.injEq, Prod.mk.injEq] at otherInserted
          exact otherInserted.2

theorem Exhausted.clears (exhausted : table.Exhausted h eq) : table.Clears h := by
  obtain ⟨last, _, clear⟩ := exhausted
  exact ⟨last, clear⟩

theorem home_first {si : Nat} (head : (table.matchEmpty (table.groupIndex h)).head? = some si) :
    table.FirstEmpty h (table.groupIndex h, si) 0 where
  reached := rfl
  head := head
  full earlier before := absurd before (Nat.not_lt_zero earlier)
  passed earlier before := absurd before (Nat.not_lt_zero earlier)

/-- What a plain insertion of an absent key into a loaded table went through. -/
theorem insertOrReplace_absent {fuel : Nat} {value : V} {result : Option V} {later : RawTable L S K V}
    (refines : table.Refines hash map) (absent : map key = none) (loaded : table.maxLoad ≠ 0)
    (returned : table.insertOrReplace fuel hash key value = some (result, later)) :
    table.Clears (hash key) ∧ InsertsAbsent fuel hash table key value later := by
  unfold insertOrReplace at returned
  simp only [if_neg loaded] at returned
  split at returned
  · rename_i atCapacity
    obtain ⟨found, looked, returned⟩ := Option.bind_eq_some_iff.mp returned
    cases findByHash_absent refines absent looked
    obtain ⟨grown, grew, returned⟩ := Option.bind_eq_some_iff.mp returned
    obtain ⟨⟨slot, filled⟩, inserted, returned⟩ := Option.bind_eq_some_iff.mp returned
    cases returned
    have ensured : ensureCapacity fuel hash table = some grown := by
      rw [ensureCapacity, if_pos atCapacity]
      exact grew
    exact ⟨Exhausted.clears (findByHash_returns looked), .grown ensured inserted⟩
  · rename_i below
    rw [findInGroup_absent refines absent (table.groupIndex_le _)] at returned
    simp only at returned
    split at returned
    · rename_i si head clear
      cases returned
      exact ⟨⟨0, clear⟩, .first (home_first head) (by omega)⟩
    · obtain ⟨found, looked, returned⟩ := Option.bind_eq_some_iff.mp returned
      cases findByHash_absent refines absent looked
      obtain ⟨grown, grew, returned⟩ := Option.bind_eq_some_iff.mp returned
      obtain ⟨⟨slot, filled⟩, inserted, returned⟩ := Option.bind_eq_some_iff.mp returned
      cases returned
      rw [if_neg below] at grew
      have ensured : ensureCapacity fuel hash table = some grown := by
        rw [ensureCapacity, if_neg below]
        exact grew
      exact ⟨Exhausted.clears (findByHash_returns looked), .grown ensured inserted⟩

/-- What the probe of an absent key found: the first free slot with a mask of groups
whose bit is set, or nothing. -/
theorem findForEntry_absent {fuel : Nat} {probe : EntryProbe} (refines : table.Refines hash map)
    (absent : map key = none) (returned : table.findForEntry fuel (hash key) key = some probe) :
    table.Clears (hash key) ∧ ((∃ slot mask last, probe = .vacant (some (slot, mask)) ∧
      table.FirstEmpty (hash key) slot last ∧ table.MaskPassed (hash key) mask ∧ table.len < table.maxLoad) ∨
      probe = .vacant none) := by
  have outcome := findForEntry_refines refines returned
  unfold findForEntry at returned
  split at returned
  · obtain ⟨found, looked, returned⟩ := Option.bind_eq_some_iff.mp returned
    cases findByHash_absent refines absent looked
    cases returned
    exact ⟨Exhausted.clears (findByHash_returns looked), .inr rfl⟩
  · simp only [findInGroup_absent refines absent (table.groupIndex_le _)] at returned
    split at returned
    · rename_i si head clear
      cases returned
      exact ⟨⟨0, clear⟩, .inl ⟨_, _, 0, rfl, home_first head, outcome.2.2.2, outcome.2.2.1⟩⟩
    · obtain ⟨located, ran, returned⟩ := Option.bind_eq_some_iff.mp returned
      have searched := findOrLocate_returns ran
      cases located with
      | found slot =>
          cases returned
          obtain ⟨value, holds⟩ := outcome
          rw [(refines.stores.lookup key value).mpr ⟨slot, holds⟩] at absent
          cases absent
      | insertSlot slot mask =>
          cases returned
          obtain ⟨last, first⟩ := findOrLocate_first ran
          exact ⟨searched.2.1.clears, .inl ⟨slot, mask, last, rfl, first, outcome.2.2.2, outcome.2.2.1⟩⟩
      | notFound =>
          cases returned
          exact ⟨Exhausted.clears searched, .inr rfl⟩

theorem insertAt_of_passed {slot : Slot} {mask : UInt8} (passed : table.MaskPassed (hash key) mask)
    (value : V) : table.insertAt (hash key) slot key value mask = table.fillSlot (hash key) slot key value := by
  have unchanged : setFullMask (L.tags.overflowChannel (hash key)) 8 table (table.groupIndex (hash key)) 0
      mask = table := by
    apply @setFullMask_of_set L S _ K V table (hash key) 8 0 mask
    intro bit set
    rw [Nat.zero_add]
    exact passed bit set
  rw [insertAt, unchanged]

/-- What inserting an absent key through an entry went through. -/
theorem probedInsert_absent {fuel : Nat} {value : V} {next : GenericMap (RawTable L S K V) K}
    (refines : table.Refines hash map) (absent : map key = none)
    (returned : (⟨table, hash⟩ : GenericMap (RawTable L S K V) K).probedInsert fuel key value = some next) :
    table.Clears (hash key) ∧ next.hashBuilder = hash ∧
      InsertsAbsent fuel hash table key value next.table := by
  obtain ⟨probe, located, commit⟩ := Option.bind_eq_some_iff.mp returned
  obtain ⟨clears, found⟩ := findForEntry_absent refines absent located
  refine ⟨clears, ?_⟩
  cases found with
  | inl first =>
      obtain ⟨slot, mask, last, rfl, first, passed, room⟩ := first
      obtain ⟨⟨chosen, inserted⟩, filled, same⟩ := Option.bind_eq_some_iff.mp commit
      cases same
      cases filled
      refine ⟨rfl, ?_⟩
      change InsertsAbsent fuel hash table key value (table.insertAt (hash key) slot key value mask)
      rw [insertAt_of_passed passed]
      exact .first first room
  | inr missing =>
      subst missing
      obtain ⟨⟨chosen, inserted⟩, growing, same⟩ := Option.bind_eq_some_iff.mp commit
      cases same
      obtain ⟨grown, ensured, growing⟩ := Option.bind_eq_some_iff.mp growing
      obtain ⟨⟨slot, later⟩, filled, same⟩ := Option.bind_eq_some_iff.mp growing
      cases same
      exact ⟨rfl, .grown ensured filled⟩

/-! ## Unallocated tables -/

theorem groupsForCapacity_one (L : GroupLayout) : L.groupsForCapacity 1 = 1 := by
  have positive := L.loadFactorNum_pos
  have room := L.load_room
  have size := L.groupSize_pos
  have slots : (1 * L.loadFactorDen + L.loadFactorNum - 1) / L.loadFactorNum ≤ L.groupSize := by
    apply Nat.le_of_lt_succ
    have expanded : L.groupSize.succ * L.loadFactorNum = L.groupSize * L.loadFactorNum + L.loadFactorNum :=
      Nat.succ_mul _ _
    rw [Nat.div_lt_iff_lt_mul positive]
    omega
  have groups : ((1 * L.loadFactorDen + L.loadFactorNum - 1) / L.loadFactorNum + L.groupSize - 1) /
      L.groupSize ≤ 1 := by
    apply Nat.le_of_lt_succ
    rw [Nat.div_lt_iff_lt_mul size]
    omega
  unfold GroupLayout.groupsForCapacity groupsFor nextPowerOfTwo
  exact if_pos groups

theorem insertOrReplace_allocates (fuel : Nat) (value : V) (unloaded : table.maxLoad = 0) :
    table.insertOrReplace fuel hash key value = (table.allocate 1).insertOrReplace fuel hash key value := by
  have loaded : (table.allocate 1).maxLoad ≠ 0 := Nat.ne_of_gt (L.maxLoadFor_pos 1 Nat.one_pos)
  unfold insertOrReplace
  rw [if_pos unloaded, if_neg loaded]

/-- Growing a table without load is allocating one group, as the insertion does. -/
theorem InsertsAbsent.allocate {fuel : Nat} {value : V} {later : RawTable L S K V} (len : table.len = 0)
    (unloaded : table.maxLoad = 0) (inserts : InsertsAbsent fuel hash table key value later) :
    InsertsAbsent fuel hash (table.allocate 1) key value later := by
  cases inserts with
  | first _ room => omega
  | grown ensured inserted =>
      have fresh : table.detached.allocate 1 = table.allocate 1 := by
        simp only [RawTable.allocate, detached, len]
      have unallocated : table.isAllocated = false := by
        simp only [isAllocated, unloaded, Nat.lt_irrefl, decide_false]
      rw [ensureCapacity, if_pos (by omega), if_pos unloaded, rehashWith, unallocated,
        if_neg Bool.false_ne_true, Option.some.injEq, fresh] at ensured
      subst ensured
      have room : ¬ (table.allocate 1).maxLoad ≤ (table.allocate 1).len := by
        have positive := L.maxLoadFor_pos 1 Nat.one_pos
        simp only [RawTable.allocate, len]
        omega
      exact .grown (by rw [ensureCapacity, if_neg room]) inserted

theorem probed_agrees {fuel : Nat} {value : V} {probed : GenericMap (RawTable L S K V) K}
    {final : Option V × GenericMap (RawTable L S K V) K} (refines : table.Refines hash map)
    (absent : map key = none)
    (probing : (⟨table, hash⟩ : GenericMap (RawTable L S K V) K).probedInsert fuel key value = some probed)
    (inserting : (⟨table, hash⟩ : GenericMap (RawTable L S K V) K).insert fuel key value = some final) :
    final = (none, probed) := by
  obtain ⟨⟨result, later⟩, returned, same⟩ := Option.bind_eq_some_iff.mp inserting
  cases same
  change table.insertOrReplace fuel hash key value = some (result, later) at returned
  obtain ⟨answer, _⟩ := insertOrReplace_refines refines returned
  obtain ⟨_, builder, inserts⟩ := probedInsert_absent refines absent probing
  have reached : later = probed.table := by
    by_cases unloaded : table.maxLoad = 0
    · have lenLe := refines.valid.len_le
      have len : table.len = 0 := by omega
      rw [insertOrReplace_allocates fuel value unloaded] at returned
      have plain := insertOrReplace_absent (allocate_refines ⟨0, rfl⟩ len) (by rfl)
        (Nat.ne_of_gt (L.maxLoadFor_pos 1 Nat.one_pos)) returned
      exact plain.2.unique (inserts.allocate len unloaded)
    · exact (insertOrReplace_absent refines absent unloaded returned).2.unique inserts
  rw [answer, absent, reached]
  simp only [Prod.mk.injEq, true_and]
  cases probed
  cases builder
  rfl

theorem insert_returns {value : V} (refines : table.Refines hash map)
    (clears : table.maxLoad ≠ 0 → table.Clears (hash key)) :
    Returns fun fuel => (⟨table, hash⟩ : GenericMap (RawTable L S K V) K).insert fuel key value :=
  Returns.bind (insertOrReplace_total refines clears value) fun _ _ _ => .pure _

theorem probedInsert_returns {value : V} (refines : table.Refines hash map)
    (clears : table.Clears (hash key)) :
    Returns fun fuel => (⟨table, hash⟩ : GenericMap (RawTable L S K V) K).probedInsert fuel key value := by
  refine Returns.bind (findForEntry_total clears key) fun probe _ _ => ?_
  cases probe with
  | found slot => exact .pure _
  | vacant slot =>
      refine Returns.bind ?_ fun _ _ _ => .pure _
      cases slot with
      | some located => exact .pure _
      | none =>
          refine Returns.bind (.ite (fun _ => growAndRehash_total refines) fun _ => .pure table)
            fun grown fuel ensured => ?_
          have grownRefines := (ensureCapacity_refines refines ensured).1
          exact Returns.bind (insertNoCheck_total grownRefines.valid _ key value) fun _ _ _ => .pure _

theorem probed_settles {value : V} {next : GenericMap (RawTable L S K V) K} (refines : table.Refines hash map)
    (absent : map key = none)
    (settles : Settles (fun fuel =>
      (⟨table, hash⟩ : GenericMap (RawTable L S K V) K).probedInsert fuel key value) next) :
    Settles (fun fuel => (⟨table, hash⟩ : GenericMap (RawTable L S K V) K).insert fuel key value)
      (none, next) := by
  obtain ⟨fuel, returned⟩ := settles.returned
  obtain ⟨clears, _⟩ := probedInsert_absent refines absent returned
  exact @Returns.agree _ _ _ _ (fun next => (none, next)) (fun fuel result final =>
    probed_agrees refines absent) (insert_returns refines fun _ => clears) _ settles

theorem insert_settles {value : V} {next : GenericMap (RawTable L S K V) K} (refines : table.Refines hash map)
    (absent : map key = none) (loaded : table.maxLoad ≠ 0)
    (settles : Settles (fun fuel =>
      (⟨table, hash⟩ : GenericMap (RawTable L S K V) K).insert fuel key value) (none, next)) :
    Settles (fun fuel => (⟨table, hash⟩ : GenericMap (RawTable L S K V) K).probedInsert fuel key value)
      next := by
  obtain ⟨fuel, returned⟩ := settles.returned
  obtain ⟨⟨result, later⟩, inserted, _⟩ := Option.bind_eq_some_iff.mp returned
  obtain ⟨clears, _⟩ := insertOrReplace_absent refines absent loaded inserted
  refine @Returns.agree _ _ _ _ Prod.snd (fun fuel result final inserting probing => ?_)
    (probedInsert_returns refines clears) _ settles
  rw [probed_agrees refines absent probing inserting]

theorem tryInsert_settles_iff {value : V} {next : GenericMap (RawTable L S K V) K}
    (refines : table.Refines hash map) (absent : map key = none) (loaded : table.maxLoad ≠ 0) :
    Settles (fun fuel => (⟨table, hash⟩ : GenericMap (RawTable L S K V) K).tryInsert fuel key value)
        (none, next) ↔
      Settles (fun fuel => (⟨table, hash⟩ : GenericMap (RawTable L S K V) K).insert fuel key value)
        (none, next) := by
  have allocated : RawTableApi.isAllocated table = true := decide_eq_true (Nat.pos_of_ne_zero loaded)
  have same := fun fuel => GenericMap.tryInsert_eq_probed (rawTableLaws hash) refines absent allocated fuel value
  simp only [same]
  rw [Settles.map_iff (Prod.mk_right_injective none)]
  exact ⟨probed_settles refines absent, insert_settles refines absent loaded⟩

/-- An entry on a table without load allocates the group the insertion would. -/
theorem tryInsert_allocates (fuel : Nat) (value : V) (len : table.len = 0) (unloaded : table.maxLoad = 0) :
    (⟨table, hash⟩ : GenericMap (RawTable L S K V) K).tryInsert fuel key value =
      (⟨table.allocate 1, hash⟩ : GenericMap (RawTable L S K V) K).tryInsert fuel key value := by
  have unallocated : RawTableApi.isAllocated table = false := by
    change decide (0 < table.maxLoad) = false
    simp only [unloaded, Nat.lt_irrefl, decide_false]
  have allocated : RawTableApi.isAllocated (table.allocate 1) = true :=
    decide_eq_true (L.maxLoadFor_pos 1 Nat.one_pos)
  have reserved : RawTableApi.reserve fuel hash table 1 = some (table.allocate 1) := by
    change table.reserve fuel hash 1 = _
    simp only [reserve, unloaded, len, Nat.zero_add, Nat.one_pos, ↓reduceIte, groupsForCapacity_one]
  have started : (⟨table, hash⟩ : GenericMap (RawTable L S K V) K).allocate fuel = some (table.allocate 1) := by
    simp only [GenericMap.allocate, unallocated, Bool.false_eq_true, ↓reduceIte, reserved]
  have again : (⟨table.allocate 1, hash⟩ : GenericMap (RawTable L S K V) K).allocate fuel =
      some (table.allocate 1) := if_pos allocated
  simp only [GenericMap.tryInsert, GenericMap.entry, started, again]

/-- Both paths settle on the same table, or neither returns. -/
theorem sameInsertion (refines : table.Refines hash map) (absent : map key = none) (value : V) :
    (⟨table, hash⟩ : GenericMap (RawTable L S K V) K).SameInsertion key value where
  entry next := by
    by_cases unloaded : table.maxLoad = 0
    · have lenLe := refines.valid.len_le
      have len : table.len = 0 := by omega
      have plain : ∀ fuel, (⟨table, hash⟩ : GenericMap (RawTable L S K V) K).insert fuel key value =
          (⟨table.allocate 1, hash⟩ : GenericMap (RawTable L S K V) K).insert fuel key value := by
        intro fuel
        have moved : RawTableApi.insertOrReplace fuel hash table key value =
            RawTableApi.insertOrReplace fuel hash (table.allocate 1) key value :=
          insertOrReplace_allocates fuel value unloaded
        simp only [GenericMap.insert, moved]
      simp only [tryInsert_allocates _ value len unloaded, plain]
      exact tryInsert_settles_iff (allocate_refines ⟨0, rfl⟩ len) rfl
        (Nat.ne_of_gt (L.maxLoadFor_pos 1 Nat.one_pos))
    · exact tryInsert_settles_iff refines absent unloaded
  probed _ settles := probed_settles refines absent settles
  allocated allocated next :=
    ⟨probed_settles refines absent,
      insert_settles refines absent (Nat.ne_of_gt (of_decide_eq_true allocated))⟩

end Keyed

end RawTable

end Optimap.Overflow
