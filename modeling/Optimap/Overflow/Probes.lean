import Optimap.Overflow.SlotUpdates

/-!
# The probe loops

What each probe loop has seen when it returns. A lookup that stops on a clear
bit has scanned every group a key with that hash can be stored in.
-/

set_option autoImplicit false
set_option linter.unusedSectionVars false

namespace Optimap.Overflow

open Lib Hash Map

namespace RawTable

variable {L : GroupLayout} {S : Type → Type → Type} [KvStorage S] {K V : Type}
  {table : RawTable L S K V} {h : UInt64} {eq : K → Bool}

/-- The slot's tag and key match. -/
def Matches (table : RawTable L S K V) (h : UInt64) (eq : K → Bool) (slot : Slot) : Prop :=
  table.InRange slot ∧ table.metaByte slot.1 slot.2 = L.tags.tag h ∧
    ∃ key, table.key slot = some key ∧ eq key = true

/-- No group up to the last probe position has a match. -/
def Scanned (table : RawTable L S K V) (h : UInt64) (eq : K → Bool) (last : Nat) : Prop :=
  ∀ probe < last, table.findInGroup h eq (table.probeAt h probe) = none

/-- The lookup may stop: a scanned group has the channel's bit clear. -/
def Exhausted (table : RawTable L S K V) (h : UInt64) (eq : K → Bool) : Prop :=
  ∃ last, table.Scanned h eq (last + 1) ∧
    table.hasOverflowBit (table.probeAt h last) (L.tags.overflowChannel h) = false

/-- An empty slot in a group the hash may be stored in. -/
def Vacant (table : RawTable L S K V) (h : UInt64) (slot : Slot) : Prop :=
  table.InRange slot ∧ table.metaByte slot.1 slot.2 = EMPTY ∧
    ∃ probe, table.probeAt h probe = slot.1 ∧ table.Passed h probe

/-- The groups a mask of full groups stands for have the channel's bit set. -/
def MaskPassed (table : RawTable L S K V) (h : UInt64) (mask : UInt8) : Prop :=
  ∀ probe, mask.toNat.testBit probe = true →
    table.hasOverflowBit (table.probeAt h probe) (L.tags.overflowChannel h) = true

/-- What a lookup that returned has established. -/
def FindOutcome (table : RawTable L S K V) (h : UInt64) (eq : K → Bool) : Option Slot → Prop
  | some slot => table.Matches h eq slot
  | none => table.Exhausted h eq

/-- What a combined lookup and search for a free slot has established. -/
def LocateOutcome (table : RawTable L S K V) (h : UInt64) (eq : K → Bool) : FindOrLocateResult → Prop
  | .found slot => table.Matches h eq slot
  | .insertSlot slot mask => table.Vacant h slot ∧ table.Exhausted h eq ∧ table.MaskPassed h mask
  | .notFound => table.Exhausted h eq

theorem findInGroup_matches {gi si : Nat} (bound : gi ≤ table.mask)
    (found : table.findInGroup h eq gi = some si) : table.Matches h eq (gi, si) := by
  obtain ⟨inside, tag, key, stored, equal⟩ := findInGroup_eq_some found
  exact ⟨⟨bound, inside⟩, tag, key, stored, equal⟩

theorem Scanned.extend {last : Nat} (scanned : table.Scanned h eq last)
    (none_here : table.findInGroup h eq (table.probeAt h last) = none) :
    table.Scanned h eq (last + 1) := by
  intro probe below
  rcases Nat.lt_succ_iff_lt_or_eq.mp below with before | rfl
  · exact scanned probe before
  · exact none_here

theorem matchEmpty_head_empty {gi si : Nat} (bound : gi ≤ table.mask)
    (head : (table.matchEmpty gi).head? = some si) :
    table.InRange (gi, si) ∧ table.metaByte gi si = EMPTY := by
  have member := mem_matchEmpty.mp (List.mem_of_head? head)
  exact ⟨⟨bound, member.1⟩, member.2⟩

theorem matchEmpty_head_vacant {probe si : Nat} (passed : table.Passed h probe)
    (head : (table.matchEmpty (table.probeAt h probe)).head? = some si) :
    table.Vacant h (table.probeAt h probe, si) := by
  obtain ⟨inside, empty⟩ := matchEmpty_head_empty (table.probeAt_le h probe) head
  exact ⟨inside, empty, probe, rfl, passed⟩

theorem findLoop_returns (fuel : Nat) :
    ∀ {probe : Nat} {result : Option Slot}, table.Scanned h eq probe →
      table.findLoop h eq fuel (table.probeAt h probe) probe = some result →
      table.FindOutcome h eq result := by
  induction fuel with
  | zero => intro probe result _ returned; cases returned
  | succ fuel ih =>
      intro probe result scanned returned
      unfold findLoop at returned
      split at returned
      · rename_i si found
        cases returned
        exact findInGroup_matches (table.probeAt_le h probe) found
      · rename_i missed
        have further := scanned.extend missed
        split at returned
        · rw [nextGroup_probeAt] at returned
          exact ih further returned
        · rename_i clear
          cases returned
          exact ⟨probe, further, by simpa using clear⟩

theorem findByHash_returns {fuel : Nat} {result : Option Slot}
    (returned : table.findByHash fuel h eq = some result) :
    table.FindOutcome h eq result :=
  @findLoop_returns _ _ _ _ _ _ _ _ fuel 0 _ (by intro probe below; omega) returned

theorem testBit_or_shift {mask : UInt8} {probe bit : Nat} (small : probe < 8)
    (set : (mask ||| 1 <<< UInt8.ofNat probe).toNat.testBit bit = true) :
    mask.toNat.testBit bit = true ∨ bit = probe := by
  have amount : (UInt8.ofNat probe).toNat % 8 = probe := by
    rw [UInt8.toNat_ofNat']
    omega
  have power : ((1 : UInt8) <<< UInt8.ofNat probe).toNat = 2 ^ probe := by
    rw [UInt8.toNat_shiftLeft, amount, UInt8.toNat_one, Nat.shiftLeft_eq, one_mul]
    exact Nat.mod_eq_of_lt (Nat.pow_lt_pow_right (by decide) small)
  rw [UInt8.toNat_or, power, Nat.testBit_or, Bool.or_eq_true, Nat.testBit_two_pow] at set
  exact set.imp_right fun equal => (of_decide_eq_true equal).symm

theorem findOrLocateOverflow_returns (fuel : Nat) :
    ∀ {probe : Nat} {firstEmpty : Option Slot} {fullMask : UInt8} {result : FindOrLocateResult},
      table.Scanned h eq probe → table.Passed h probe →
      (∀ slot, firstEmpty = some slot → table.Vacant h slot) → table.MaskPassed h fullMask →
      table.findOrLocateOverflow h eq fuel (table.probeAt h probe) probe firstEmpty fullMask =
        some result →
      table.LocateOutcome h eq result := by
  induction fuel with
  | zero => intro probe firstEmpty fullMask result _ _ _ _ returned; cases returned
  | succ fuel ih =>
      intro probe firstEmpty fullMask result scanned passed vacant maskPassed returned
      unfold findOrLocateOverflow at returned
      split at returned
      · rename_i si found
        cases returned
        exact findInGroup_matches (table.probeAt_le h probe) found
      · rename_i missed
        have further := scanned.extend missed
        simp only at returned
        generalize located : firstEmpty.or ((table.matchEmpty (table.probeAt h probe)).head?.map
          fun si => (table.probeAt h probe, si)) = slot? at returned
        have slotVacant : ∀ slot, slot? = some slot → table.Vacant h slot := by
          intro slot chosen
          rw [← located, Option.or_eq_some_iff] at chosen
          rcases chosen with earlier | ⟨_, here⟩
          · exact vacant slot earlier
          · obtain ⟨si, head, rfl⟩ := Option.map_eq_some_iff.mp here
            exact matchEmpty_head_vacant passed head
        split at returned
        · rename_i set
          rw [nextGroup_probeAt] at returned
          refine ih further (passed.extend set) slotVacant ?_ returned
          intro position bit
          split at bit
          · rename_i full
            have small : probe < 8 := by simp_all
            rcases testBit_or_shift small bit with earlier | rfl
            · exact maskPassed position earlier
            · exact set
          · exact maskPassed position bit
        · rename_i clear
          have exhausted : table.Exhausted h eq := ⟨probe, further, by simpa using clear⟩
          split at returned
          · rename_i slot
            cases returned
            exact ⟨slotVacant slot rfl, exhausted, maskPassed⟩
          · cases returned
            exact exhausted

theorem findOrLocate_returns {fuel : Nat} {result : FindOrLocateResult}
    (returned : table.findOrLocate fuel h eq = some result) :
    table.LocateOutcome h eq result := by
  have start : table.Passed h 0 := by intro earlier below; omega
  have unscanned : table.Scanned h eq 0 := by intro earlier below; omega
  have home : table.probeAt h 0 = table.groupIndex h := rfl
  unfold findOrLocate at returned
  simp only at returned
  split at returned
  · rename_i si found
    cases returned
    exact findInGroup_matches (table.groupIndex_le h) found
  · rename_i missed
    have scanned := unscanned.extend missed
    split at returned
    · rename_i si head
      have vacant := matchEmpty_head_vacant start head
      split at returned
      · rename_i set
        refine findOrLocateOverflow_returns fuel scanned (start.extend set) ?_ (by simp [MaskPassed])
          returned
        intro slot chosen
        cases chosen
        exact vacant
      · rename_i clear
        cases returned
        exact ⟨vacant, ⟨0, scanned, by simpa [home] using clear⟩, by simp [MaskPassed]⟩
    · split at returned
      · rename_i set
        refine findOrLocateOverflow_returns fuel scanned (start.extend set) (by simp) ?_ returned
        intro position bit
        have homeBit : position = 0 := by
          by_contra later
          simp [Nat.testBit_one_eq_true_iff_self_eq_zero, later] at bit
        subst homeBit
        exact set
      · rename_i clear
        cases returned
        exact ⟨0, scanned, by simpa [home] using clear⟩

/-! ## Insertion -/

/-- Set the channel's bit in each of the groups. -/
def setBits (channel : UInt8) (groups : List Nat) (table : RawTable L S K V) : RawTable L S K V :=
  groups.foldl (fun current gi => current.setOverflowBit gi channel) table

theorem setBits_bitsGrow (channel : UInt8) (groups : List Nat) :
    ∀ table : RawTable L S K V, table.BitsGrow (setBits channel groups table) := by
  induction groups with
  | nil => intro table; exact .refl table
  | cons gi groups ih =>
      intro table
      exact (setOverflowBit_bitsGrow table gi channel).trans (ih (table.setOverflowBit gi channel))

theorem setBits_hasOverflowBit {channel : UInt8} (nonzero : channel ≠ 0) {groups : List Nat}
    {gi : Nat} (member : gi ∈ groups) :
    ∀ {table : RawTable L S K V}, table.Allocated →
      (setBits channel groups table).hasOverflowBit gi channel = true := by
  induction groups with
  | nil => cases member
  | cons head groups ih =>
      intro table allocated
      rcases List.mem_cons.mp member with rfl | member
      · exact (setBits_bitsGrow channel groups _).bits _ _
          (hasOverflowBit_setOverflowBit_self allocated _ nonzero)
      · exact ih member ((setOverflowBit_bitsGrow table head channel).allocated allocated)

theorem BitsGrow.matchEmpty {later : RawTable L S K V} (grow : table.BitsGrow later) {gi : Nat}
    (bound : gi ≤ table.mask) : later.matchEmpty gi = table.matchEmpty gi := by
  unfold RawTable.matchEmpty RawTable.matchByte
  apply List.filter_congr
  intro si member
  rw [grow.metaByte (gi, si) ⟨bound, List.mem_range.mp member⟩]

/-- The groups at the probe positions from `first` to `last`. -/
def probeRange (table : RawTable L S K V) (h : UInt64) (first last : Nat) : List Nat :=
  (List.range' first (last - first)).map (table.probeAt h)

theorem mem_probeRange {first last gi : Nat} :
    gi ∈ table.probeRange h first last ↔ ∃ probe, first ≤ probe ∧ probe < last ∧
      table.probeAt h probe = gi := by
  simp only [probeRange, List.mem_map, List.mem_range'_1]
  constructor
  · rintro ⟨probe, ⟨low, high⟩, rfl⟩
    exact ⟨probe, low, by omega, rfl⟩
  · rintro ⟨probe, low, high, rfl⟩
    exact ⟨probe, ⟨low, by omega⟩, rfl⟩

/-- Insertion fills the first empty slot along the probe sequence, and sets the
bit in exactly the full groups it passed. -/
theorem insertLoop_returns {key : K} {value : V} (fuel : Nat) :
    ∀ {table : RawTable L S K V} {probe : Nat} {slot : Slot} {later : RawTable L S K V},
      insertLoop h key value fuel table (table.probeAt h probe) probe = some (slot, later) →
      ∃ last, probe ≤ last ∧ slot.1 = table.probeAt h last ∧
        (table.matchEmpty slot.1).head? = some slot.2 ∧
        (∀ gi ∈ table.probeRange h probe last, table.matchEmpty gi = []) ∧
        later = (setBits (L.tags.overflowChannel h) (table.probeRange h probe last) table).fillSlot
          h slot key value := by
  induction fuel with
  | zero => intro table probe slot later returned; cases returned
  | succ fuel ih =>
      intro table probe slot later returned
      unfold insertLoop at returned
      split at returned
      · rename_i si head
        cases returned
        refine ⟨probe, le_rfl, rfl, head, ?_, ?_⟩
        · intro gi member
          obtain ⟨position, low, high, _⟩ := mem_probeRange.mp member
          omega
        · simp [probeRange, setBits]
      · rename_i full
        simp only at returned
        have grow := setOverflowBit_bitsGrow table (table.probeAt h probe) (L.tags.overflowChannel h)
        have groups : ∀ position, (table.setOverflowBit (table.probeAt h probe)
            (L.tags.overflowChannel h)).probeAt h position = table.probeAt h position :=
          fun position => grow.probeAt h position
        have next : (table.setOverflowBit (table.probeAt h probe) (L.tags.overflowChannel h)).nextGroup
            (table.probeAt h probe) (probe + 1) = (table.setOverflowBit (table.probeAt h probe)
              (L.tags.overflowChannel h)).probeAt h (probe + 1) := by
          rw [groups]
          rfl
        rw [next] at returned
        obtain ⟨last, late, reached, head, passedFull, result⟩ := ih returned
        rw [groups] at reached
        have range : ∀ first, (table.setOverflowBit (table.probeAt h probe)
            (L.tags.overflowChannel h)).probeRange h first last = table.probeRange h first last := by
          intro first
          unfold probeRange
          exact List.map_congr_left fun position _ => groups position
        have split : table.probeRange h probe last =
            table.probeAt h probe :: table.probeRange h (probe + 1) last := by
          unfold probeRange
          rw [show last - probe = last - (probe + 1) + 1 by omega, List.range'_succ, List.map_cons]
        rw [range] at passedFull result
        have bound : slot.1 ≤ table.mask := by rw [reached]; exact table.probeAt_le h last
        refine ⟨last, by omega, reached, by rw [← grow.matchEmpty bound, head], ?_, ?_⟩
        · intro gi member
          rw [split] at member
          rcases List.mem_cons.mp member with rfl | member
          · exact List.head?_eq_none_iff.mp full
          · obtain ⟨position, _, _, rfl⟩ := mem_probeRange.mp member
            rw [← grow.matchEmpty (table.probeAt_le h position)]
            exact passedFull _ member
        · rw [result, split]
          rfl

/-- The slot an insertion chose, seen from the table with the new bits. -/
theorem insertNoCheck_returns {key : K} {value : V} {fuel : Nat} {slot : Slot}
    {later : RawTable L S K V} (allocated : table.Allocated)
    (returned : table.insertNoCheck fuel h key value = some (slot, later)) :
    ∃ last, (∀ gi ∈ table.probeRange h 0 last, table.matchEmpty gi = []) ∧
      (setBits (L.tags.overflowChannel h) (table.probeRange h 0 last) table).Vacant h slot ∧
      later = (setBits (L.tags.overflowChannel h) (table.probeRange h 0 last) table).fillSlot
        h slot key value := by
  obtain ⟨last, _, reached, head, full, result⟩ := @insertLoop_returns _ _ _ _ _ _ _ _ fuel _ 0 _ _ returned
  refine ⟨last, full, ?_, result⟩
  have grow := setBits_bitsGrow (L.tags.overflowChannel h) (table.probeRange h 0 last) table
  have passed : (setBits (L.tags.overflowChannel h) (table.probeRange h 0 last) table).Passed h last := by
    intro earlier below
    refine setBits_hasOverflowBit (L.tags.channel_ne_zero h) ?_ allocated
    rw [grow.probeAt]
    exact mem_probeRange.mpr ⟨earlier, Nat.zero_le _, below, rfl⟩
  have here : slot.1 = (setBits (L.tags.overflowChannel h) (table.probeRange h 0 last) table).probeAt
      h last := reached.trans (grow.probeAt h last).symm
  have bound : slot.1 ≤ table.mask := by rw [reached]; exact table.probeAt_le h last
  have vacant := matchEmpty_head_vacant passed
    (by rw [← here, grow.matchEmpty bound, head])
  rw [← here] at vacant
  exact vacant

/-! ## Lookups on a valid table -/

section Valid
variable [DecidableEq K] {hash : K → UInt64} {key : K}

theorem Matches.holds (valid : table.Valid hash) {slot : Slot}
    (found : table.Matches (hash key) (fun stored => stored = key) slot) :
    ∃ value, table.Holds slot key value := by
  obtain ⟨inside, tag, storedKey, stored, equal⟩ := found
  have occupied : table.Occupied slot := ⟨inside, by rw [tag]; exact L.tags.tag_ne_empty _⟩
  obtain ⟨heldKey, value, holds, _⟩ := valid.stored slot occupied
  have same : heldKey = key := by
    rw [holds.2.1, Option.some.injEq] at stored
    rw [stored]
    exact of_decide_eq_true equal
  exact ⟨value, same ▸ holds⟩

/-- A lookup that stopped did not miss the key: were it stored behind the last
scanned group, that group would carry its bit. -/
theorem Exhausted.absent (valid : table.Valid hash)
    (exhausted : table.Exhausted (hash key) (fun stored => stored = key)) (slot : Slot) (value : V) :
    ¬ table.Holds slot key value := by
  intro holds
  obtain ⟨last, scanned, clear⟩ := exhausted
  obtain ⟨tag, probe, reached, passed⟩ := valid.locate holds
  rcases Nat.lt_or_ge last probe with behind | inside
  · rw [passed last behind] at clear
    cases clear
  · have missed := scanned probe (by omega)
    rw [reached, findInGroup_eq_none] at missed
    have rejected := missed slot.2 holds.1.1.2 tag key holds.2.1
    simp at rejected

end Valid

end RawTable

end Optimap.Overflow
