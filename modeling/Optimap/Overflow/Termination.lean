import Mathlib.Algebra.BigOperators.Group.Finset.Basic
import Mathlib.Algebra.Order.BigOperators.Group.Finset
import Optimap.Map.GenericMapInvariant
import Optimap.Overflow.Contract

/-!
# When the probe loops terminate

The loops carry no counter: they end because some group has the bit of the
queried channel clear. Bits are only set on full groups, so the free slots of
overflowed groups come from removals; the anti-drift step is meant to charge each
of them to `max_load`.
-/

set_option autoImplicit false
set_option linter.unusedSectionVars false

namespace Optimap.Overflow

open Lib Hash Map

namespace RawTable

variable {L : GroupLayout} {S : Type → Type → Type} [KvStorage S] {K V : Type}
  {table : RawTable L S K V}

/-! ## Overflowed groups -/

/-- Some channel's bit is set in the group. -/
def anyOverflow (table : RawTable L S K V) (gi : Nat) : Bool := table.hasOverflowBit gi 0xFF

theorem and_255 (byte : UInt8) : byte &&& 0xFF = byte := by
  apply UInt8.toNat_inj.mp
  rw [UInt8.toNat_and]
  exact (Nat.and_two_pow_sub_one_eq_mod byte.toNat 8).trans (Nat.mod_eq_of_lt byte.toNat_lt)

private theorem left_ne_zero_of_and {left right : UInt8} (set : left &&& right ≠ 0) : left ≠ 0 := by
  rintro rfl
  exact set UInt8.zero_and

theorem anyOverflow_of_hasOverflowBit {gi : Nat} {channel : UInt8}
    (set : table.hasOverflowBit gi channel = true) : table.anyOverflow gi = true := by
  simp only [anyOverflow, hasOverflowBit, bne_iff_ne] at set ⊢
  cases strategy : L.overflow with
  | bitSeparate =>
      simp only [GroupLayout.overflowMask, strategy] at set ⊢
      exact set
  | byteSeparate =>
      simp only [GroupLayout.overflowMask, strategy, and_255] at set ⊢
      exact left_ne_zero_of_and set
  | embedded =>
      simp only [GroupLayout.overflowMask, strategy, and_255] at set ⊢
      exact left_ne_zero_of_and set

theorem and_two_pow_ne_zero {number bit : Nat} (set : number &&& 2 ^ bit ≠ 0) :
    number.testBit bit = true := by
  by_contra clear
  exact set (by rw [Nat.and_two_pow, Bool.eq_false_iff.mpr clear]; simp)

/-- Setting one bit of a byte shows in no other bit. -/
private theorem or_shift_and_shift {byte left right : UInt8} (differ : left.toNat % 8 ≠ right.toNat % 8)
    (set : (byte ||| 1 <<< left) &&& 1 <<< right ≠ 0) : byte &&& 1 <<< right ≠ 0 := by
  have power : ∀ amount : UInt8, ((1 : UInt8) <<< amount).toNat = 2 ^ (amount.toNat % 8) := by
    intro amount
    rw [UInt8.toNat_shiftLeft, UInt8.toNat_one, Nat.shiftLeft_eq, one_mul]
    exact Nat.mod_eq_of_lt (Nat.pow_lt_pow_right (by decide) (Nat.mod_lt _ (by decide)))
  intro zero
  have clear := congrArg UInt8.toNat zero
  rw [UInt8.toNat_and, power, UInt8.toNat_zero] at clear
  apply set
  apply UInt8.toNat_inj.mp
  rw [UInt8.toNat_and, UInt8.toNat_or, power, power, Nat.and_or_distrib_right, clear, Nat.zero_or,
    UInt8.toNat_zero, Nat.and_two_pow, Nat.testBit_two_pow]
  simp [differ]

/-- Setting a group's bit shows in no other group. -/
theorem hasOverflowBit_setOverflowBit_only {group gi : Nat} {channel other : UInt8}
    (set : (table.setOverflowBit gi other).hasOverflowBit group channel = true) :
    table.hasOverflowBit group channel = true ∨ group = gi := by
  by_cases same : group = gi
  · exact .inr same
  left
  simp only [hasOverflowBit, setOverflowBit, bne_iff_ne] at set ⊢
  by_cases offsets : L.overflowOffset table.mask group = L.overflowOffset table.mask gi
  · cases shape : table.ctrl with
    | sentinel => rw [shape] at set; exact set
    | alloc region =>
        rw [shape, Ctrl.read_write ⟨region, rfl⟩, if_pos offsets] at set
        rw [offsets]
        cases strategy : L.overflow with
        | byteSeparate =>
            simp only [GroupLayout.overflowOffset, strategy] at offsets
            omega
        | embedded =>
            have room := L.embedded_room strategy
            rw [GroupLayout.embedded_offset strategy, GroupLayout.embedded_offset strategy] at offsets
            exact absurd (strided_inj (by omega) (by omega) offsets).1 same
        | bitSeparate =>
            simp only [GroupLayout.overflowOffset, strategy, Nat.shiftRight_eq_div_pow] at offsets
            simp only [GroupLayout.overflowMask, strategy] at set ⊢
            refine or_shift_and_shift ?_ set
            have low : ∀ index : Nat, (UInt8.ofNat (index &&& 7)).toNat % 8 = index % 8 := by
              intro index
              rw [UInt8.toNat_ofNat', Nat.and_two_pow_sub_one_eq_mod index 3]
              omega
            rw [low, low]
            omega
  · rw [Ctrl.read_write_of_ne _ _ offsets] at set
    exact set

theorem setBits_only {channel other : UInt8} (groups : List Nat) :
    ∀ {table : RawTable L S K V} {group : Nat},
      (setBits channel groups table).hasOverflowBit group other = true →
      table.hasOverflowBit group other = true ∨ group ∈ groups := by
  induction groups with
  | nil => intro table group set; exact .inl set
  | cons gi groups ih =>
      intro table group set
      rcases ih set with before | member
      · rcases hasOverflowBit_setOverflowBit_only before with old | rfl
        · exact .inl old
        · exact .inr List.mem_cons_self
      · exact .inr (List.mem_cons_of_mem _ member)

/-- The bits an entry insertion sets again were all set by then. -/
theorem setFullMask_only {h : UInt64} {other : UInt8} (rounds : Nat) :
    ∀ {table : RawTable L S K V} {probe : Nat} {mask : UInt8} {group : Nat},
      (setFullMask (L.tags.overflowChannel h) rounds table (table.probeAt h probe) probe
        mask).hasOverflowBit group other = true →
      table.hasOverflowBit group other = true ∨
        ∃ bit, mask.toNat.testBit bit = true ∧ group = table.probeAt h (probe + bit) := by
  induction rounds with
  | zero => intro table probe mask group set; exact .inl set
  | succ rounds ih =>
      intro table probe mask group set
      unfold setFullMask at set
      split at set
      · exact .inl set
      · have shifted : ∀ bit, (mask >>> 1).toNat.testBit bit = true → mask.toNat.testBit (bit + 1) = true := by
          intro bit here
          rw [UInt8.toNat_shiftRight, Nat.testBit_shiftRight] at here
          simpa [Nat.add_comm] using here
        simp only at set
        split at set
        · rename_i low
          have lowBit : mask.toNat.testBit 0 = true := by
            apply and_two_pow_ne_zero
            intro zero
            exact low (UInt8.toNat_inj.mp (by rw [UInt8.toNat_and]; exact zero))
          have grow := setOverflowBit_bitsGrow table (table.probeAt h probe) (L.tags.overflowChannel h)
          have next : (table.setOverflowBit (table.probeAt h probe) (L.tags.overflowChannel h)).nextGroup
              (table.probeAt h probe) (probe + 1) = (table.setOverflowBit (table.probeAt h probe)
                (L.tags.overflowChannel h)).probeAt h (probe + 1) := by
            rw [grow.probeAt]
            rfl
          rw [next] at set
          rcases ih set with before | ⟨bit, later, reached⟩
          · rcases hasOverflowBit_setOverflowBit_only before with old | rfl
            · exact .inl old
            · exact .inr ⟨0, lowBit, rfl⟩
          · refine .inr ⟨bit + 1, shifted bit later, ?_⟩
            rw [reached, grow.probeAt]
            congr 1
            omega
        · rw [nextGroup_probeAt] at set
          rcases ih set with before | ⟨bit, later, rfl⟩
          · exact .inl before
          · refine .inr ⟨bit + 1, shifted bit later, ?_⟩
            congr 1
            omega

/-! ## Free slots of overflowed groups -/

/-- The number of empty slots of a group. -/
def free (table : RawTable L S K V) (gi : Nat) : Nat :=
  ((Finset.range L.groupSize).filter fun si => table.metaByte gi si = EMPTY).card

/-- The empty slots a lookup may have to pass: those of overflowed groups. -/
def slack (table : RawTable L S K V) : Nat :=
  ∑ gi ∈ Finset.range (table.mask + 1), if table.anyOverflow gi then table.free gi else 0

/-- The anti-drift deficit covers the empty slots of overflowed groups. -/
def Balanced (table : RawTable L S K V) : Prop :=
  table.slack + table.maxLoad ≤ L.maxLoadFor (table.mask + 1)

theorem free_eq_zero {gi : Nat} (full : table.matchEmpty gi = []) : table.free gi = 0 := by
  rw [free, Finset.card_eq_zero, Finset.filter_eq_empty_iff]
  intro si member empty
  have listed := mem_matchEmpty.mpr ⟨Finset.mem_range.mp member, empty⟩
  rw [full] at listed
  cases listed

theorem free_congr {later : RawTable L S K V} {gi : Nat}
    (same : ∀ si < L.groupSize, later.metaByte gi si = table.metaByte gi si) :
    later.free gi = table.free gi := by
  unfold free
  congr 1
  apply Finset.filter_congr
  intro si member
  rw [same si (Finset.mem_range.mp member)]

theorem matchNonEmpty_add_free (gi : Nat) :
    (table.matchNonEmpty gi).length + table.free gi = L.groupSize := by
  have listed : (table.matchNonEmpty gi).length =
      ((Finset.range L.groupSize).filter fun si => ¬ table.metaByte gi si = EMPTY).card := by
    rw [matchNonEmpty, ← List.toFinset_card_of_nodup (List.nodup_range.filter _)]
    congr 1
    ext si
    simp
  rw [listed, free, Nat.add_comm, Finset.card_filter_add_card_filter_not, Finset.card_range]

/-- Occupied and free slots add up to all slots. -/
theorem occupied_add_free :
    table.occupiedSlots.length + ∑ gi ∈ Finset.range (table.mask + 1), table.free gi =
      (table.mask + 1) * L.groupSize := by
  have counted : table.occupiedSlots.length =
      ∑ gi ∈ Finset.range (table.mask + 1), (table.matchNonEmpty gi).length := by
    simp only [occupiedSlots, List.length_flatMap, List.length_map, numGroups]
    rfl
  rw [counted, ← Finset.sum_add_distrib, Finset.sum_congr rfl fun gi _ => matchNonEmpty_add_free gi, Finset.sum_const,
    Finset.card_range, smul_eq_mul]

/-- A balanced table has a group no bit of which is set. -/
theorem exists_clear_group {hash : K → UInt64} (valid : table.Valid hash) (balanced : table.Balanced) :
    ∃ gi ≤ table.mask, table.anyOverflow gi = false := by
  by_contra none_clear
  push Not at none_clear
  have all : table.slack = ∑ gi ∈ Finset.range (table.mask + 1), table.free gi := by
    refine Finset.sum_congr rfl fun gi member => ?_
    have bound : gi ≤ table.mask := Nat.le_of_lt_succ (Finset.mem_range.mp member)
    rw [if_pos (by simpa using none_clear gi bound)]
  have total := @occupied_add_free _ _ _ _ _ table
  have load := L.maxLoadFor_lt (table.mask + 1) (by omega)
  have lenEq := valid.len_eq
  have lenLe := valid.len_le
  unfold Balanced at balanced
  omega

/-! ## The loops stop at a clear group -/

theorem findLoop_isSome {h : UInt64} {eq : K → Bool} (fuel : Nat) :
    ∀ {probe last : Nat}, probe ≤ last → last < probe + fuel →
      table.hasOverflowBit (table.probeAt h last) (L.tags.overflowChannel h) = false →
      (table.findLoop h eq fuel (table.probeAt h probe) probe).isSome = true := by
  induction fuel with
  | zero => intro probe last _ _ _; omega
  | succ fuel ih =>
      intro probe last low high clear
      unfold findLoop
      split
      · rfl
      · split
        · rename_i set
          have different : probe ≠ last := by
            rintro rfl
            rw [set] at clear
            cases clear
          rw [nextGroup_probeAt]
          exact ih (by omega) (by omega) clear
        · rfl

theorem findOrLocateOverflow_isSome {h : UInt64} {eq : K → Bool} (fuel : Nat) :
    ∀ {probe last : Nat} {firstEmpty : Option Slot} {fullMask : UInt8}, probe ≤ last →
      last < probe + fuel →
      table.hasOverflowBit (table.probeAt h last) (L.tags.overflowChannel h) = false →
      (table.findOrLocateOverflow h eq fuel (table.probeAt h probe) probe firstEmpty
        fullMask).isSome = true := by
  induction fuel with
  | zero => intro probe last firstEmpty fullMask _ _ _; omega
  | succ fuel ih =>
      intro probe last firstEmpty fullMask low high clear
      unfold findOrLocateOverflow
      split
      · rfl
      · simp only
        split
        · rename_i set
          have different : probe ≠ last := by
            rintro rfl
            rw [set] at clear
            cases clear
          rw [nextGroup_probeAt]
          exact ih (by omega) (by omega) clear
        · split <;> rfl

/-- With a clear group on the probe cycle both lookups return within one cycle. -/
theorem lookups_return {hash : K → UInt64} (valid : table.Valid hash) {gi : Nat}
    (bound : gi ≤ table.mask) (h : UInt64)
    (clear : table.hasOverflowBit gi (L.tags.overflowChannel h) = false) (eq : K → Bool) :
    (table.findByHash table.numGroups h eq).isSome = true ∧
      (table.findOrLocate table.numGroups h eq).isSome = true := by
  obtain ⟨bits, power⟩ := valid.power
  obtain ⟨last, lastBound, reached⟩ := probeGroup_surjective power (table.groupIndex_le h) bound
  have clearAt : table.hasOverflowBit (table.probeAt h last) (L.tags.overflowChannel h) = false := by
    unfold probeAt
    rw [reached]
    exact clear
  constructor
  · refine findLoop_isSome _ (Nat.zero_le _) ?_ clearAt
    unfold numGroups
    omega
  · unfold findOrLocate
    simp only
    split
    · rfl
    · have further : table.hasOverflowBit (table.groupIndex h) (L.tags.overflowChannel h) = true →
          1 ≤ last := by
        intro set
        rcases Nat.eq_zero_or_pos last with zero | positive
        · subst zero
          rw [show table.probeAt h 0 = table.groupIndex h from rfl, set] at clearAt
          cases clearAt
        · exact positive
      split
      · split
        · rename_i set
          exact findOrLocateOverflow_isSome _ (further set)
            (by unfold numGroups; omega) clearAt
        · rfl
      · split
        · rename_i set
          exact findOrLocateOverflow_isSome _ (further set)
            (by unfold numGroups; omega) clearAt
        · rfl

end RawTable

end Optimap.Overflow
