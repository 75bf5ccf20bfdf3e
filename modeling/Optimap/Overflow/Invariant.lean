import Optimap.Overflow.RawTable

/-!
# The overflow-bit invariant

What each write to the control bytes leaves unchanged, and the invariant behind
early stopping: a stored key has its channel's bit set in every group its probe
sequence passes before its own.
-/

set_option autoImplicit false
set_option linter.unusedSectionVars false

namespace Optimap.Overflow

open Lib Hash Map

namespace RawTable

variable {L : GroupLayout} {S : Type → Type → Type} [KvStorage S] {K V : Type}

def Allocated (table : RawTable L S K V) : Prop := ∃ bytes, table.ctrl = .alloc bytes

def InRange (table : RawTable L S K V) (slot : Slot) : Prop :=
  slot.1 ≤ table.mask ∧ slot.2 < L.groupSize

def Occupied (table : RawTable L S K V) (slot : Slot) : Prop :=
  table.InRange slot ∧ table.metaByte slot.1 slot.2 ≠ EMPTY

/-- The slot is occupied by the pair. -/
def Holds (table : RawTable L S K V) (slot : Slot) (key : K) (value : V) : Prop :=
  table.Occupied slot ∧ table.key slot = some key ∧ table.value slot = some value

/-- The group at each probe position of a hash. -/
def probeAt (table : RawTable L S K V) (h : UInt64) (probe : Nat) : Nat :=
  probeGroup table.mask (table.groupIndex h) probe

/-- Every group before probe position `probe` has the hash's channel bit set. -/
def Passed (table : RawTable L S K V) (h : UInt64) (probe : Nat) : Prop :=
  ∀ earlier < probe, table.hasOverflowBit (table.probeAt h earlier) (L.tags.overflowChannel h) = true

structure Valid (hash : K → UInt64) (table : RawTable L S K V) : Prop where
  power : ∃ bits, table.mask + 1 = 2 ^ bits
  shift : table.shift = 64 - (table.mask + 1).log2
  len_eq : table.len = table.occupiedSlots.length
  len_le : table.len ≤ table.maxLoad
  maxLoad_le : table.maxLoad ≤ L.maxLoadFor (table.mask + 1)
  allocated : 0 < table.maxLoad → table.Allocated
  stored : ∀ slot, table.Occupied slot → ∃ key value, table.Holds slot key value ∧
    table.metaByte slot.1 slot.2 = L.tags.tag (hash key) ∧
    ∃ probe, table.probeAt (hash key) probe = slot.1 ∧ table.Passed (hash key) probe

/-- The table stands for the finite map. -/
structure Refines (hash : K → UInt64) (table : RawTable L S K V) (map : PMap K V) : Prop where
  valid : table.Valid hash
  stores : Stores table.Holds map

/-! ## Slots as lists -/

theorem mem_occupiedSlots {table : RawTable L S K V} {slot : Slot} :
    slot ∈ table.occupiedSlots ↔ table.Occupied slot := by
  obtain ⟨gi, si⟩ := slot
  simp only [occupiedSlots, matchNonEmpty, List.mem_flatMap, List.mem_range, List.mem_map,
    List.mem_filter, bne_iff_ne, Prod.mk.injEq, Occupied, InRange, numGroups, Nat.lt_succ_iff]
  constructor
  · rintro ⟨group, bound, index, ⟨inside, occupied⟩, rfl, rfl⟩
    exact ⟨⟨bound, inside⟩, occupied⟩
  · rintro ⟨⟨bound, inside⟩, occupied⟩
    exact ⟨gi, bound, si, ⟨inside, occupied⟩, rfl, rfl⟩

theorem occupiedSlots_nodup (table : RawTable L S K V) : table.occupiedSlots.Nodup := by
  unfold occupiedSlots
  rw [List.nodup_flatMap]
  constructor
  · intro gi _
    refine List.Nodup.map (fun _ _ same => (Prod.mk.inj same).2) ?_
    exact List.nodup_range.filter _
  · refine (List.nodup_range).imp ?_
    intro first second different
    simp only [Function.onFun, List.disjoint_left, List.mem_map]
    rintro slot ⟨_, _, rfl⟩ ⟨_, _, same⟩
    exact different (Prod.mk.inj same).1.symm

theorem mem_matchEmpty {table : RawTable L S K V} {gi si : Nat} :
    si ∈ table.matchEmpty gi ↔ si < L.groupSize ∧ table.metaByte gi si = EMPTY := by
  simp [matchEmpty, matchByte]

theorem findInGroup_eq_none {table : RawTable L S K V} {h : UInt64} {eq : K → Bool} {gi : Nat} :
    table.findInGroup h eq gi = none ↔ ∀ si < L.groupSize,
      table.metaByte gi si = L.tags.tag h → ∀ key, table.key (gi, si) = some key → eq key = false := by
  simp only [findInGroup, matchByte, List.find?_eq_none, List.mem_filter, List.mem_range,
    beq_iff_eq, Bool.not_eq_true, and_imp]
  refine forall_congr' fun si => imp_congr_right fun _ => imp_congr_right fun _ => ?_
  cases table.key (gi, si) <;> simp

theorem findInGroup_eq_some {table : RawTable L S K V} {h : UInt64} {eq : K → Bool} {gi si : Nat}
    (found : table.findInGroup h eq gi = some si) :
    si < L.groupSize ∧ table.metaByte gi si = L.tags.tag h ∧
      ∃ key, table.key (gi, si) = some key ∧ eq key = true := by
  have member := List.mem_of_find?_eq_some found
  have matched := List.find?_some found
  simp only [matchByte, List.mem_filter, List.mem_range, beq_iff_eq] at member
  refine ⟨member.1, member.2, ?_⟩
  cases stored : table.key (gi, si) with
  | none => rw [stored] at matched; exact absurd matched (by simp)
  | some key => rw [stored] at matched; exact ⟨key, rfl, by simpa using matched⟩

theorem groupIndex_le (table : RawTable L S K V) (h : UInt64) : table.groupIndex h ≤ table.mask := by
  unfold groupIndex
  cases L.groupIndexRegion <;> exact Nat.and_le_right

theorem probeAt_le (table : RawTable L S K V) (h : UInt64) (probe : Nat) :
    table.probeAt h probe ≤ table.mask :=
  probeGroup_le (table.groupIndex_le h) probe

theorem nextGroup_probeAt (table : RawTable L S K V) (h : UInt64) (probe : Nat) :
    table.nextGroup (table.probeAt h probe) (probe + 1) = table.probeAt h (probe + 1) := rfl

theorem Passed.extend {table : RawTable L S K V} {h : UInt64} {probe : Nat}
    (passed : table.Passed h probe)
    (set : table.hasOverflowBit (table.probeAt h probe) (L.tags.overflowChannel h) = true) :
    table.Passed h (probe + 1) := by
  intro earlier below
  rcases Nat.lt_succ_iff_lt_or_eq.mp below with before | rfl
  · exact passed earlier before
  · exact set

/-! ## Frame conditions of the control byte writes -/

theorem metaByte_setMeta {table : RawTable L S K V} (allocated : table.Allocated) {slot other : Slot}
    (inside : table.InRange slot) (otherInside : table.InRange other) (byte : UInt8) :
    (table.setMeta slot.1 slot.2 byte).metaByte other.1 other.2 =
      if other = slot then byte else table.metaByte other.1 other.2 := by
  unfold metaByte setMeta
  rw [Ctrl.read_write allocated]
  by_cases same : L.metaOffset other.1 other.2 = L.metaOffset slot.1 slot.2
  · have equal := Prod.ext_iff.mpr (GroupLayout.metaOffset_inj otherInside.2 inside.2 same)
    rw [if_pos same, if_pos equal]
  · have different : other ≠ slot := by
      rintro rfl
      exact same rfl
    rw [if_neg same, if_neg different]

theorem setMeta_allocated {table : RawTable L S K V} (allocated : table.Allocated) (gi si : Nat)
    (byte : UInt8) : (table.setMeta gi si byte).Allocated := by
  obtain ⟨bytes, shape⟩ := allocated
  exact ⟨_, by rw [setMeta, shape, Ctrl.write]⟩

theorem hasOverflowBit_setMeta {table : RawTable L S K V} {gi si : Nat} (bound : gi ≤ table.mask)
    (inside : si < L.groupSize) (byte : UInt8) (group : Nat) (channel : UInt8) :
    (table.setMeta gi si byte).hasOverflowBit group channel = table.hasOverflowBit group channel := by
  unfold hasOverflowBit setMeta
  simp only
  rw [Ctrl.read_write_of_ne _ _ (GroupLayout.metaOffset_ne_overflowOffset inside bound).symm]

theorem metaByte_setOverflowBit {table : RawTable L S K V} {gi si : Nat} (bound : gi ≤ table.mask)
    (inside : si < L.groupSize) (group : Nat) (channel : UInt8) :
    (table.setOverflowBit group channel).metaByte gi si = table.metaByte gi si := by
  unfold metaByte setOverflowBit
  exact Ctrl.read_write_of_ne _ _ (GroupLayout.metaOffset_ne_overflowOffset inside bound)

private theorem and_or_ne_zero {byte mask extra : UInt8} (set : byte &&& mask ≠ 0) :
    (byte ||| extra) &&& mask ≠ 0 := by
  intro zero
  apply set
  have numbers := congrArg UInt8.toNat zero
  simp only [UInt8.toNat_and, UInt8.toNat_or, UInt8.toNat_zero, Nat.and_or_distrib_right,
    Nat.or_eq_zero_iff] at numbers
  exact UInt8.toNat_inj.mp (by rw [UInt8.toNat_and]; exact numbers.1)

private theorem or_and_self_ne_zero {byte mask : UInt8} (nonzero : mask ≠ 0) :
    (byte ||| mask) &&& mask ≠ 0 := by
  intro zero
  apply nonzero
  have numbers := congrArg UInt8.toNat zero
  simp only [UInt8.toNat_and, UInt8.toNat_or, UInt8.toNat_zero, Nat.and_or_distrib_right,
    Nat.or_eq_zero_iff, Nat.and_self] at numbers
  exact UInt8.toNat_inj.mp numbers.2

theorem hasOverflowBit_setOverflowBit_mono {table : RawTable L S K V} {group gi : Nat}
    {channel other : UInt8} (set : table.hasOverflowBit group channel = true) :
    (table.setOverflowBit gi other).hasOverflowBit group channel = true := by
  simp only [hasOverflowBit, setOverflowBit, bne_iff_ne] at set ⊢
  cases shape : table.ctrl with
  | sentinel => rw [shape] at set; exact set
  | alloc region =>
      rw [shape] at set
      rw [Ctrl.read_write ⟨region, rfl⟩]
      split
      · rename_i same
        rw [← same]
        exact and_or_ne_zero set
      · exact set

theorem hasOverflowBit_setOverflowBit_self {table : RawTable L S K V} (allocated : table.Allocated)
    (gi : Nat) {channel : UInt8} (nonzero : channel ≠ 0) :
    (table.setOverflowBit gi channel).hasOverflowBit gi channel = true := by
  simp only [hasOverflowBit, setOverflowBit, bne_iff_ne]
  rw [Ctrl.read_write allocated, if_pos rfl]
  exact or_and_self_ne_zero (GroupLayout.overflowMask_ne_zero nonzero)

/-- `later` differs from `table` only by further overflow bits. -/
structure BitsGrow (table later : RawTable L S K V) : Prop where
  mask : later.mask = table.mask
  shift : later.shift = table.shift
  buckets : later.buckets = table.buckets
  len : later.len = table.len
  maxLoad : later.maxLoad = table.maxLoad
  allocated : table.Allocated → later.Allocated
  metaByte : ∀ slot, table.InRange slot → later.metaByte slot.1 slot.2 = table.metaByte slot.1 slot.2
  bits : ∀ group channel, table.hasOverflowBit group channel = true →
    later.hasOverflowBit group channel = true

theorem BitsGrow.refl (table : RawTable L S K V) : table.BitsGrow table :=
  ⟨rfl, rfl, rfl, rfl, rfl, id, fun _ _ => rfl, fun _ _ => id⟩

theorem BitsGrow.trans {table middle later : RawTable L S K V} (first : table.BitsGrow middle)
    (second : middle.BitsGrow later) : table.BitsGrow later where
  mask := second.mask.trans first.mask
  shift := second.shift.trans first.shift
  buckets := second.buckets.trans first.buckets
  len := second.len.trans first.len
  maxLoad := second.maxLoad.trans first.maxLoad
  allocated allocated := second.allocated (first.allocated allocated)
  metaByte slot inside := by
    rw [second.metaByte slot ⟨first.mask ▸ inside.1, inside.2⟩, first.metaByte slot inside]
  bits group channel set := second.bits group channel (first.bits group channel set)

theorem setOverflowBit_bitsGrow (table : RawTable L S K V) (gi : Nat) (channel : UInt8) :
    table.BitsGrow (table.setOverflowBit gi channel) where
  mask := rfl
  shift := rfl
  buckets := rfl
  len := rfl
  maxLoad := rfl
  allocated := by
    rintro ⟨region, shape⟩
    exact ⟨_, by rw [setOverflowBit, shape, Ctrl.write]⟩
  metaByte slot inside := metaByte_setOverflowBit inside.1 inside.2 gi channel
  bits _ _ := hasOverflowBit_setOverflowBit_mono

theorem setFullMask_bitsGrow (channel : UInt8) (rounds : Nat) :
    ∀ (table : RawTable L S K V) (gi probe : Nat) (mask : UInt8),
      table.BitsGrow (setFullMask channel rounds table gi probe mask) := by
  induction rounds with
  | zero => intro table _ _ _; exact .refl table
  | succ rounds ih =>
      intro table gi probe mask
      unfold setFullMask
      split
      · exact .refl table
      · refine BitsGrow.trans ?_ (ih _ _ _ _)
        split
        · exact setOverflowBit_bitsGrow table gi channel
        · exact .refl table

section Transfer
variable {table later : RawTable L S K V}

theorem BitsGrow.groupIndex (grow : table.BitsGrow later) (h : UInt64) :
    later.groupIndex h = table.groupIndex h := by
  unfold RawTable.groupIndex
  rw [grow.mask, grow.shift]

theorem BitsGrow.probeAt (grow : table.BitsGrow later) (h : UInt64) (probe : Nat) :
    later.probeAt h probe = table.probeAt h probe := by
  unfold RawTable.probeAt
  rw [grow.mask, grow.groupIndex]

theorem BitsGrow.occupied_iff (grow : table.BitsGrow later) (slot : Slot) :
    later.Occupied slot ↔ table.Occupied slot := by
  unfold Occupied InRange
  rw [grow.mask]
  refine and_congr_right fun inside => ?_
  rw [grow.metaByte slot inside]

theorem BitsGrow.holds_iff (grow : table.BitsGrow later) (slot : Slot) (key : K) (value : V) :
    later.Holds slot key value ↔ table.Holds slot key value := by
  unfold Holds RawTable.key RawTable.value
  rw [grow.occupied_iff, grow.buckets]

theorem BitsGrow.passed (grow : table.BitsGrow later) {h : UInt64} {probe : Nat}
    (passed : table.Passed h probe) : later.Passed h probe := by
  intro earlier below
  rw [grow.probeAt]
  exact grow.bits _ _ (passed earlier below)

theorem BitsGrow.occupiedSlots_perm (grow : table.BitsGrow later) :
    later.occupiedSlots.Perm table.occupiedSlots := by
  rw [List.perm_ext_iff_of_nodup later.occupiedSlots_nodup table.occupiedSlots_nodup]
  intro slot
  rw [mem_occupiedSlots, mem_occupiedSlots, grow.occupied_iff]

theorem BitsGrow.refines (grow : table.BitsGrow later) {hash : K → UInt64} {map : PMap K V}
    (refines : table.Refines hash map) : later.Refines hash map where
  valid :=
    { power := grow.mask ▸ refines.valid.power
      shift := by rw [grow.shift, grow.mask]; exact refines.valid.shift
      len_eq := by rw [grow.len, refines.valid.len_eq, grow.occupiedSlots_perm.length_eq]
      len_le := by rw [grow.len, grow.maxLoad]; exact refines.valid.len_le
      maxLoad_le := by rw [grow.maxLoad, grow.mask]; exact refines.valid.maxLoad_le
      allocated := by rw [grow.maxLoad]; exact fun live => grow.allocated (refines.valid.allocated live)
      stored := by
        intro slot occupied
        have before := (grow.occupied_iff slot).mp occupied
        obtain ⟨key, value, holds, tag, probe, reached, passed⟩ := refines.valid.stored slot before
        refine ⟨key, value, (grow.holds_iff slot key value).mpr holds, ?_, probe, ?_, grow.passed passed⟩
        · rw [grow.metaByte slot before.1, tag]
        · rw [grow.probeAt, reached] }
  stores := refines.stores.congr grow.holds_iff

end Transfer

end RawTable

end Optimap.Overflow
