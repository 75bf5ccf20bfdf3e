import Optimap.Lib.Regions
import Optimap.Overflow.Layout
import Optimap.Tomb.RawTable

/-!
# Allocation layouts of the hash tables

Where the three engines put keys, values, metadata and overflow bytes in their
one allocation. `OverflowTable` and `in_place_overflow` address slots backward
from a control pointer in the middle of it, `ipo64` forward from its metadata.
The arithmetic is that of a layout that does not overflow.
-/

set_option autoImplicit false

namespace Optimap.HashEngines

open Lib Hash

/-- Sizes and alignments of `K`, `V` and `(K, V)`, with what the language
promises of them. The order of the two fields of a tuple is the compiler's. -/
structure SlotTypes where
  key : TypeLayout
  value : TypeLayout
  pair : TypeLayout
  keyOffset : Nat
  valueOffset : Nat
  keyAlign_dvd : key.align ∣ pair.align
  valueAlign_dvd : value.align ∣ pair.align
  keyOffset_aligned : key.align ∣ keyOffset
  valueOffset_aligned : value.align ∣ valueOffset
  key_inside : keyOffset + key.size ≤ pair.size
  value_inside : valueOffset + value.size ≤ pair.size
  fields_apart : Disjoint (Region.mk keyOffset key.size).bytes (Region.mk valueOffset value.size).bytes

/-- The key pointer of the tuple storage takes the key for the first field of the
tuple: the value must leave those bytes alone. -/
def SlotTypes.KeyLeads (t : SlotTypes) : Prop :=
  Disjoint (Region.mk 0 t.key.size).bytes (Region.mk t.valueOffset t.value.size).bytes

instance (t : SlotTypes) : Decidable t.KeyLeads := inferInstanceAs (Decidable (Disjoint _ _))

/-! ## Slot storage -/

/-- Array of structures, or structure of arrays. -/
inductive Storage where
  | aos
  | soa
  deriving DecidableEq

namespace Storage

variable (t : SlotTypes)

/-- The region before the control pointer, `(raw + 15) & !15`. -/
def backwardSize : Storage → (numSlots : Nat) → Nat
  | .aos, numSlots => (numSlots * t.pair.size + 15).ldiff 15
  | .soa, numSlots => (numSlots * t.key.size + 15).ldiff 15

def valuesRegionSize : Storage → (numSlots : Nat) → Nat
  | .aos, _ => 0
  | .soa, numSlots => numSlots * t.value.size

def valuesAlign : Storage → Nat
  | .aos => 1
  | .soa => max t.value.align 1

def allocAlign : Storage → Nat
  | .aos => max 16 t.pair.align
  | .soa => max (max 16 t.key.align) t.value.align

/-- `ctrl.cast::<(K, V)>().sub(idx + 1).cast::<K>()` is the address of the tuple. -/
def keyPtr : Storage → (ctrl idx : Nat) → Nat
  | .aos, ctrl, idx => ctrl - (idx + 1) * t.pair.size
  | .soa, ctrl, idx => ctrl - (idx + 1) * t.key.size

def valuePtr : Storage → (ctrl extra idx : Nat) → Nat
  | .aos, ctrl, _, idx => ctrl - (idx + 1) * t.pair.size + t.valueOffset
  | .soa, _, extra, idx => extra + idx * t.value.size

end Storage

/-! ## Fields of a table -/

/-- The parts of an allocation of `numGroups` groups. -/
inductive Field (numGroups groupSize : Nat) where
  | key (slot : Fin numGroups × Fin groupSize)
  | value (slot : Fin numGroups × Fin groupSize)
  | metadata
  | overflow

/-- The pairs of parts that must not share a byte. -/
structure Separated {numGroups groupSize : Nat} (region : Field numGroups groupSize → Region) : Prop where
  keys : ∀ slot other, slot ≠ other → Disjoint (region (.key slot)).bytes (region (.key other)).bytes
  values : ∀ slot other, slot ≠ other → Disjoint (region (.value slot)).bytes (region (.value other)).bytes
  key_value : ∀ slot other, Disjoint (region (.key slot)).bytes (region (.value other)).bytes
  key_metadata : ∀ slot, Disjoint (region (.key slot)).bytes (region .metadata).bytes
  key_overflow : ∀ slot, Disjoint (region (.key slot)).bytes (region .overflow).bytes
  value_metadata : ∀ slot, Disjoint (region (.value slot)).bytes (region .metadata).bytes
  value_overflow : ∀ slot, Disjoint (region (.value slot)).bytes (region .overflow).bytes
  metadata_overflow : Disjoint (region .metadata).bytes (region .overflow).bytes

theorem Separated.apart {numGroups groupSize : Nat} {region : Field numGroups groupSize → Region}
    (separated : Separated region) (part other : Field numGroups groupSize) (different : part ≠ other) :
    Disjoint (region part).bytes (region other).bytes := by
  cases part with
  | key slot =>
      cases other with
      | key other => exact separated.keys slot other fun same => different (same ▸ rfl)
      | value other => exact separated.key_value slot other
      | metadata => exact separated.key_metadata slot
      | overflow => exact separated.key_overflow slot
  | value slot =>
      cases other with
      | key other => exact (separated.key_value other slot).symm
      | value other => exact separated.values slot other fun same => different (same ▸ rfl)
      | metadata => exact separated.value_metadata slot
      | overflow => exact separated.value_overflow slot
  | metadata =>
      cases other with
      | key other => exact (separated.key_metadata other).symm
      | value other => exact (separated.value_metadata other).symm
      | metadata => exact absurd rfl different
      | overflow => exact separated.metadata_overflow
  | overflow =>
      cases other with
      | key other => exact (separated.key_overflow other).symm
      | value other => exact (separated.value_overflow other).symm
      | metadata => exact separated.metadata_overflow.symm
      | overflow => exact absurd rfl different

/-- A layout: where each part lies for a given base address, how the metadata
must be aligned, and what is requested from the allocator. -/
structure TableLayout (numGroups groupSize : Nat) where
  field : (base : Nat) → Field numGroups groupSize → Region
  metaAlign : Nat
  size : Nat
  align : Nat

namespace TableLayout

variable {numGroups groupSize : Nat}

def fieldAlign (t : SlotTypes) (layout : TableLayout numGroups groupSize) : Field numGroups groupSize → Nat
  | .key _ => t.key.align
  | .value _ => t.value.align
  | .metadata => layout.metaAlign
  | .overflow => 1

/-- From every base address that the requested layout allows, all parts are
aligned, in bounds and apart. -/
def Sound (t : SlotTypes) (layout : TableLayout numGroups groupSize) : Prop :=
  ∀ base, layout.align ∣ base →
    Placed (layout.field base) (layout.fieldAlign t) ⟨base, layout.size⟩

end TableLayout

/-! ## The mid-pointer tables -/

/-- What `OverflowTable` and `in_place_overflow` compute for some group count. -/
structure MidPointer (numGroups groupSize : Nat) where
  bucketIndex : (gi si : Nat) → Nat
  numSlots : Nat
  metaAlign : Nat
  metaSize : Nat
  overflowSize : Nat
  backward : Nat
  valuesOffset : Nat
  align : Nat

namespace MidPointer

variable {numGroups groupSize : Nat}

def field (t : SlotTypes) (storage : Storage) (table : MidPointer numGroups groupSize) (base : Nat) :
    Field numGroups groupSize → Region :=
  let ctrl := base + table.backward
  let extra := ctrl + table.valuesOffset
  fun
    | .key (gi, si) => ⟨storage.keyPtr t ctrl (table.bucketIndex gi si), t.key.size⟩
    | .value (gi, si) => ⟨storage.valuePtr t ctrl extra (table.bucketIndex gi si), t.value.size⟩
    | .metadata => ⟨ctrl, table.metaSize⟩
    | .overflow => ⟨ctrl + table.metaSize, table.overflowSize⟩

/-- `combined_layout`. -/
def layout (t : SlotTypes) (storage : Storage) (table : MidPointer numGroups groupSize) :
    TableLayout numGroups groupSize where
  field := table.field t storage
  metaAlign := table.metaAlign
  size :=
    max (table.backward + table.valuesOffset + storage.valuesRegionSize t table.numSlots) table.align
  align := table.align

end MidPointer

/-- `META_ALIGN` is the metadata stride. Embedded overflow bytes are part of the
metadata. -/
def overflowTable (L : Overflow.GroupLayout) (t : SlotTypes) (storage : Storage) (numGroups : Nat) :
    MidPointer numGroups L.groupSize where
  bucketIndex := L.bucketIndex
  numSlots := numGroups * L.bucketStride
  metaAlign := L.metaStride
  metaSize := numGroups * L.metaStride
  overflowSize := L.overflow.extraBytes numGroups
  backward := alignUp (storage.backwardSize t (numGroups * L.bucketStride)) L.metaStride
  valuesOffset :=
    alignUp (numGroups * L.metaStride + L.overflow.extraBytes numGroups) (storage.valuesAlign t)
  align := max (storage.allocAlign t) L.metaStride

def inPlaceOverflowTable (t : SlotTypes) (storage : Storage) (numGroups : Nat) :
    MidPointer numGroups 16 where
  bucketIndex gi si := gi <<< 4 ||| si
  numSlots := numGroups * 16
  metaAlign := 16
  metaSize := numGroups * 16
  overflowSize := 0
  backward := storage.backwardSize t (numGroups * 16)
  valuesOffset := alignUp (numGroups * 16) (storage.valuesAlign t)
  align := storage.allocAlign t

/-! ## The forward table -/

/-- `ipo64` stores tuples behind the metadata and requests an alignment of 64. -/
def ipo64Table (t : SlotTypes) (numGroups : Nat) : TableLayout numGroups 64 :=
  let metaSize := numGroups * 64
  let bucketOffset := alignUp metaSize (max t.pair.align 1)
  { field := fun base =>
      let bucketPtr (gi si : Nat) : Nat := base + bucketOffset + (gi * 64 + si) * t.pair.size
      fun
        | .key (gi, si) => ⟨bucketPtr gi si + t.keyOffset, t.key.size⟩
        | .value (gi, si) => ⟨bucketPtr gi si + t.valueOffset, t.value.size⟩
        | .metadata => ⟨base, metaSize⟩
        | .overflow => ⟨base + metaSize, 0⟩
    metaAlign := 64
    size := max (bucketOffset + numGroups * 64 * t.pair.size) 64
    align := 64 }

/-! ## Mid-pointer tables in general -/

namespace MidPointer

variable {t : SlotTypes} {numGroups groupSize : Nat} {table : MidPointer numGroups groupSize}

/-- Slots have indices of their own, and the metadata is aligned at `ctrl`. -/
structure Regular (table : MidPointer numGroups groupSize) : Prop where
  index_lt : ∀ {gi si}, gi < numGroups → si < groupSize → table.bucketIndex gi si < table.numSlots
  index_inj : ∀ {gi si gi' si'}, si < groupSize → si' < groupSize →
    table.bucketIndex gi si = table.bucketIndex gi' si' → gi = gi' ∧ si = si'
  meta_dvd_align : table.metaAlign ∣ table.align
  meta_dvd_backward : table.metaAlign ∣ table.backward
  extra_room : table.metaSize + table.overflowSize ≤ table.valuesOffset

def index (table : MidPointer numGroups groupSize) (slot : Fin numGroups × Fin groupSize) : Nat :=
  table.bucketIndex slot.1 slot.2

theorem Regular.below (regular : table.Regular) (slot : Fin numGroups × Fin groupSize) :
    table.index slot < table.numSlots := regular.index_lt slot.1.isLt slot.2.isLt

theorem Regular.injective (regular : table.Regular) {slot other : Fin numGroups × Fin groupSize}
    (different : slot ≠ other) : table.index slot ≠ table.index other := by
  intro same
  obtain ⟨groups, slots⟩ := regular.index_inj slot.2.isLt other.2.isLt same
  exact different (Prod.ext (Fin.ext groups) (Fin.ext slots))

/-- A cell that is addressed backward from `ctrl`. -/
theorem backward_cell {ctrl size count index : Nat} (room : count * size ≤ ctrl) (inside : index < count) :
    ctrl - (index + 1) * size + (index + 1) * size = ctrl ∧ (index + 1) * size ≤ count * size := by
  have cells : (index + 1) * size ≤ count * size := Nat.mul_le_mul_right size inside
  exact ⟨Nat.sub_add_cancel (cells.trans room), cells⟩

/-- Two such cells. -/
theorem backward_apart {ctrl size count first second : Nat} (room : count * size ≤ ctrl)
    (firstInside : first < count) (secondInside : second < count) (different : first ≠ second) :
    ctrl - (first + 1) * size + size ≤ ctrl - (second + 1) * size ∨
      ctrl - (second + 1) * size + size ≤ ctrl - (first + 1) * size := by
  have firstCell := backward_cell room firstInside
  have secondCell := backward_cell room secondInside
  have rows := @row_apart 0 size (first + 1) (second + 1) (by omega)
  omega

/-- Tuples before the control pointer. -/
structure FitsTuples (t : SlotTypes) (table : MidPointer numGroups groupSize) : Prop where
  regular : table.Regular
  pair_dvd_align : t.pair.align ∣ table.align
  pair_dvd_backward : t.pair.align ∣ table.backward
  tuple_room : table.numSlots * t.pair.size ≤ table.backward

section Tuples
variable {base : Nat}

/-- The key and the value of a slot lie in its tuple, before `ctrl`. -/
theorem tuple_inside (fits : table.FitsTuples t) (base : Nat) (slot : Fin numGroups × Fin groupSize) :
    (base ≤ (table.field t .aos base (.key slot)).start ∧
      (table.field t .aos base (.key slot)).stop ≤ base + table.backward) ∧
    (base ≤ (table.field t .aos base (.value slot)).start ∧
      (table.field t .aos base (.value slot)).stop ≤ base + table.backward) := by
  have cell := backward_cell (fits.tuple_room.trans (Nat.le_add_left _ base)) (fits.regular.below slot)
  have room := fits.tuple_room
  have keyInside := t.key_inside
  have valueInside := t.value_inside
  simp only [field, Storage.keyPtr, Storage.valuePtr, Region.stop, index, Nat.succ_mul] at cell ⊢
  omega

/-- Parts of two different tuples. -/
theorem tuples_apart (fits : table.FitsTuples t) (base : Nat) {slot other : Fin numGroups × Fin groupSize}
    (different : slot ≠ other) {offset size offset' size' : Nat} (inside : offset + size ≤ t.pair.size)
    (inside' : offset' + size' ≤ t.pair.size) :
    Disjoint
      (Region.mk (base + table.backward - (table.index slot + 1) * t.pair.size + offset) size).bytes
      (Region.mk (base + table.backward - (table.index other + 1) * t.pair.size + offset') size').bytes := by
  have room := fits.tuple_room.trans (Nat.le_add_left _ base)
  have rows := backward_apart room (fits.regular.below slot) (fits.regular.below other)
    (fits.regular.injective different)
  refine Region.disjoint_of_order ?_
  simp only [Region.stop]
  omega

theorem tuples_separated (fits : table.FitsTuples t) (leads : t.KeyLeads) (base : Nat) :
    Separated (table.field t .aos base) where
  keys slot other different := by
    have keyInside := t.key_inside
    exact tuples_apart fits base different (show 0 + t.key.size ≤ _ by omega) (show 0 + t.key.size ≤ _ by omega)
  values slot other different := tuples_apart fits base different t.value_inside t.value_inside
  key_value slot other := by
    by_cases same : slot = other
    · subst same
      exact (Region.disjoint_shift _).mpr leads
    · have keyInside := t.key_inside
      exact tuples_apart fits base same (show 0 + t.key.size ≤ _ by omega) t.value_inside
  key_metadata slot := Region.disjoint_of_before (tuple_inside fits base slot).1.2
  key_overflow slot := Region.disjoint_of_before ((tuple_inside fits base slot).1.2.trans (Nat.le_add_right _ _))
  value_metadata slot := Region.disjoint_of_before (tuple_inside fits base slot).2.2
  value_overflow slot := Region.disjoint_of_before ((tuple_inside fits base slot).2.2.trans (Nat.le_add_right _ _))
  metadata_overflow := Region.disjoint_of_before (Nat.le_refl _)

theorem aos_sound (fits : table.FitsTuples t) (leads : t.KeyLeads) : (table.layout t .aos).Sound t := by
  intro base aligned
  have pairDvd : t.pair.align ∣ base + table.backward :=
    Nat.dvd_add (fits.pair_dvd_align.trans aligned) fits.pair_dvd_backward
  have tupleDvd : ∀ slot, t.pair.align ∣ base + table.backward - (table.index slot + 1) * t.pair.size :=
    fun slot => Nat.dvd_sub pairDvd (t.pair.size_aligned.mul_left _)
  have whole : table.backward + table.valuesOffset ≤ (table.layout t .aos).size := Nat.le_max_left _ _
  have extra := fits.regular.extra_room
  refine ⟨fun part => ?_, fun part => ?_, (tuples_separated fits leads base).apart⟩
  · cases part with
    | key slot => exact t.keyAlign_dvd.trans (tupleDvd slot)
    | value slot => exact Nat.dvd_add (t.valueAlign_dvd.trans (tupleDvd slot)) t.valueOffset_aligned
    | metadata =>
        exact Nat.dvd_add (fits.regular.meta_dvd_align.trans aligned) fits.regular.meta_dvd_backward
    | overflow => exact Nat.one_dvd _
  · cases part with
    | key slot =>
        obtain ⟨starts, stops⟩ := (tuple_inside fits base slot).1
        exact ⟨starts, stops.trans (Nat.add_le_add_left ((Nat.le_add_right _ _).trans whole) base)⟩
    | value slot =>
        obtain ⟨starts, stops⟩ := (tuple_inside fits base slot).2
        exact ⟨starts, stops.trans (Nat.add_le_add_left ((Nat.le_add_right _ _).trans whole) base)⟩
    | metadata =>
        simp only [layout, field, Region.stop] at whole ⊢
        omega
    | overflow =>
        simp only [layout, field, Region.stop] at whole ⊢
        omega

/-- The tuple storage is sound when the key comes first in the tuple, and only then. -/
theorem aos_sound_iff (fits : table.FitsTuples t) (groups : 0 < numGroups) (slots : 0 < groupSize) :
    (table.layout t .aos).Sound t ↔ t.KeyLeads := by
  refine ⟨fun sound => ?_, aos_sound fits⟩
  have placed := sound table.align (Nat.dvd_refl _)
  have apart := placed.apart (.key (⟨0, groups⟩, ⟨0, slots⟩)) (.value (⟨0, groups⟩, ⟨0, slots⟩)) (by simp)
  exact (Region.disjoint_shift _).mp apart

end Tuples

/-! ## Arrays around the metadata -/

/-- Keys before the control pointer, values behind the overflow bytes. -/
structure FitsArrays (t : SlotTypes) (table : MidPointer numGroups groupSize) : Prop where
  regular : table.Regular
  key_dvd_align : t.key.align ∣ table.align
  value_dvd_align : t.value.align ∣ table.align
  key_dvd_backward : t.key.align ∣ table.backward
  value_dvd_offset : t.value.align ∣ table.valuesOffset
  key_room : table.numSlots * t.key.size ≤ table.backward

theorem arrays_separated (fits : table.FitsArrays t) (base : Nat) : Separated (table.field t .soa base) := by
  have keyRoom := fits.key_room.trans (Nat.le_add_left _ base)
  have extra := fits.regular.extra_room
  have cell := fun slot => backward_cell keyRoom (fits.regular.below slot)
  have keyBefore : ∀ slot, (table.field t .soa base (.key slot)).stop ≤ base + table.backward := by
    intro slot
    have here := cell slot
    simp only [field, Storage.keyPtr, Region.stop, index, Nat.succ_mul] at here ⊢
    omega
  have valueAfter : ∀ slot, base + table.backward + table.valuesOffset ≤
      (table.field t .soa base (.value slot)).start := fun slot => Nat.le_add_right _ _
  refine ⟨fun slot other different => ?_, fun slot other different => ?_, fun slot other => ?_, fun slot => ?_,
    fun slot => ?_, fun slot => ?_, fun slot => ?_, Region.disjoint_of_before (Nat.le_refl _)⟩
  · exact Region.disjoint_of_order (backward_apart keyRoom (fits.regular.below slot)
      (fits.regular.below other) (fits.regular.injective different))
  · exact Region.disjoint_of_order (row_apart (fits.regular.injective different))
  · exact Region.disjoint_of_before ((keyBefore slot).trans ((Nat.le_add_right _ _).trans (valueAfter other)))
  · exact Region.disjoint_of_before (keyBefore slot)
  · exact Region.disjoint_of_before ((keyBefore slot).trans (Nat.le_add_right _ _))
  · refine Region.disjoint_of_order (.inr (Nat.le_trans ?_ (valueAfter slot)))
    simp only [field, Region.stop]
    omega
  · refine Region.disjoint_of_order (.inr (Nat.le_trans ?_ (valueAfter slot)))
    simp only [field, Region.stop]
    omega

/-- The array storage is sound when the value array happens to be aligned: its
offset is rounded relative to `ctrl`, which is aligned for keys and metadata only. -/
theorem soa_sound_iff (fits : table.FitsArrays t) (groups : 0 < numGroups) (slots : 0 < groupSize) :
    (table.layout t .soa).Sound t ↔ t.value.align ∣ table.backward := by
  constructor
  · intro sound
    have placed := sound table.align (Nat.dvd_refl _)
    have aligned : t.value.align ∣ table.align + table.backward + table.valuesOffset +
        table.index (⟨0, groups⟩, ⟨0, slots⟩) * t.value.size :=
      placed.aligned (.value (⟨0, groups⟩, ⟨0, slots⟩))
    have cells := (Nat.dvd_add_left (t.value.size_aligned.mul_left _)).mp aligned
    have origin := (Nat.dvd_add_left fits.value_dvd_offset).mp cells
    exact (Nat.dvd_add_right fits.value_dvd_align).mp origin
  · intro valueDvd base aligned
    have keyRoom := fits.key_room.trans (Nat.le_add_left _ base)
    have room := fits.key_room
    have extra := fits.regular.extra_room
    have whole : table.backward + table.valuesOffset + table.numSlots * t.value.size ≤
        (table.layout t .soa).size := Nat.le_max_left _ _
    refine ⟨fun part => ?_, fun part => ?_, (arrays_separated fits base).apart⟩
    · cases part with
      | key slot =>
          exact Nat.dvd_sub (Nat.dvd_add (fits.key_dvd_align.trans aligned) fits.key_dvd_backward)
            (t.key.size_aligned.mul_left _)
      | value slot =>
          exact Nat.dvd_add (Nat.dvd_add (Nat.dvd_add (fits.value_dvd_align.trans aligned) valueDvd)
            fits.value_dvd_offset) (t.value.size_aligned.mul_left _)
      | metadata =>
          exact Nat.dvd_add (fits.regular.meta_dvd_align.trans aligned) fits.regular.meta_dvd_backward
      | overflow => exact Nat.one_dvd _
    · cases part with
      | key slot =>
          have here := backward_cell keyRoom (fits.regular.below slot)
          simp only [layout, field, Storage.keyPtr, Region.stop, index, Nat.succ_mul] at whole here ⊢
          omega
      | value slot =>
          have here := @row_inside t.value.size _ _ (fits.regular.below slot)
          simp only [layout, field, Storage.valuePtr, Region.stop, index] at whole here ⊢
          omega
      | metadata =>
          simp only [layout, field, Region.stop] at whole ⊢
          omega
      | overflow =>
          simp only [layout, field, Region.stop] at whole ⊢
          omega

end MidPointer

/-! ## The engines -/

section Engines
variable (t : SlotTypes) {numGroups : Nat}

theorem sixteen_power : ∃ bits, 16 = 2 ^ bits := ⟨4, rfl⟩

theorem backwardSize_aos (numSlots : Nat) :
    Storage.backwardSize t .aos numSlots = roundUp (numSlots * t.pair.size) 16 :=
  alignUp_eq sixteen_power _

theorem backwardSize_soa (numSlots : Nat) :
    Storage.backwardSize t .soa numSlots = roundUp (numSlots * t.key.size) 16 :=
  alignUp_eq sixteen_power _

theorem valuesAlign_power (storage : Storage) : ∃ bits, storage.valuesAlign t = 2 ^ bits := by
  cases storage with
  | aos => exact ⟨0, rfl⟩
  | soa => exact max_power t.value.align_power ⟨0, rfl⟩

theorem allocAlign_power (storage : Storage) : ∃ bits, storage.allocAlign t = 2 ^ bits := by
  cases storage with
  | aos => exact max_power sixteen_power t.pair.align_power
  | soa => exact max_power (max_power sixteen_power t.key.align_power) t.value.align_power

theorem pair_dvd_allocAlign : t.pair.align ∣ Storage.allocAlign t .aos :=
  dvd_max_right sixteen_power t.pair.align_power

theorem key_dvd_allocAlign : t.key.align ∣ Storage.allocAlign t .soa :=
  (dvd_max_right sixteen_power t.key.align_power).trans
    (dvd_max_left (max_power sixteen_power t.key.align_power) t.value.align_power)

theorem value_dvd_allocAlign : t.value.align ∣ Storage.allocAlign t .soa :=
  dvd_max_right (max_power sixteen_power t.key.align_power) t.value.align_power

theorem value_dvd_valuesAlign : t.value.align ∣ Storage.valuesAlign t .soa :=
  dvd_max_left t.value.align_power ⟨0, rfl⟩

section Overflow
variable {L : Overflow.GroupLayout}

theorem overflow_backward (stride : ∃ bits, L.metaStride = 2 ^ bits) (storage : Storage) :
    (overflowTable L t storage numGroups).backward =
      roundUp (storage.backwardSize t (numGroups * L.bucketStride)) L.metaStride :=
  alignUp_eq stride _

theorem overflow_valuesOffset (storage : Storage) :
    (overflowTable L t storage numGroups).valuesOffset =
      roundUp (numGroups * L.metaStride + L.overflow.extraBytes numGroups) (storage.valuesAlign t) :=
  alignUp_eq (valuesAlign_power t storage) _

theorem overflow_regular (stride : ∃ bits, L.metaStride = 2 ^ bits) (storage : Storage) :
    (overflowTable L t storage numGroups).Regular where
  index_lt {gi si} group slot := by
    have rows := @row_inside L.bucketStride numGroups gi group
    have room := L.bucket_room
    change gi * L.bucketStride + si < numGroups * L.bucketStride
    omega
  index_inj inside inside' same := Overflow.GroupLayout.bucketIndex_inj inside inside' same
  meta_dvd_align := dvd_max_right (allocAlign_power t storage) stride
  meta_dvd_backward := by
    rw [overflow_backward t stride]
    exact dvd_roundUp _ _
  extra_room := by
    rw [overflow_valuesOffset]
    exact le_roundUp (pow_pos_of (valuesAlign_power t storage)) _

theorem overflow_fitsTuples (stride : ∃ bits, L.metaStride = 2 ^ bits) :
    (overflowTable L t .aos numGroups).FitsTuples t where
  regular := overflow_regular t stride .aos
  pair_dvd_align := (pair_dvd_allocAlign t).trans (dvd_max_left (allocAlign_power t .aos) stride)
  pair_dvd_backward := by
    rw [overflow_backward t stride, backwardSize_aos]
    refine dvd_roundUp_of_dvd t.pair.align_power stride ?_
    exact dvd_roundUp_of_dvd t.pair.align_power sixteen_power (t.pair.size_aligned.mul_left _)
  tuple_room := by
    rw [overflow_backward t stride, backwardSize_aos]
    exact (le_roundUp (by decide) _).trans (le_roundUp (pow_pos_of stride) _)

theorem overflow_fitsArrays (stride : ∃ bits, L.metaStride = 2 ^ bits) :
    (overflowTable L t .soa numGroups).FitsArrays t where
  regular := overflow_regular t stride .soa
  key_dvd_align := (key_dvd_allocAlign t).trans (dvd_max_left (allocAlign_power t .soa) stride)
  value_dvd_align := (value_dvd_allocAlign t).trans (dvd_max_left (allocAlign_power t .soa) stride)
  key_dvd_backward := by
    rw [overflow_backward t stride, backwardSize_soa]
    refine dvd_roundUp_of_dvd t.key.align_power stride ?_
    exact dvd_roundUp_of_dvd t.key.align_power sixteen_power (t.key.size_aligned.mul_left _)
  value_dvd_offset := by
    refine (value_dvd_valuesAlign t).trans ?_
    rw [overflow_valuesOffset]
    exact dvd_roundUp _ _
  key_room := by
    rw [overflow_backward t stride, backwardSize_soa]
    exact (le_roundUp (by decide) _).trans (le_roundUp (pow_pos_of stride) _)

end Overflow

theorem inPlaceOverflow_backward_aos :
    (inPlaceOverflowTable t .aos numGroups).backward = roundUp (numGroups * 16 * t.pair.size) 16 :=
  backwardSize_aos t _

theorem inPlaceOverflow_backward_soa :
    (inPlaceOverflowTable t .soa numGroups).backward = roundUp (numGroups * 16 * t.key.size) 16 :=
  backwardSize_soa t _

theorem inPlaceOverflow_valuesOffset (storage : Storage) :
    (inPlaceOverflowTable t storage numGroups).valuesOffset = roundUp (numGroups * 16) (storage.valuesAlign t) :=
  alignUp_eq (valuesAlign_power t storage) _

theorem inPlaceOverflow_regular (storage : Storage) : (inPlaceOverflowTable t storage numGroups).Regular where
  index_lt {gi si} group slot := by
    have rows := @row_inside 16 numGroups gi group
    have same : gi <<< 4 ||| si = gi * 16 + si := by
      rw [← Nat.shiftLeft_add_eq_or_of_lt (show si < 2 ^ 4 from slot), Nat.shiftLeft_eq]
    change gi <<< 4 ||| si < numGroups * 16
    rw [same]
    omega
  index_inj {gi si gi' si'} inside inside' same := by
    change gi <<< 4 ||| si = gi' <<< 4 ||| si' at same
    rw [← Nat.shiftLeft_add_eq_or_of_lt (show si < 2 ^ 4 from inside), ← Nat.shiftLeft_add_eq_or_of_lt
      (show si' < 2 ^ 4 from inside'), Nat.shiftLeft_eq, Nat.shiftLeft_eq] at same
    exact strided_inj inside inside' same
  meta_dvd_align := by
    cases storage with
    | aos => exact dvd_max_left sixteen_power t.pair.align_power
    | soa =>
        exact (dvd_max_left sixteen_power t.key.align_power).trans
          (dvd_max_left (max_power sixteen_power t.key.align_power) t.value.align_power)
  meta_dvd_backward := by
    cases storage with
    | aos =>
        rw [inPlaceOverflow_backward_aos]
        exact dvd_roundUp _ _
    | soa =>
        rw [inPlaceOverflow_backward_soa]
        exact dvd_roundUp _ _
  extra_room := by
    rw [inPlaceOverflow_valuesOffset]
    exact le_roundUp (pow_pos_of (valuesAlign_power t storage)) _

theorem inPlaceOverflow_fitsTuples : (inPlaceOverflowTable t .aos numGroups).FitsTuples t where
  regular := inPlaceOverflow_regular t .aos
  pair_dvd_align := pair_dvd_allocAlign t
  pair_dvd_backward := by
    rw [inPlaceOverflow_backward_aos]
    exact dvd_roundUp_of_dvd t.pair.align_power sixteen_power (t.pair.size_aligned.mul_left _)
  tuple_room := by
    rw [inPlaceOverflow_backward_aos]
    exact le_roundUp (by decide) _

theorem inPlaceOverflow_fitsArrays : (inPlaceOverflowTable t .soa numGroups).FitsArrays t where
  regular := inPlaceOverflow_regular t .soa
  key_dvd_align := key_dvd_allocAlign t
  value_dvd_align := value_dvd_allocAlign t
  key_dvd_backward := by
    rw [inPlaceOverflow_backward_soa]
    exact dvd_roundUp_of_dvd t.key.align_power sixteen_power (t.key.size_aligned.mul_left _)
  value_dvd_offset := by
    refine (value_dvd_valuesAlign t).trans ?_
    rw [inPlaceOverflow_valuesOffset]
    exact dvd_roundUp _ _
  key_room := by
    rw [inPlaceOverflow_backward_soa]
    exact le_roundUp (by decide) _

/-! ## ipo64 -/

section Forward
variable {t}

/-- The tuples start behind the metadata, aligned relative to the base. -/
theorem ipo64_offset (t : SlotTypes) (numGroups : Nat) :
    numGroups * 64 ≤ alignUp (numGroups * 64) (max t.pair.align 1) ∧
      t.pair.align ∣ alignUp (numGroups * 64) (max t.pair.align 1) := by
  have power : ∃ bits, max t.pair.align 1 = 2 ^ bits := max_power t.pair.align_power ⟨0, rfl⟩
  rw [alignUp_eq power]
  exact ⟨le_roundUp (pow_pos_of power) _, (dvd_max_left t.pair.align_power ⟨0, rfl⟩).trans (dvd_roundUp _ _)⟩

theorem forward_index_lt (slot : Fin numGroups × Fin 64) : slot.1.val * 64 + slot.2.val < numGroups * 64 := by
  have rows := @row_inside 64 numGroups slot.1 slot.1.isLt
  have column := slot.2.isLt
  omega

theorem forward_index_ne {slot other : Fin numGroups × Fin 64} (different : slot ≠ other) :
    slot.1.val * 64 + slot.2.val ≠ other.1.val * 64 + other.2.val := by
  intro same
  obtain ⟨rows, columns⟩ := strided_inj slot.2.isLt other.2.isLt same
  exact different (Prod.ext (Fin.ext rows) (Fin.ext columns))

theorem forward_apart {origin : Nat} {slot other : Fin numGroups × Fin 64} (different : slot ≠ other)
    {offset size offset' size' : Nat} (inside : offset + size ≤ t.pair.size)
    (inside' : offset' + size' ≤ t.pair.size) :
    Disjoint (Region.mk (origin + (slot.1.val * 64 + slot.2.val) * t.pair.size + offset) size).bytes
      (Region.mk (origin + (other.1.val * 64 + other.2.val) * t.pair.size + offset') size').bytes := by
  have rows := @row_apart origin t.pair.size _ _ (forward_index_ne different)
  refine Region.disjoint_of_order ?_
  simp only [Region.stop]
  omega

theorem forward_separated (t : SlotTypes) (numGroups base : Nat) :
    Separated ((ipo64Table t numGroups).field base) := by
  obtain ⟨behind, _⟩ := ipo64_offset t numGroups
  have after : ∀ slot offset, base + numGroups * 64 ≤ base + alignUp (numGroups * 64) (max t.pair.align 1) +
      ((slot : Fin numGroups × Fin 64).1.val * 64 + slot.2.val) * t.pair.size + offset := fun slot offset => by
    omega
  refine ⟨fun slot other different => forward_apart different t.key_inside t.key_inside,
    fun slot other different => forward_apart different t.value_inside t.value_inside,
    fun slot other => ?_, fun slot => ?_, fun slot => ?_, fun slot => ?_, fun slot => ?_,
    Region.disjoint_of_before (Nat.le_refl _)⟩
  · by_cases same : slot = other
    · subst same
      exact (Region.disjoint_shift _).mpr t.fields_apart
    · exact forward_apart same t.key_inside t.value_inside
  · exact Region.disjoint_of_order (.inr (after slot _))
  · exact Region.disjoint_of_order (.inr (after slot _))
  · exact Region.disjoint_of_order (.inr (after slot _))
  · exact Region.disjoint_of_order (.inr (after slot _))

/-- The requested alignment of 64 covers types of an alignment of at most 64. -/
theorem ipo64_sound_iff (t : SlotTypes) (groups : 0 < numGroups) :
    (ipo64Table t numGroups).Sound t ↔ t.key.align ≤ 64 ∧ t.value.align ≤ 64 := by
  obtain ⟨behind, bucketDvd⟩ := ipo64_offset t numGroups
  have sixtyFour : ∃ bits, 64 = 2 ^ bits := ⟨6, rfl⟩
  constructor
  · intro sound
    have placed := sound 64 (Nat.dvd_refl _)
    have keyAligned : t.key.align ∣ 64 + alignUp (numGroups * 64) (max t.pair.align 1) +
        (0 * 64 + 0) * t.pair.size + t.keyOffset := placed.aligned (.key (⟨0, groups⟩, 0))
    have valueAligned : t.value.align ∣ 64 + alignUp (numGroups * 64) (max t.pair.align 1) +
        (0 * 64 + 0) * t.pair.size + t.valueOffset := placed.aligned (.value (⟨0, groups⟩, 0))
    rw [Nat.zero_mul, Nat.add_zero] at keyAligned valueAligned
    have keyBase := (Nat.dvd_add_left t.keyOffset_aligned).mp keyAligned
    have valueBase := (Nat.dvd_add_left t.valueOffset_aligned).mp valueAligned
    exact ⟨Nat.le_of_dvd (by decide) ((Nat.dvd_add_left (t.keyAlign_dvd.trans bucketDvd)).mp keyBase),
      Nat.le_of_dvd (by decide) ((Nat.dvd_add_left (t.valueAlign_dvd.trans bucketDvd)).mp valueBase)⟩
  · rintro ⟨keyNarrow, valueNarrow⟩ base aligned
    have keyBase := ((pow_dvd_iff_le t.key.align_power sixtyFour).mpr keyNarrow).trans aligned
    have valueBase := ((pow_dvd_iff_le t.value.align_power sixtyFour).mpr valueNarrow).trans aligned
    have whole : alignUp (numGroups * 64) (max t.pair.align 1) + numGroups * 64 * t.pair.size ≤
        (ipo64Table t numGroups).size := Nat.le_max_left _ _
    refine ⟨fun part => ?_, fun part => ?_, (forward_separated t numGroups base).apart⟩
    · cases part with
      | key slot =>
          exact Nat.dvd_add (Nat.dvd_add (Nat.dvd_add keyBase (t.keyAlign_dvd.trans bucketDvd))
            ((t.keyAlign_dvd.trans t.pair.size_aligned).mul_left _)) t.keyOffset_aligned
      | value slot =>
          exact Nat.dvd_add (Nat.dvd_add (Nat.dvd_add valueBase (t.valueAlign_dvd.trans bucketDvd))
            ((t.valueAlign_dvd.trans t.pair.size_aligned).mul_left _)) t.valueOffset_aligned
      | metadata => exact aligned
      | overflow => exact Nat.one_dvd _
    · cases part with
      | key slot =>
          have row := @row_inside t.pair.size _ _ (forward_index_lt slot)
          have inside := t.key_inside
          simp only [ipo64Table, Region.stop] at whole ⊢
          omega
      | value slot =>
          have row := @row_inside t.pair.size _ _ (forward_index_lt slot)
          have inside := t.value_inside
          simp only [ipo64Table, Region.stop] at whole ⊢
          omega
      | metadata =>
          simp only [ipo64Table, Region.stop] at whole ⊢
          omega
      | overflow =>
          simp only [ipo64Table, Region.stop] at whole ⊢
          omega

end Forward

end Engines

/-- `u64` to `u64`. -/
def wordToWord : SlotTypes where
  key := ⟨8, 8, ⟨3, rfl⟩, by decide⟩
  value := ⟨8, 8, ⟨3, rfl⟩, by decide⟩
  pair := ⟨16, 8, ⟨3, rfl⟩, by decide⟩
  keyOffset := 0
  valueOffset := 8
  keyAlign_dvd := by decide
  valueAlign_dvd := by decide
  keyOffset_aligned := by decide
  valueOffset_aligned := by decide
  key_inside := by decide
  value_inside := by decide
  fields_apart := by decide

/-- `u32` to `u64`, with the larger field first in the tuple, as the compiler
orders it. -/
def intToWord : SlotTypes where
  key := ⟨4, 4, ⟨2, rfl⟩, by decide⟩
  value := ⟨8, 8, ⟨3, rfl⟩, by decide⟩
  pair := ⟨16, 8, ⟨3, rfl⟩, by decide⟩
  keyOffset := 8
  valueOffset := 0
  keyAlign_dvd := by decide
  valueAlign_dvd := by decide
  keyOffset_aligned := by decide
  valueOffset_aligned := by decide
  key_inside := by decide
  value_inside := by decide
  fields_apart := by decide

/-- `u8` to a type of 128 bytes that is aligned to 128. -/
def byteToLine : SlotTypes where
  key := ⟨1, 1, ⟨0, rfl⟩, by decide⟩
  value := ⟨128, 128, ⟨7, rfl⟩, by decide⟩
  pair := ⟨256, 128, ⟨7, rfl⟩, by decide⟩
  keyOffset := 128
  valueOffset := 0
  keyAlign_dvd := by decide
  valueAlign_dvd := by decide
  keyOffset_aligned := by decide
  valueOffset_aligned := by decide
  key_inside := by decide
  value_inside := by decide
  fields_apart := by decide

end Optimap.HashEngines
