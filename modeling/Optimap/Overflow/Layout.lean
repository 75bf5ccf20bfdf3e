import Optimap.Hash.Components

/-!
# Group layouts of the overflow-bit table

A layout fixes how a hash is reduced to a tag and an overflow channel, where the
overflow information of a group lives among the control bytes, and how many
slots a group has.
-/

set_option autoImplicit false

namespace Optimap.Overflow

open Hash

structure TagStrategy where
  tag : UInt64 → UInt8
  overflowChannel : UInt64 → UInt8
  tag_ne_empty : ∀ h, tag h ≠ 0
  /-- A channel is one bit. -/
  channel_single : ∀ h, ∃ bit : UInt8, overflowChannel h = 1 <<< bit

def lowTag255 (feature : ReducedHash) : TagStrategy where
  tag := hashTag feature
  overflowChannel := channelBit
  tag_ne_empty := hashTag_ne_zero feature
  channel_single := channelBit_single

def lowTag255ChSafe (feature : ReducedHash) : TagStrategy where
  tag h := hashTag feature (h >>> 8)
  overflowChannel := channelBit
  tag_ne_empty _ := hashTag_ne_zero feature _
  channel_single := channelBit_single

def lowTag128 : TagStrategy where
  tag h := h.toUInt8 ||| 1
  overflowChannel := channelBit
  tag_ne_empty _ := or_ne_zero (by decide)
  channel_single := channelBit_single

def highTag128 : TagStrategy where
  tag h := (h >>> 56).toUInt8 ||| 0x80
  overflowChannel := channelBit
  tag_ne_empty _ := or_ne_zero (by decide)
  channel_single := channelBit_single

def highTag255 (feature : ReducedHash) : TagStrategy where
  tag h := hashTag feature (h >>> 56)
  overflowChannel := channelBit
  tag_ne_empty _ := hashTag_ne_zero feature _
  channel_single := channelBit_single

def highTag128ChSafe : TagStrategy where
  tag h := (h >>> 56).toUInt8 ||| 0x80
  overflowChannel h := channelBit (h >>> 48)
  tag_ne_empty _ := or_ne_zero (by decide)
  channel_single _ := channelBit_single _

def highTag255ChSafe (feature : ReducedHash) : TagStrategy where
  tag h := hashTag feature (h >>> 56)
  overflowChannel h := channelBit (h >>> 48)
  tag_ne_empty _ := hashTag_ne_zero feature _
  channel_single _ := channelBit_single _

theorem TagStrategy.channel_ne_zero (tags : TagStrategy) (h : UInt64) : tags.overflowChannel h ≠ 0 := by
  obtain ⟨bit, single⟩ := tags.channel_single h
  rw [single]
  exact shift_one_ne_zero bit

/-- Where a group's overflow information is stored. -/
inductive OverflowStrategy where
  /-- One byte per group behind the metadata. -/
  | byteSeparate
  /-- One bit per group behind the metadata. -/
  | bitSeparate
  /-- The last metadata byte of the group. -/
  | embedded
  deriving DecidableEq

/-- `CHANNELED`: one overflow bit per hash channel. -/
def OverflowStrategy.channeled : OverflowStrategy → Bool
  | .bitSeparate => false
  | .byteSeparate | .embedded => true

def OverflowStrategy.extraBytes (strategy : OverflowStrategy) (numGroups : Nat) : Nat :=
  match strategy with
  | .byteSeparate => numGroups
  | .bitSeparate => (numGroups + 7) / 8
  | .embedded => 0

/-- The constants of a layout, with what the table relies on: the slots of a
group fit its bucket and metadata strides, an embedded overflow byte is no slot,
and the load factor is below one but leaves room for an entry in one group. -/
structure GroupLayout where
  tags : TagStrategy
  overflow : OverflowStrategy
  groupSize : Nat
  bucketStride : Nat
  metaStride : Nat
  groupIndexRegion : HashRegion
  loadFactorNum : Nat
  loadFactorDen : Nat
  bucket_room : groupSize ≤ bucketStride
  meta_room : groupSize ≤ metaStride
  embedded_room : overflow = .embedded → groupSize < metaStride
  load_lt_one : loadFactorNum < loadFactorDen
  load_room : loadFactorDen ≤ groupSize * loadFactorNum

namespace GroupLayout

variable (L : GroupLayout)

theorem loadFactorDen_pos : 0 < L.loadFactorDen := Nat.zero_lt_of_lt L.load_lt_one

theorem groupSize_pos : 0 < L.groupSize := by
  have room := L.load_room
  have positive := L.loadFactorDen_pos
  rcases Nat.eq_zero_or_pos L.groupSize with zero | positive
  · rw [zero, Nat.zero_mul] at room; omega
  · exact positive

theorem loadFactorNum_pos : 0 < L.loadFactorNum := by
  have room := L.load_room
  have positive := L.loadFactorDen_pos
  rcases Nat.eq_zero_or_pos L.loadFactorNum with zero | positive
  · rw [zero, Nat.mul_zero] at room; omega
  · exact positive

def bucketIndex (gi si : Nat) : Nat := gi * L.bucketStride + si

/-- Offset of a metadata byte from `ctrl`. -/
def metaOffset (gi si : Nat) : Nat := gi * L.metaStride + si

/-- Offset of the byte that holds a group's overflow information. -/
def overflowOffset (mask gi : Nat) : Nat :=
  match L.overflow with
  | .byteSeparate => (mask + 1) * L.metaStride + gi
  | .bitSeparate => (mask + 1) * L.metaStride + (gi >>> 3)
  | .embedded => gi * L.metaStride + L.metaStride - 1

/-- The bits of that byte a channel stands for. -/
def overflowMask (gi : Nat) (channel : UInt8) : UInt8 :=
  match L.overflow with
  | .bitSeparate => 1 <<< UInt8.ofNat (gi &&& 7)
  | .byteSeparate | .embedded => channel

/-- Bytes from `ctrl` that are zeroed, and copied by a clone. -/
def ctrlBytes (numGroups : Nat) : Nat :=
  numGroups * L.metaStride + L.overflow.extraBytes numGroups

def maxLoadFor (numGroups : Nat) : Nat :=
  maxLoadForCapacity (numGroups * L.groupSize) L.loadFactorNum L.loadFactorDen

def groupsForCapacity (capacity : Nat) : Nat :=
  groupsFor L.groupSize L.loadFactorNum L.loadFactorDen capacity

theorem maxLoadFor_lt (numGroups : Nat) (positive : 0 < numGroups) :
    L.maxLoadFor numGroups < numGroups * L.groupSize := by
  unfold maxLoadFor maxLoadForCapacity
  rw [Nat.div_lt_iff_lt_mul L.loadFactorDen_pos]
  exact Nat.mul_lt_mul_of_pos_left L.load_lt_one (Nat.mul_pos positive L.groupSize_pos)

theorem maxLoadFor_mono {small large : Nat} (le : small ≤ large) :
    L.maxLoadFor small ≤ L.maxLoadFor large :=
  Nat.div_le_div_right (Nat.mul_le_mul_right _ (Nat.mul_le_mul_right _ le))

theorem maxLoadFor_pos (numGroups : Nat) (positive : 0 < numGroups) : 0 < L.maxLoadFor numGroups := by
  unfold maxLoadFor maxLoadForCapacity
  refine Nat.div_pos ?_ L.loadFactorDen_pos
  calc L.loadFactorDen ≤ L.groupSize * L.loadFactorNum := L.load_room
    _ ≤ numGroups * L.groupSize * L.loadFactorNum :=
        Nat.mul_le_mul_right _ (Nat.le_mul_of_pos_left _ positive)

/-- Twice the groups carry at least twice the load. -/
theorem maxLoadFor_double (numGroups : Nat) :
    2 * L.maxLoadFor numGroups ≤ L.maxLoadFor (numGroups * 2) := by
  unfold maxLoadFor maxLoadForCapacity
  rw [Nat.le_div_iff_mul_le L.loadFactorDen_pos]
  have whole := Nat.div_mul_le_self (numGroups * L.groupSize * L.loadFactorNum) L.loadFactorDen
  calc 2 * (numGroups * L.groupSize * L.loadFactorNum / L.loadFactorDen) * L.loadFactorDen
      = 2 * (numGroups * L.groupSize * L.loadFactorNum / L.loadFactorDen * L.loadFactorDen) := by ring
    _ ≤ 2 * (numGroups * L.groupSize * L.loadFactorNum) := Nat.mul_le_mul_left _ whole
    _ = numGroups * 2 * L.groupSize * L.loadFactorNum := by ring

theorem le_maxLoadFor_groupsForCapacity (capacity : Nat) :
    capacity ≤ L.maxLoadFor (L.groupsForCapacity capacity) :=
  le_maxLoad_groupsFor L.groupSize_pos L.loadFactorNum_pos L.loadFactorDen_pos capacity

theorem groupsForCapacity_power (capacity : Nat) : ∃ bits, L.groupsForCapacity capacity = 2 ^ bits :=
  nextPowerOfTwo_power _

/-! ## Addresses -/

variable {L}

theorem metaOffset_inj {gi si gi' si' : Nat} (inside : si < L.groupSize) (inside' : si' < L.groupSize)
    (same : L.metaOffset gi si = L.metaOffset gi' si') : gi = gi' ∧ si = si' :=
  strided_inj (Nat.lt_of_lt_of_le inside L.meta_room) (Nat.lt_of_lt_of_le inside' L.meta_room) same

theorem bucketIndex_inj {gi si gi' si' : Nat} (inside : si < L.groupSize)
    (inside' : si' < L.groupSize) (same : L.bucketIndex gi si = L.bucketIndex gi' si') :
    gi = gi' ∧ si = si' :=
  strided_inj (Nat.lt_of_lt_of_le inside L.bucket_room) (Nat.lt_of_lt_of_le inside' L.bucket_room) same

theorem metaOffset_lt {gi si mask : Nat} (bound : gi ≤ mask) (inside : si < L.groupSize) :
    L.metaOffset gi si < (mask + 1) * L.metaStride :=
  strided_lt (Nat.lt_of_lt_of_le inside L.meta_room) bound

theorem embedded_offset (strategy : L.overflow = .embedded) (mask gi : Nat) :
    L.overflowOffset mask gi = gi * L.metaStride + (L.metaStride - 1) := by
  have room := L.embedded_room strategy
  simp only [overflowOffset, strategy]
  omega

/-- No slot's metadata byte holds overflow information. -/
theorem metaOffset_ne_overflowOffset {gi si mask group : Nat} (inside : si < L.groupSize)
    (bound : gi ≤ mask) : L.metaOffset gi si ≠ L.overflowOffset mask group := by
  have below := metaOffset_lt bound inside
  cases strategy : L.overflow with
  | byteSeparate => simp only [overflowOffset, strategy]; omega
  | bitSeparate => simp only [overflowOffset, strategy]; omega
  | embedded =>
      have room := L.embedded_room strategy
      rw [embedded_offset strategy]
      intro same
      have columns := (strided_inj (by omega) (by omega) same).2
      omega

theorem overflowOffset_lt {mask gi : Nat} (bound : gi ≤ mask) :
    L.overflowOffset mask gi < L.ctrlBytes (mask + 1) := by
  unfold ctrlBytes OverflowStrategy.extraBytes
  cases strategy : L.overflow with
  | byteSeparate => simp only [overflowOffset, strategy]; omega
  | bitSeparate =>
      simp only [overflowOffset, strategy, Nat.shiftRight_eq_div_pow]
      omega
  | embedded =>
      have room := L.embedded_room strategy
      rw [embedded_offset strategy]
      exact strided_lt (by omega) bound

theorem overflowMask_ne_zero {gi : Nat} {channel : UInt8} (nonzero : channel ≠ 0) :
    L.overflowMask gi channel ≠ 0 := by
  unfold overflowMask
  cases L.overflow with
  | bitSeparate => exact shift_one_ne_zero _
  | byteSeparate => exact nonzero
  | embedded => exact nonzero

end GroupLayout

/-! ## The layouts of the crate -/

/-- All slots of the group are usable; overflow lives behind the metadata. -/
def separateLayout (width : Nat) (region : HashRegion) (tags : TagStrategy)
    (overflow : OverflowStrategy) (separate : overflow ≠ .embedded) (wide : 2 ≤ width) :
    GroupLayout where
  tags := tags
  overflow := overflow
  groupSize := width
  bucketStride := width
  metaStride := width
  groupIndexRegion := region
  loadFactorNum := 7
  loadFactorDen := 8
  bucket_room := Nat.le_refl _
  meta_room := Nat.le_refl _
  embedded_room embedded := absurd embedded separate
  load_lt_one := by decide
  load_room := by omega

/-- The last metadata byte of the group holds its overflow bits. -/
def embeddedLayout (width bucketStride : Nat) (region : HashRegion) (tags : TagStrategy)
    (wide : 3 ≤ width) (room : width - 1 ≤ bucketStride) : GroupLayout where
  tags := tags
  overflow := .embedded
  groupSize := width - 1
  bucketStride := bucketStride
  metaStride := width
  groupIndexRegion := region
  loadFactorNum := 7
  loadFactorDen := 8
  bucket_room := room
  meta_room := Nat.sub_le _ _
  embedded_room _ := by omega
  load_lt_one := by decide
  load_room := by omega

section Separate
variable (tags : TagStrategy) (overflow : OverflowStrategy) (separate : overflow ≠ .embedded)

def layout16 : GroupLayout := separateLayout 16 .high tags overflow separate (by decide)
def layout16And : GroupLayout := separateLayout 16 .low tags overflow separate (by decide)
def layout32 : GroupLayout := separateLayout 32 .high tags overflow separate (by decide)
def layout32And : GroupLayout := separateLayout 32 .low tags overflow separate (by decide)
def layout64 : GroupLayout := separateLayout 64 .high tags overflow separate (by decide)
def layout64And : GroupLayout := separateLayout 64 .low tags overflow separate (by decide)

end Separate

section Embedded
variable (tags : TagStrategy)

def layout16EmbCompact : GroupLayout := embeddedLayout 16 15 .high tags (by decide) (by decide)
def layout16EmbP2 : GroupLayout := embeddedLayout 16 16 .high tags (by decide) (by decide)
def layout16EmbCompactAnd : GroupLayout := embeddedLayout 16 15 .low tags (by decide) (by decide)
def layout16EmbP2And : GroupLayout := embeddedLayout 16 16 .low tags (by decide) (by decide)
def layout32EmbCompact : GroupLayout := embeddedLayout 32 31 .high tags (by decide) (by decide)
def layout32EmbP2 : GroupLayout := embeddedLayout 32 32 .high tags (by decide) (by decide)
def layout32EmbCompactAnd : GroupLayout := embeddedLayout 32 31 .low tags (by decide) (by decide)
def layout32EmbP2And : GroupLayout := embeddedLayout 32 32 .low tags (by decide) (by decide)
def layout64EmbCompact : GroupLayout := embeddedLayout 64 63 .high tags (by decide) (by decide)
def layout64EmbP2 : GroupLayout := embeddedLayout 64 64 .high tags (by decide) (by decide)
def layout64EmbCompactAnd : GroupLayout := embeddedLayout 64 63 .low tags (by decide) (by decide)
def layout64EmbP2And : GroupLayout := embeddedLayout 64 64 .low tags (by decide) (by decide)

end Embedded

section Named
variable (feature : ReducedHash)

def splitsiesLayout : GroupLayout := layout16 (lowTag255 feature) .byteSeparate (by decide)
def splitsies64Layout : GroupLayout := layout64 (lowTag255 feature) .byteSeparate (by decide)
def lowTag255With1bit : GroupLayout := layout16 (lowTag255 feature) .bitSeparate (by decide)
def ufmLayout : GroupLayout := layout16EmbCompact (lowTag255 feature)
def gapsLayout : GroupLayout := layout16EmbP2 (lowTag255 feature)

end Named

end Optimap.Overflow
