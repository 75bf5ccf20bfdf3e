import Optimap.FlatBTree.PathBuffer
import Optimap.Lib.Regions

/-!
# The bytes of a node

Leaf and internal nodes share one block of 256 bytes, which the arena aligns to
256. Every array of a node starts where the one before it ends, without padding.
-/

set_option autoImplicit false

namespace Optimap.FlatBTree

open Lib

/-- `NODE_SIZE`. -/
def nodeSize : Nat := 256

/-- `HEADER_SIZE`: two `u16` and the parent index. -/
def headerSize : Nat := 8

/-- `LEAF_LINK_SIZE`: `prev` and `next`. -/
def leafLinkSize : Nat := 8

section Pointers
variable (key value : TypeLayout)

def leafKeyPtr (node idx : Nat) : Nat := node + (headerSize + idx * key.size)

def leafValPtr (node idx : Nat) : Nat :=
  let valsOffset := headerSize + leafCapOf key.size value.size * key.size
  node + (valsOffset + idx * value.size)

def leafPrevPtr (node : Nat) : Nat := node + (nodeSize - leafLinkSize)

def leafNextPtr (node : Nat) : Nat := node + (nodeSize - 4)

def internalKeyPtr (node idx : Nat) : Nat := node + (headerSize + idx * key.size)

def internalChildPtr (node idx : Nat) : Nat :=
  let childrenOffset := headerSize + internalCapOf key.size * key.size
  node + (childrenOffset + idx * 4)

end Pointers

/-! ## Fields of a node -/

inductive LeafField (cap : Nat) where
  | header
  | key (idx : Fin cap)
  | val (idx : Fin cap)
  | prev
  | next

inductive InternalField (cap : Nat) where
  | header
  | key (idx : Fin cap)
  | child (idx : Fin (cap + 1))

section Fields
variable (key value : TypeLayout)

def leafField (node : Nat) : LeafField (leafCapOf key.size value.size) → Region
  | .header => ⟨node, headerSize⟩
  | .key idx => ⟨leafKeyPtr key node idx, key.size⟩
  | .val idx => ⟨leafValPtr key value node idx, value.size⟩
  | .prev => ⟨leafPrevPtr node, 4⟩
  | .next => ⟨leafNextPtr node, 4⟩

/-- The header and the node indices are aligned to four bytes. -/
def leafAlign : LeafField (leafCapOf key.size value.size) → Nat
  | .key _ => key.align
  | .val _ => value.align
  | .header | .prev | .next => 4

def internalField (node : Nat) : InternalField (internalCapOf key.size) → Region
  | .header => ⟨node, headerSize⟩
  | .key idx => ⟨internalKeyPtr key node idx, key.size⟩
  | .child idx => ⟨internalChildPtr key node idx, 4⟩

def internalAlign : InternalField (internalCapOf key.size) → Nat
  | .key _ => key.align
  | .header | .child _ => 4

/-- Every field of a leaf and of an internal node is aligned, in the node and
apart from the others, in every block that the arena hands out. -/
def NodeSound : Prop :=
  ∀ node, nodeSize ∣ node →
    Placed (leafField key value node) (leafAlign key value) ⟨node, nodeSize⟩ ∧
    Placed (internalField key node) (internalAlign key) ⟨node, nodeSize⟩

end Fields

section Layout
variable {key value : TypeLayout}

/-- The capacities leave room for the arrays, whatever the sizes are. -/
theorem leaf_room (keySize valueSize : Nat) :
    leafCapOf keySize valueSize * keySize + leafCapOf keySize valueSize * valueSize ≤ 240 := by
  rw [← Nat.mul_add, leafCapOf]
  split
  · rename_i zero
    rw [zero]
    decide
  · exact Nat.div_mul_le_self 240 (keySize + valueSize)

theorem internal_room (keySize : Nat) :
    internalCapOf keySize * keySize + internalCapOf keySize * 4 ≤ 244 := by
  rw [← Nat.mul_add, internalCapOf, if_neg (by omega)]
  exact Nat.div_mul_le_self 244 (keySize + 4)

/-! The arrays of a node as rows of cells. -/

def LeafField.row {cap : Nat} : LeafField cap → Nat
  | .header => 0
  | .key _ => 1
  | .val _ => 2
  | .prev => 3
  | .next => 4

def LeafField.cell {cap : Nat} : LeafField cap → Nat
  | .key idx | .val idx => idx
  | .header | .prev | .next => 0

def InternalField.row {cap : Nat} : InternalField cap → Nat
  | .header => 0
  | .key _ => 1
  | .child _ => 2

def InternalField.cell {cap : Nat} : InternalField cap → Nat
  | .header => 0
  | .key idx => idx
  | .child idx => idx

theorem leaf_apart (node : Nat) (field other : LeafField (leafCapOf key.size value.size))
    (different : field ≠ other) :
    Disjoint (leafField key value node field).bytes (leafField key value node other).bytes := by
  have room := leaf_room key.size value.size
  refine apart_of_rows LeafField.row LeafField.cell
    (fun row => node + [0, 8, 8 + leafCapOf key.size value.size * key.size, 248, 252].getD row 0)
    (fun row => [8, key.size, value.size, 4, 4].getD row 0)
    (fun row => [1, leafCapOf key.size value.size, leafCapOf key.size value.size, 1, 1].getD row 0)
    (fun field => ?_) (fun field => ?_) (fun field other below => ?_) (fun field other sameRow sameCell => ?_)
    field other different
  · cases field <;>
      simp [leafField, LeafField.row, LeafField.cell, leafKeyPtr, leafValPtr, leafPrevPtr, leafNextPtr, headerSize,
        nodeSize, leafLinkSize, Nat.add_assoc]
  · cases field with
    | key idx => exact idx.isLt
    | val idx => exact idx.isLt
    | header => exact Nat.zero_lt_one
    | prev => exact Nat.zero_lt_one
    | next => exact Nat.zero_lt_one
  · cases field <;> cases other <;> simp [LeafField.row] at below ⊢ <;> omega
  · cases field <;> cases other <;> simp_all [LeafField.row, LeafField.cell, Fin.ext_iff]

theorem internal_apart (node : Nat) (field other : InternalField (internalCapOf key.size))
    (different : field ≠ other) :
    Disjoint (internalField key node field).bytes (internalField key node other).bytes := by
  have room := internal_room key.size
  refine apart_of_rows InternalField.row InternalField.cell
    (fun row => node + [0, 8, 8 + internalCapOf key.size * key.size].getD row 0)
    (fun row => [8, key.size, 4].getD row 0)
    (fun row => [1, internalCapOf key.size, internalCapOf key.size + 1].getD row 0)
    (fun field => ?_) (fun field => ?_) (fun field other below => ?_) (fun field other sameRow sameCell => ?_)
    field other different
  · cases field <;>
      simp [internalField, InternalField.row, InternalField.cell, internalKeyPtr, internalChildPtr, headerSize,
        Nat.add_assoc]
  · cases field with
    | header => exact Nat.zero_lt_one
    | key idx => exact idx.isLt
    | child idx => exact idx.isLt
  · cases field <;> cases other <;> simp [InternalField.row] at below ⊢
    omega
  · cases field <;> cases other <;> simp_all [InternalField.row, InternalField.cell, Fin.ext_iff]

theorem leaf_inside (node : Nat) (field : LeafField (leafCapOf key.size value.size)) :
    node ≤ (leafField key value node field).start ∧
      (leafField key value node field).stop ≤ node + nodeSize := by
  have room := leaf_room key.size value.size
  cases field with
  | key idx =>
      have row := @row_inside key.size _ _ idx.isLt
      simp only [leafField, leafKeyPtr, Region.stop, headerSize, nodeSize]
      omega
  | val idx =>
      have row := @row_inside value.size _ _ idx.isLt
      simp only [leafField, leafValPtr, Region.stop, headerSize, nodeSize]
      omega
  | header | prev | next =>
      simp only [leafField, leafPrevPtr, leafNextPtr, Region.stop, headerSize, nodeSize, leafLinkSize]
      omega

theorem internal_inside (node : Nat) (field : InternalField (internalCapOf key.size)) :
    node ≤ (internalField key node field).start ∧
      (internalField key node field).stop ≤ node + nodeSize := by
  have room := internal_room key.size
  cases field with
  | header =>
      simp only [internalField, Region.stop, headerSize, nodeSize]
      omega
  | key idx =>
      have row := @row_inside key.size _ _ idx.isLt
      simp only [internalField, internalKeyPtr, Region.stop, headerSize, nodeSize]
      omega
  | child idx =>
      have row := idx.isLt
      simp only [internalField, internalChildPtr, Region.stop, headerSize, nodeSize]
      omega

/-- An offset that is aligned in every block of the arena. -/
theorem dvd_every_block {align offset : Nat} (aligned : ∀ node, nodeSize ∣ node → align ∣ node + offset) :
    align ∣ nodeSize ∧ align ∣ offset := by
  have origin : align ∣ offset := by
    have first := aligned 0 (Nat.dvd_zero _)
    rwa [Nat.zero_add] at first
  exact ⟨(Nat.dvd_add_left origin).mp (aligned nodeSize (Nat.dvd_refl _)), origin⟩

end Layout

/-- A node is laid out soundly exactly when keys are content with the alignment of
eight behind the header, and the value and child arrays, which follow the keys
without padding, start at aligned offsets. -/
theorem node_layout_sound_iff (key value : TypeLayout) (leaf : 1 ≤ leafCapOf key.size value.size) :
    NodeSound key value ↔
      key.align ≤ 8 ∧ value.align ≤ 256 ∧
        value.align ∣ 8 + 240 / (key.size + value.size) * key.size ∧
        4 ∣ 244 / (key.size + 4) * key.size := by
  have eight : ∃ bits, 8 = 2 ^ bits := ⟨3, rfl⟩
  have block : ∃ bits, nodeSize = 2 ^ bits := ⟨8, rfl⟩
  -- Without key bytes the capacity does not matter.
  have leafCap : leafCapOf key.size value.size * key.size = 240 / (key.size + value.size) * key.size := by
    rw [leafCapOf]
    split
    · rename_i zero
      rw [Nat.eq_zero_of_add_eq_zero_right zero, Nat.mul_zero, Nat.mul_zero]
    · rfl
  have internalCap : internalCapOf key.size = 244 / (key.size + 4) := if_neg (by omega)
  rw [← leafCap, ← internalCap, ← pow_dvd_iff_le key.align_power eight,
    show (256 : Nat) = nodeSize from rfl, ← pow_dvd_iff_le value.align_power block]
  constructor
  · intro sound
    have keys : ∀ node, nodeSize ∣ node → key.align ∣ node + 8 := fun node aligned => by
      have slot := (sound node aligned).1.aligned (.key ⟨0, leaf⟩)
      simpa [leafField, leafAlign, leafKeyPtr, headerSize] using slot
    have values : ∀ node, nodeSize ∣ node →
        value.align ∣ node + (8 + leafCapOf key.size value.size * key.size) := fun node aligned => by
      have slot := (sound node aligned).1.aligned (.val ⟨0, leaf⟩)
      simpa [leafField, leafAlign, leafValPtr, headerSize] using slot
    have children : ∀ node, nodeSize ∣ node → 4 ∣ node + (8 + internalCapOf key.size * key.size) :=
      fun node aligned => by
        have slot := (sound node aligned).2.aligned (.child 0)
        simpa [internalField, internalAlign, internalChildPtr, headerSize] using slot
    obtain ⟨valueBlock, valueOffset⟩ := dvd_every_block values
    have childOffset := (dvd_every_block children).2
    exact ⟨(dvd_every_block keys).2, valueBlock, valueOffset, (Nat.dvd_add_right (by decide)).mp childOffset⟩
  · rintro ⟨keyEight, valueBlock, valueOffset, childOffset⟩ node aligned
    have four : 4 ∣ node := (show 4 ∣ nodeSize by decide).trans aligned
    have keySlots : ∀ idx, key.align ∣ node + (headerSize + idx * key.size) := fun idx =>
      Nat.dvd_add ((keyEight.trans (by decide)).trans aligned)
        (Nat.dvd_add keyEight (key.size_aligned.mul_left _))
    refine ⟨⟨fun field => ?_, leaf_inside node, leaf_apart node⟩,
      ⟨fun field => ?_, internal_inside node, internal_apart node⟩⟩
    · cases field with
      | header => exact four
      | key idx => exact keySlots idx
      | val idx =>
          exact Nat.dvd_add (valueBlock.trans aligned) (Nat.dvd_add valueOffset (value.size_aligned.mul_left _))
      | prev => exact Nat.dvd_add four (show 4 ∣ nodeSize - leafLinkSize by decide)
      | next => exact Nat.dvd_add four (show 4 ∣ nodeSize - 4 by decide)
    · cases field with
      | header => exact four
      | key idx => exact keySlots idx
      | child idx =>
          exact Nat.dvd_add four (Nat.dvd_add (Nat.dvd_add (show 4 ∣ headerSize by decide) childOffset) (Nat.dvd_mul_left _ _))

/-- `u64` to `u64`. -/
theorem word_node_sound : NodeSound ⟨8, 8, ⟨3, rfl⟩, by decide⟩ ⟨8, 8, ⟨3, rfl⟩, by decide⟩ :=
  (node_layout_sound_iff _ _ (by decide)).mpr (by decide)

/-- `u8` to `u64`: 26 keys end at offset 34, where the values start. -/
theorem byte_to_word_node_unsound :
    1 ≤ leafCapOf 1 8 ∧ 2 ≤ internalCapOf 1 ∧
      ¬ NodeSound ⟨1, 1, ⟨0, rfl⟩, by decide⟩ ⟨8, 8, ⟨3, rfl⟩, by decide⟩ := by
  refine ⟨by decide, by decide, fun sound => ?_⟩
  have slot : 8 ∣ leafValPtr ⟨1, 1, ⟨0, rfl⟩, by decide⟩ ⟨8, 8, ⟨3, rfl⟩, by decide⟩ 256 0 :=
    (sound 256 (by decide)).1.aligned (.val ⟨0, by decide⟩)
  exact absurd slot (by decide)

end Optimap.FlatBTree
