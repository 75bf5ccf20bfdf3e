import Mathlib

/-!
# Byte regions

Typed fields at computed addresses of an allocation: rounding to an alignment,
rows of equal cells, and what it means that all fields are aligned, in bounds
and apart.
-/

set_option autoImplicit false

namespace Optimap.Lib

/-! ## Rounding up -/

/-- The least multiple of `align` that is no less than `n`. -/
def roundUp (n align : Nat) : Nat := (n + align - 1) / align * align

/-- `(n + align - 1) & !(align - 1)`. -/
def alignUp (n align : Nat) : Nat := (n + align - 1).ldiff (align - 1)

/-- Clearing the low bits. -/
theorem ldiff_mask (n bits : Nat) : n.ldiff (2 ^ bits - 1) = n / 2 ^ bits * 2 ^ bits := by
  rw [← Nat.shiftRight_eq_div_pow, ← Nat.shiftLeft_eq]
  refine Nat.eq_of_testBit_eq fun bit => ?_
  rw [Nat.testBit_ldiff, Nat.testBit_two_pow_sub_one, Nat.testBit_shiftLeft, Nat.testBit_shiftRight]
  by_cases high : bits ≤ bit
  · simp [high, Nat.not_lt_of_le high, Nat.add_sub_of_le high]
  · simp [high, Nat.lt_of_not_le high]

theorem alignUp_eq {align : Nat} (power : ∃ bits, align = 2 ^ bits) (n : Nat) :
    alignUp n align = roundUp n align := by
  obtain ⟨bits, rfl⟩ := power
  exact ldiff_mask _ bits

theorem dvd_roundUp (n align : Nat) : align ∣ roundUp n align := Dvd.intro_left _ rfl

theorem le_roundUp {align : Nat} (positive : 0 < align) (n : Nat) : n ≤ roundUp n align := by
  have split := Nat.div_add_mod (n + align - 1) align
  have rest := Nat.mod_lt (n + align - 1) positive
  rw [roundUp, Nat.mul_comm]
  omega

/-- A multiple above `n` is no less than the rounded number. -/
theorem roundUp_le {n align multiple : Nat} (positive : 0 < align) (above : n ≤ multiple)
    (divides : align ∣ multiple) : roundUp n align ≤ multiple := by
  obtain ⟨count, rfl⟩ := divides
  have few : (n + align - 1) / align ≤ count := by
    refine Nat.le_of_lt_succ ((Nat.div_lt_iff_lt_mul positive).mpr ?_)
    rw [Nat.succ_mul, Nat.mul_comm]
    omega
  rw [roundUp, Nat.mul_comm align]
  exact Nat.mul_le_mul_right _ few

theorem roundUp_of_dvd {n align : Nat} (positive : 0 < align) (divides : align ∣ n) : roundUp n align = n :=
  Nat.le_antisymm (roundUp_le positive (Nat.le_refl n) divides) (le_roundUp positive n)

/-- Rounding first to a finer alignment changes nothing. -/
theorem roundUp_roundUp {n fine coarse : Nat} (positive : 0 < coarse) (divides : fine ∣ coarse) :
    roundUp (roundUp n fine) coarse = roundUp n coarse := by
  have finePositive : 0 < fine := Nat.pos_of_dvd_of_pos divides positive
  refine Nat.le_antisymm ?_ ?_
  · refine roundUp_le positive ?_ (dvd_roundUp n coarse)
    exact roundUp_le finePositive (le_roundUp positive n) (divides.trans (dvd_roundUp n coarse))
  · refine roundUp_le positive ?_ (dvd_roundUp _ coarse)
    exact (le_roundUp finePositive n).trans (le_roundUp positive _)

/-- Of two powers of two one divides the other. -/
theorem pow_dvd_total {left right : Nat} (leftPower : ∃ bits, left = 2 ^ bits)
    (rightPower : ∃ bits, right = 2 ^ bits) : left ∣ right ∨ right ∣ left := by
  obtain ⟨first, rfl⟩ := leftPower
  obtain ⟨second, rfl⟩ := rightPower
  rcases Nat.le_total first second with below | below
  · exact .inl (Nat.pow_dvd_pow 2 below)
  · exact .inr (Nat.pow_dvd_pow 2 below)

theorem pow_pos_of {align : Nat} (power : ∃ bits, align = 2 ^ bits) : 0 < align := by
  obtain ⟨bits, rfl⟩ := power
  exact Nat.two_pow_pos bits

theorem pow_dvd_iff_le {left right : Nat} (leftPower : ∃ bits, left = 2 ^ bits)
    (rightPower : ∃ bits, right = 2 ^ bits) : left ∣ right ↔ left ≤ right := by
  constructor
  · exact Nat.le_of_dvd (pow_pos_of rightPower)
  · intro below
    rcases pow_dvd_total leftPower rightPower with divides | divides
    · exact divides
    · rw [Nat.le_antisymm below (Nat.le_of_dvd (pow_pos_of leftPower) divides)]

theorem max_power {left right : Nat} (leftPower : ∃ bits, left = 2 ^ bits)
    (rightPower : ∃ bits, right = 2 ^ bits) : ∃ bits, max left right = 2 ^ bits := by
  rcases Nat.le_total left right with below | below
  · rw [Nat.max_eq_right below]
    exact rightPower
  · rw [Nat.max_eq_left below]
    exact leftPower

theorem dvd_max_left {left right : Nat} (leftPower : ∃ bits, left = 2 ^ bits)
    (rightPower : ∃ bits, right = 2 ^ bits) : left ∣ max left right :=
  (pow_dvd_iff_le leftPower (max_power leftPower rightPower)).mpr (Nat.le_max_left left right)

theorem dvd_max_right {left right : Nat} (leftPower : ∃ bits, left = 2 ^ bits)
    (rightPower : ∃ bits, right = 2 ^ bits) : right ∣ max left right :=
  (pow_dvd_iff_le rightPower (max_power leftPower rightPower)).mpr (Nat.le_max_right left right)

/-- Rounding a multiple of one power of two to another keeps it a multiple. -/
theorem dvd_roundUp_of_dvd {n align other : Nat} (power : ∃ bits, align = 2 ^ bits)
    (otherPower : ∃ bits, other = 2 ^ bits) (divides : align ∣ n) : align ∣ roundUp n other := by
  rcases pow_dvd_total power otherPower with finer | coarser
  · exact finer.trans (dvd_roundUp n other)
  · rw [roundUp_of_dvd (pow_pos_of otherPower) (coarser.trans divides)]
    exact divides

/-- Rounding twice is rounding to the coarser alignment. -/
theorem roundUp_twice {first second : Nat} (firstPower : ∃ bits, first = 2 ^ bits)
    (secondPower : ∃ bits, second = 2 ^ bits) (n : Nat) :
    roundUp (roundUp n first) second = roundUp n (max first second) := by
  rcases pow_dvd_total firstPower secondPower with divides | divides
  · rw [roundUp_roundUp (pow_pos_of secondPower) divides,
      Nat.max_eq_right (Nat.le_of_dvd (pow_pos_of secondPower) divides)]
  · rw [roundUp_of_dvd (pow_pos_of secondPower) (divides.trans (dvd_roundUp n first)),
      Nat.max_eq_left (Nat.le_of_dvd (pow_pos_of firstPower) divides)]

/-! ## Regions -/

/-- `size` bytes from `start` on. -/
structure Region where
  start : Nat
  size : Nat

namespace Region

def stop (region : Region) : Nat := region.start + region.size

def bytes (region : Region) : Set Nat := Set.Ico region.start region.stop

variable {first second : Region}

theorem disjoint_iff : Disjoint first.bytes second.bytes ↔
    min first.stop second.stop ≤ max first.start second.start := Set.Ico_disjoint_Ico

instance : Decidable (Disjoint first.bytes second.bytes) := decidable_of_iff _ disjoint_iff.symm

theorem disjoint_of_before (before : first.stop ≤ second.start) : Disjoint first.bytes second.bytes := by
  rw [disjoint_iff]
  omega

theorem disjoint_of_order (order : first.stop ≤ second.start ∨ second.stop ≤ first.start) :
    Disjoint first.bytes second.bytes := by
  rcases order with before | after
  · exact disjoint_of_before before
  · exact (disjoint_of_before after).symm

/-- Disjointness does not depend on where the two regions are. -/
theorem disjoint_shift (origin : Nat) {start size start' size' : Nat} :
    Disjoint (Region.mk (origin + start) size).bytes (Region.mk (origin + start') size').bytes ↔
      Disjoint (Region.mk start size).bytes (Region.mk start' size').bytes := by
  simp only [disjoint_iff, stop]
  omega

end Region

/-- Cells of one size at different positions of a row are apart. -/
theorem row_apart {origin size first second : Nat} (different : first ≠ second) :
    (origin + first * size) + size ≤ origin + second * size ∨
      (origin + second * size) + size ≤ origin + first * size := by
  rcases Nat.lt_or_gt_of_ne different with below | below
  · have rows := Nat.mul_le_mul_right size (Nat.succ_le_of_lt below)
    rw [Nat.succ_mul] at rows
    exact .inl (by omega)
  · have rows := Nat.mul_le_mul_right size (Nat.succ_le_of_lt below)
    rw [Nat.succ_mul] at rows
    exact .inr (by omega)

/-- A cell of a row of `count` cells ends inside of it. -/
theorem row_inside {size count index : Nat} (inside : index < count) :
    index * size + size ≤ count * size := by
  rw [← Nat.succ_mul]
  exact Nat.mul_le_mul_right _ inside

/-- Size and alignment of a type. -/
structure TypeLayout where
  size : Nat
  align : Nat
  align_power : ∃ bits, align = 2 ^ bits
  size_aligned : align ∣ size

/-- Every field is aligned, lies in the allocation and shares no byte with
another field. -/
structure Placed {ι : Type} (field : ι → Region) (align : ι → Nat) (allocation : Region) : Prop where
  aligned : ∀ i, align i ∣ (field i).start
  inside : ∀ i, allocation.start ≤ (field i).start ∧ (field i).stop ≤ allocation.stop
  apart : ∀ i j, i ≠ j → Disjoint (field i).bytes (field j).bytes

/-- Cells of rows that follow one another, row `row i` of cells of `size` bytes
from `origin` on: only the order of the rows is left to check. -/
theorem apart_of_rows {ι : Type} {field : ι → Region} (row cell : ι → Nat) (origin size count : Nat → Nat)
    (cells : ∀ i, field i = ⟨origin (row i) + cell i * size (row i), size (row i)⟩)
    (inside : ∀ i, cell i < count (row i))
    (ordered : ∀ i j, row i < row j → origin (row i) + count (row i) * size (row i) ≤ origin (row j))
    (injective : ∀ i j, row i = row j → cell i = cell j → i = j) (i j : ι) (different : i ≠ j) :
    Disjoint (field i).bytes (field j).bytes := by
  have ends := fun i => @row_inside (size (row i)) _ _ (inside i)
  rw [cells i, cells j]
  refine Region.disjoint_of_order ?_
  simp only [Region.stop]
  rcases Nat.lt_trichotomy (row i) (row j) with below | same | above
  · have follows := ordered i j below
    have stop := ends i
    omega
  · rw [same]
    exact row_apart fun sameCell => different (injective i j same sameCell)
  · have follows := ordered j i above
    have stop := ends j
    omega

end Optimap.Lib
