import Optimap.Lib.Lanes
import Optimap.Tomb.Invariant

/-!
# Group scans of ipo64

A group is 64 metadata bytes. Each scan exists for AVX-512 (one register), AVX2
(two), SSE2 (four), and as a loop over the bytes where there is no SIMD. All of
them return one 64-bit mask with a bit for each byte of the group.
-/

set_option autoImplicit false

namespace Optimap.Tomb

open Lib Hash

/-- The metadata bytes of one group. -/
abbrev GroupBytes := Lanes 64

namespace GroupBytes

/-! ## AVX-512 -/

section Avx512
variable (group : GroupBytes)

def matchByteAvx512 (value : UInt8) : BitVec 64 := Lanes.cmpeqMask group (.set1 64 value)

def matchEmptyAvx512 : BitVec 64 := Lanes.cmpeqMask group (.setzero 64)

def matchByteAndEmptyAvx512 (value : UInt8) : BitVec 64 × BitVec 64 :=
  (Lanes.cmpeqMask group (.set1 64 value), Lanes.cmpeqMask group (.setzero 64))

def matchEmptyOrTombstoneAvx512 : BitVec 64 :=
  let empty := Lanes.cmpeqMask group (.setzero 64)
  let tomb := Lanes.cmpeqMask group (.set1 64 1)
  empty ||| tomb

def matchOccupiedAvx512 : BitVec 64 :=
  let empty := Lanes.cmpeqMask group (.setzero 64)
  let tomb := Lanes.cmpeqMask group (.set1 64 1)
  ~~~(empty ||| tomb)

end Avx512

/-! ## AVX2 -/

section Avx2
variable (group : GroupBytes)

/-- The register at `ptr.add(k * 32)`. -/
def half (k : Fin 2) : Lanes 32 := group.load 32 (k.val * 32) (by omega)

/-- `movemask as u32 as u64`. -/
def widen32 (mask : BitVec 32) : BitVec 64 := mask.setWidth 64

def matchAvx2 (needle : Lanes 32) : BitVec 64 :=
  let m0 := widen32 ((group.half 0).cmpeq needle).movemask
  let m1 := widen32 ((group.half 1).cmpeq needle).movemask
  m0 ||| m1 <<< 32

def matchByteAvx2 (value : UInt8) : BitVec 64 := group.matchAvx2 (.set1 32 value)

def matchEmptyAvx2 : BitVec 64 := group.matchAvx2 (.setzero 32)

def matchByteAndEmptyAvx2 (value : UInt8) : BitVec 64 × BitVec 64 :=
  (group.matchAvx2 (.set1 32 value), group.matchAvx2 (.setzero 32))

def matchEmptyOrTombstoneAvx2 : BitVec 64 :=
  let c (d : Lanes 32) : BitVec 64 :=
    widen32 ((d.cmpeq (.setzero 32)).or (d.cmpeq (.set1 32 1))).movemask
  c (group.half 0) ||| c (group.half 1) <<< 32

/-- The complement is taken of the 32-bit mask. -/
def matchOccupiedAvx2 : BitVec 64 :=
  let c (d : Lanes 32) : BitVec 64 :=
    widen32 (~~~((d.cmpeq (.setzero 32)).or (d.cmpeq (.set1 32 1))).movemask)
  c (group.half 0) ||| c (group.half 1) <<< 32

end Avx2

/-! ## SSE2 -/

section Sse2
variable (group : GroupBytes)

/-- The register at `ptr.add(k * 16)`. -/
def quarter (k : Fin 4) : Lanes 16 := group.load 16 (k.val * 16) (by omega)

/-- `movemask as u64` from an `i32`. -/
def widenSigned (mask : BitVec 32) : BitVec 64 := mask.signExtend 64

def matchSse2 (needle : Lanes 16) : BitVec 64 :=
  let m0 := widenSigned ((group.quarter 0).cmpeq needle).movemask
  let m1 := widenSigned ((group.quarter 1).cmpeq needle).movemask
  let m2 := widenSigned ((group.quarter 2).cmpeq needle).movemask
  let m3 := widenSigned ((group.quarter 3).cmpeq needle).movemask
  m0 ||| m1 <<< 16 ||| m2 <<< 32 ||| m3 <<< 48

def matchByteSse2 (value : UInt8) : BitVec 64 := group.matchSse2 (.set1 16 value)

def matchEmptySse2 : BitVec 64 := group.matchSse2 (.setzero 16)

def matchByteAndEmptySse2 (value : UInt8) : BitVec 64 × BitVec 64 :=
  (List.finRange 4).foldl (fun bits i =>
    let d := group.quarter i
    (bits.1 ||| widenSigned (d.cmpeq (.set1 16 value)).movemask <<< (i.val * 16),
      bits.2 ||| widenSigned (d.cmpeq (.setzero 16)).movemask <<< (i.val * 16))) (0#64, 0#64)

def matchEmptyOrTombstoneSse2 : BitVec 64 :=
  (List.finRange 4).foldl (fun mask i =>
    let d := group.quarter i
    let e := d.cmpeq (.setzero 16)
    let t := d.cmpeq (.set1 16 1)
    mask ||| widenSigned (e.or t).movemask <<< (i.val * 16)) 0#64

/-- `(!movemask as u16) as u64`: the complement is cut to the lanes. -/
def matchOccupiedSse2 : BitVec 64 :=
  (List.finRange 4).foldl (fun mask i =>
    let d := group.quarter i
    let e := d.cmpeq (.setzero 16)
    let t := d.cmpeq (.set1 16 1)
    let dead := e.or t
    mask ||| ((~~~dead.movemask).setWidth 16).setWidth 64 <<< (i.val * 16)) 0#64

end Sse2

/-! ## Without SIMD -/

section Scalar
variable (group : GroupBytes)

def matchByte (value : UInt8) : BitVec 64 := gather 64 fun i => group i == value

def matchEmpty : BitVec 64 := gather 64 fun i => group i == EMPTY

def matchEmptyOrTombstone : BitVec 64 := gather 64 fun i => decide (group i ≤ TOMBSTONE)

def matchOccupied : BitVec 64 := gather 64 fun i => decide (2 ≤ group i)

end Scalar

/-! ## What the masks mark -/

section Marks
variable {group : GroupBytes} {test : UInt8 → Bool}

/-- Bit `i` of the mask says whether byte `i` passes the test. -/
def Marks (group : GroupBytes) (test : UInt8 → Bool) (mask : BitVec 64) : Prop :=
  ∀ i : Fin 64, mask.getLsbD i = test (group i)

/-- Two masks that mark the same bytes are one mask. -/
theorem Marks.unique {mask other : BitVec 64} (marks : group.Marks test mask) (others : group.Marks test other) :
    mask = other :=
  BitVec.eq_of_getLsbD_eq fun i inside => (marks ⟨i, inside⟩).trans (others ⟨i, inside⟩).symm

theorem marks_gather {bit : Fin 64 → Bool} (same : ∀ i, bit i = test (group i)) :
    group.Marks test (gather 64 bit) := by
  intro i
  rw [getLsbD_gather _ i.isLt, dif_pos i.isLt, same]

/-- The test on the byte at a position, past the end of the group it fails. -/
def passes (group : GroupBytes) (test : UInt8 → Bool) (j : Nat) : Bool :=
  if inside : j < 64 then test (group ⟨j, inside⟩) else false

theorem passes_load {n offset : Nat} (inside : offset + n ≤ 64) {j : Nat} (lane : j < n) :
    group.passes test (offset + j) = test (group.load n offset inside ⟨j, lane⟩) := by
  rw [passes, dif_pos (by omega)]
  rfl

/-- What the top bits of a register must be for its mask to be part of the scan. -/
theorem part_widen32 {offset : Nat} (inside : offset + 32 ≤ 64) {lanes : Lanes 32}
    (tops : ∀ i, (lanes i).toBitVec.msb = test (group.load 32 offset inside i)) :
    Part 32 offset (group.passes test) (widen32 lanes.movemask) := by
  intro j below
  rw [widen32, BitVec.getLsbD_setWidth, decide_eq_true below, Bool.true_and]
  by_cases lane : j < 32
  · rw [Lanes.getLsbD_movemask lane, dif_pos lane, tops, passes_load inside lane, decide_eq_true lane,
      Bool.true_and]
  · rw [BitVec.getLsbD_of_ge _ _ (Nat.le_of_not_lt lane), decide_eq_false lane, Bool.false_and]

theorem part_widen32_not {offset : Nat} (inside : offset + 32 ≤ 64) {lanes : Lanes 32}
    (tops : ∀ i, (lanes i).toBitVec.msb = !test (group.load 32 offset inside i)) :
    Part 32 offset (group.passes test) (widen32 (~~~lanes.movemask)) := by
  intro j below
  rw [widen32, BitVec.getLsbD_setWidth, decide_eq_true below, Bool.true_and, BitVec.getLsbD_not]
  by_cases lane : j < 32
  · rw [Lanes.getLsbD_movemask lane, dif_pos lane, tops, passes_load inside lane, Bool.not_not]
  · rw [decide_eq_false lane, Bool.false_and, Bool.false_and]

theorem part_widenSigned {offset : Nat} (inside : offset + 16 ≤ 64) {lanes : Lanes 16}
    (tops : ∀ i, (lanes i).toBitVec.msb = test (group.load 16 offset inside i)) :
    Part 16 offset (group.passes test) (widenSigned lanes.movemask) := by
  intro j below
  rw [widenSigned, BitVec.getLsbD_signExtend, decide_eq_true below, Bool.true_and,
    Lanes.movemask_msb (by decide)]
  by_cases lane : j < 16
  · rw [if_pos (by omega), Lanes.getLsbD_movemask (by omega), dif_pos lane, tops, passes_load inside lane,
      decide_eq_true lane, Bool.true_and]
  · rw [decide_eq_false lane, Bool.false_and]
    split
    · rename_i bits
      rw [Lanes.getLsbD_movemask bits, dif_neg lane]
    · rfl

theorem part_widenSigned_not {offset : Nat} (inside : offset + 16 ≤ 64) {lanes : Lanes 16}
    (tops : ∀ i, (lanes i).toBitVec.msb = !test (group.load 16 offset inside i)) :
    Part 16 offset (group.passes test) (((~~~lanes.movemask).setWidth 16).setWidth 64) := by
  intro j below
  rw [BitVec.getLsbD_setWidth, BitVec.getLsbD_setWidth, BitVec.getLsbD_not, decide_eq_true below,
    Bool.true_and]
  by_cases lane : j < 16
  · rw [Lanes.getLsbD_movemask (by omega), dif_pos lane, tops, passes_load inside lane, Bool.not_not,
      decide_eq_true (show j < 32 by omega), Bool.true_and]
  · rw [decide_eq_false lane, Bool.false_and, Bool.false_and]

/-- Two parts of 32 bits make the mask. -/
theorem marks_two {part : Fin 2 → BitVec 64}
    (parts : ∀ k : Fin 2, Part 32 (k.val * 32) (group.passes test) (part k)) :
    group.Marks test (part 0 ||| part 1 <<< 32) := by
  intro i
  have joined := getLsbD_join parts i.isLt (by omega)
  have unfolded : (List.finRange 2).foldl (fun mask k => mask ||| part k <<< (k.val * 32)) 0#64 =
      part 0 ||| part 1 <<< 32 := by
    simp [List.finRange_succ]
  rw [unfolded] at joined
  rw [joined, passes, dif_pos i.isLt]

/-- Four parts of 16 bits make the mask. -/
theorem marks_four {part : Fin 4 → BitVec 64}
    (parts : ∀ k : Fin 4, Part 16 (k.val * 16) (group.passes test) (part k)) :
    group.Marks test ((List.finRange 4).foldl (fun mask k => mask ||| part k <<< (k.val * 16)) 0#64) := by
  intro i
  rw [getLsbD_join parts i.isLt (by omega), passes, dif_pos i.isLt]

theorem foldl_quarters (part : Fin 4 → BitVec 64) :
    (List.finRange 4).foldl (fun mask k => mask ||| part k <<< (k.val * 16)) 0#64 =
      part 0 ||| part 1 <<< 16 ||| part 2 <<< 32 ||| part 3 <<< 48 := by
  simp [List.finRange_succ]

/-- One operation on the registers whose top bits decide the test. -/
theorem marks_registers32 {f : Lanes 32 → Lanes 32} (tops : ∀ d i, (f d i).toBitVec.msb = test (d i)) :
    group.Marks test (widen32 (f (group.half 0)).movemask ||| widen32 (f (group.half 1)).movemask <<< 32) := by
  have parts : ∀ k : Fin 2, Part 32 (k.val * 32) (group.passes test) (widen32 (f (group.half k)).movemask) :=
    fun k => part_widen32 _ (tops (group.half k))
  have joined := marks_two parts
  exact joined

theorem marks_registers32_not {f : Lanes 32 → Lanes 32}
    (tops : ∀ d i, (f d i).toBitVec.msb = !test (d i)) :
    group.Marks test (widen32 (~~~(f (group.half 0)).movemask) |||
      widen32 (~~~(f (group.half 1)).movemask) <<< 32) := by
  have parts : ∀ k : Fin 2, Part 32 (k.val * 32) (group.passes test)
      (widen32 (~~~(f (group.half k)).movemask)) :=
    fun k => part_widen32_not _ (tops (group.half k))
  have joined := marks_two parts
  exact joined

theorem marks_registers16 {f : Lanes 16 → Lanes 16} (tops : ∀ d i, (f d i).toBitVec.msb = test (d i)) :
    group.Marks test ((List.finRange 4).foldl (fun mask k =>
      mask ||| widenSigned (f (group.quarter k)).movemask <<< (k.val * 16)) 0#64) :=
  marks_four fun k => part_widenSigned _ (tops (group.quarter k))

theorem marks_registers16_not {f : Lanes 16 → Lanes 16}
    (tops : ∀ d i, (f d i).toBitVec.msb = !test (d i)) :
    group.Marks test ((List.finRange 4).foldl (fun mask k =>
      mask ||| ((~~~(f (group.quarter k)).movemask).setWidth 16).setWidth 64 <<< (k.val * 16)) 0#64) :=
  marks_four fun k => part_widenSigned_not _ (tops (group.quarter k))

end Marks

/-! ## The tests of the four scans -/

def isEmptyOrTombstone (byte : UInt8) : Bool := byte == EMPTY || byte == TOMBSTONE

def isOccupied (byte : UInt8) : Bool := byte != EMPTY && byte != TOMBSTONE

theorem isOccupied_eq (byte : UInt8) : isOccupied byte = !isEmptyOrTombstone byte := by
  rw [isOccupied, isEmptyOrTombstone, Bool.not_or]
  rfl

theorem le_tombstone_iff (byte : UInt8) : decide (byte ≤ TOMBSTONE) = isEmptyOrTombstone byte := by
  rw [isEmptyOrTombstone, Bool.eq_iff_iff, decide_eq_true_eq, Bool.or_eq_true, beq_iff_eq, beq_iff_eq,
    UInt8.le_iff_toNat_le, ← UInt8.toNat_inj, ← UInt8.toNat_inj]
  have empty : EMPTY.toNat = 0 := rfl
  have tombstone : TOMBSTONE.toNat = 1 := rfl
  omega

theorem two_le_iff (byte : UInt8) : decide (2 ≤ byte) = isOccupied byte := by
  rw [isOccupied_eq, ← le_tombstone_iff, ← decide_not, Bool.eq_iff_iff, decide_eq_true_eq, decide_eq_true_eq,
    UInt8.le_iff_toNat_le, UInt8.le_iff_toNat_le]
  have tombstone : TOMBSTONE.toNat = 1 := rfl
  have two : (2 : UInt8).toNat = 2 := rfl
  omega

section Scans
variable (group : GroupBytes)

/-- The top bits of a register whose dead lanes were marked by two compares. -/
theorem msb_dead {n : Nat} (d : Lanes n) (i : Fin n) :
    (((d.cmpeq (.setzero n)).or (d.cmpeq (.set1 n 1))) i).toBitVec.msb = isEmptyOrTombstone (d i) := by
  rw [Lanes.msb_or, Lanes.msb_cmpeq, Lanes.msb_cmpeq]
  rfl

theorem msb_dead_not {n : Nat} (d : Lanes n) (i : Fin n) :
    (((d.cmpeq (.setzero n)).or (d.cmpeq (.set1 n 1))) i).toBitVec.msb = !isOccupied (d i) := by
  rw [msb_dead, isOccupied_eq, Bool.not_not]

theorem marks_matchAvx2 (value : UInt8) : group.Marks (· == value) (group.matchAvx2 (.set1 32 value)) := by
  have marks := @marks_registers32 group (· == value) _
    fun d i => Lanes.msb_cmpeq d (.set1 32 value) i
  exact marks

theorem marks_matchSse2 (value : UInt8) : group.Marks (· == value) (group.matchSse2 (.set1 16 value)) := by
  have marks := @marks_registers16 group (· == value) _
    fun d i => Lanes.msb_cmpeq d (.set1 16 value) i
  rw [foldl_quarters] at marks
  exact marks

theorem marks_cmpeqMask (value : UInt8) :
    group.Marks (· == value) (Lanes.cmpeqMask group (.set1 64 value)) :=
  marks_gather fun _ => rfl

theorem marks_deadAvx2 : group.Marks isEmptyOrTombstone group.matchEmptyOrTombstoneAvx2 := by
  have marks := @marks_registers32 group _ _ msb_dead
  exact marks

theorem marks_occupiedAvx2 : group.Marks isOccupied group.matchOccupiedAvx2 := by
  have marks := @marks_registers32_not group _ _ msb_dead_not
  exact marks

theorem marks_deadSse2 : group.Marks isEmptyOrTombstone group.matchEmptyOrTombstoneSse2 := by
  have marks := @marks_registers16 group _ _ msb_dead
  exact marks

theorem marks_occupiedSse2 : group.Marks isOccupied group.matchOccupiedSse2 := by
  have marks := @marks_registers16_not group _ _ msb_dead_not
  exact marks

theorem marks_deadAvx512 :
    group.Marks isEmptyOrTombstone (Lanes.cmpeqMask group (.setzero 64) ||| Lanes.cmpeqMask group (.set1 64 1)) := by
  intro i
  rw [BitVec.getLsbD_or, marks_cmpeqMask group 1 i]
  rw [show (Lanes.cmpeqMask group (.setzero 64)).getLsbD i = (group i == 0) from marks_cmpeqMask group 0 i]
  rfl

end Scans

/-- Every tier of each scan returns the mask whose bit `i` is set exactly when
byte `i` of the group satisfies the predicate. -/
theorem group_scans_agree (group : GroupBytes) (value : UInt8) :
    (∀ mask ∈ [group.matchByteAvx512 value, group.matchByteAvx2 value, group.matchByteSse2 value,
        group.matchByte value],
      ∀ i : Fin 64, mask.getLsbD i = true ↔ group i = value) ∧
    (∀ mask ∈ [group.matchEmptyAvx512, group.matchEmptyAvx2, group.matchEmptySse2, group.matchEmpty],
      ∀ i : Fin 64, mask.getLsbD i = true ↔ group i = EMPTY) ∧
    (∀ mask ∈ [group.matchOccupiedAvx512, group.matchOccupiedAvx2, group.matchOccupiedSse2,
        group.matchOccupied],
      ∀ i : Fin 64, mask.getLsbD i = true ↔ group i ≠ EMPTY ∧ group i ≠ TOMBSTONE) ∧
    (∀ mask ∈ [group.matchEmptyOrTombstoneAvx512, group.matchEmptyOrTombstoneAvx2,
        group.matchEmptyOrTombstoneSse2, group.matchEmptyOrTombstone],
      ∀ i : Fin 64, mask.getLsbD i = true ↔ group i = EMPTY ∨ group i = TOMBSTONE) := by
  have bytes : ∀ byte, ∀ mask ∈ [group.matchByteAvx512 byte, group.matchByteAvx2 byte,
      group.matchByteSse2 byte, group.matchByte byte], group.Marks (· == byte) mask := by
    intro byte
    simp only [List.forall_mem_cons]
    exact ⟨marks_cmpeqMask group byte, marks_matchAvx2 group byte, marks_matchSse2 group byte,
      marks_gather fun _ => rfl, by simp⟩
  have occupied : ∀ mask ∈ [group.matchOccupiedAvx512, group.matchOccupiedAvx2, group.matchOccupiedSse2,
      group.matchOccupied], group.Marks isOccupied mask := by
    simp only [List.forall_mem_cons]
    refine ⟨fun i => ?_, marks_occupiedAvx2 group, marks_occupiedSse2 group,
      marks_gather fun i => two_le_iff (group i), by simp⟩
    rw [matchOccupiedAvx512, BitVec.getLsbD_not, marks_deadAvx512, isOccupied_eq, decide_eq_true i.isLt,
      Bool.true_and]
  have dead : ∀ mask ∈ [group.matchEmptyOrTombstoneAvx512, group.matchEmptyOrTombstoneAvx2,
      group.matchEmptyOrTombstoneSse2, group.matchEmptyOrTombstone],
      group.Marks isEmptyOrTombstone mask := by
    simp only [List.forall_mem_cons]
    exact ⟨marks_deadAvx512 group, marks_deadAvx2 group, marks_deadSse2 group,
      marks_gather fun i => le_tombstone_iff (group i), by simp⟩
  refine ⟨fun mask member i => ?_, fun mask member i => ?_, fun mask member i => ?_, fun mask member i => ?_⟩
  · rw [bytes value mask member i, beq_iff_eq]
  · rw [bytes EMPTY mask member i, beq_iff_eq]
  · rw [occupied mask member i, isOccupied, Bool.and_eq_true, bne_iff_ne, bne_iff_ne]
  · rw [dead mask member i, isEmptyOrTombstone, Bool.or_eq_true, beq_iff_eq, beq_iff_eq]

/-- The fused scan is the two scans. -/
theorem matchByteAndEmpty_eq (group : GroupBytes) (value : UInt8) :
    group.matchByteAndEmptyAvx512 value = (group.matchByteAvx512 value, group.matchEmptyAvx512) ∧
    group.matchByteAndEmptyAvx2 value = (group.matchByteAvx2 value, group.matchEmptyAvx2) ∧
    group.matchByteAndEmptySse2 value = (group.matchByteSse2 value, group.matchEmptySse2) := by
  refine ⟨rfl, rfl, ?_⟩
  simp [matchByteAndEmptySse2, matchByteSse2, matchEmptySse2, matchSse2, List.finRange_succ]

end GroupBytes

/-! ## The masks of a table -/

section Table
variable {tag : TombstoneTag} {S : Type → Type → Type} {K V : Type}

/-- The group that `meta_ptr(gi)` points to. -/
def RawTable.groupBytes (table : RawTable .ipo64 tag S K V) (gi : Nat) : GroupBytes :=
  fun i => table.metaByte gi i

/-- The slots that a scan of the table yields are the bits of any mask that marks
the bytes of the group. -/
theorem RawTable.matchWhere_eq_bits (table : RawTable .ipo64 tag S K V) {gi : Nat} {test : UInt8 → Bool}
    {mask : BitVec 64} (marks : (table.groupBytes gi).Marks test mask) :
    table.matchWhere gi test = (List.range 64).filter mask.getLsbD := by
  refine List.filter_congr fun si member => ?_
  exact (marks ⟨si, List.mem_range.mp member⟩).symm

end Table

end Optimap.Tomb
