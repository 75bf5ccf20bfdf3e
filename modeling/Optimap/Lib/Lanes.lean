import Mathlib.Data.List.FinRange
import Mathlib.Tactic

/-!
# Byte lanes

Vector registers of byte lanes, the lane-wise operations on them, and how the
bits that several registers yield are put together into one mask.
-/

set_option autoImplicit false

namespace Optimap.Lib

/-- A register of `n` bytes. -/
abbrev Lanes (n : Nat) := Fin n → UInt8

/-- The mask of the lanes that carry a bit: a scan that sets bit `i` for lane `i`. -/
def gather (width : Nat) {n : Nat} (bit : Fin n → Bool) : BitVec width :=
  (List.finRange n).foldl (fun mask i => if bit i then mask ||| BitVec.ofNat width 1 <<< i.val else mask) (BitVec.ofNat width 0)

/-- A scan of some lanes adds their bits to the mask. -/
theorem getLsbD_scan {width n : Nat} (bit : Fin n → Bool) (lanes : List (Fin n)) (mask : BitVec width)
    {j : Nat} (inside : j < width) :
    (lanes.foldl (fun mask i => if bit i then mask ||| BitVec.ofNat width 1 <<< i.val else mask) mask).getLsbD j =
      (mask.getLsbD j || lanes.any fun i => i.val == j && bit i) := by
  induction lanes generalizing mask with
  | nil => simp
  | cons lane lanes ih =>
      rw [List.foldl_cons, ih, List.any_cons, ← Bool.or_assoc]
      congr 1
      cases set : bit lane with
      | false => simp
      | true =>
          simp only [↓reduceIte, BitVec.getLsbD_or, BitVec.getLsbD_shiftLeft, BitVec.getLsbD_one, inside,
            decide_true, Bool.true_and, Bool.and_true]
          congr 1
          rw [Bool.eq_iff_iff]
          simp only [Bool.and_eq_true, Bool.not_eq_true', decide_eq_false_iff_not, decide_eq_true_eq, beq_iff_eq]
          omega

theorem getLsbD_gather {width n : Nat} (bit : Fin n → Bool) {j : Nat} (inside : j < width) :
    (gather width bit).getLsbD j = if lane : j < n then bit ⟨j, lane⟩ else false := by
  rw [gather, getLsbD_scan bit _ _ inside, BitVec.getLsbD_zero, Bool.false_or, Bool.eq_iff_iff, List.any_eq_true]
  simp only [List.mem_finRange, true_and, Bool.and_eq_true, beq_iff_eq]
  constructor
  · rintro ⟨i, rfl, set⟩
    rw [dif_pos i.isLt]
    exact set
  · intro set
    split at set
    · rename_i lane
      exact ⟨⟨j, lane⟩, rfl, set⟩
    · cases set

namespace Lanes

variable {n : Nat}

/-- `set1`: the byte in every lane. -/
def set1 (n : Nat) (byte : UInt8) : Lanes n := fun _ => byte

def setzero (n : Nat) : Lanes n := set1 n 0

/-- The `n` bytes from `offset` on. -/
def load {total : Nat} (bytes : Lanes total) (n offset : Nat) (inside : offset + n ≤ total) : Lanes n :=
  fun i => bytes ⟨offset + i, Nat.lt_of_lt_of_le (Nat.add_lt_add_left i.isLt offset) inside⟩

/-- All bits of a lane where the operands agree, none elsewhere. -/
def cmpeq (left right : Lanes n) : Lanes n := fun i => if left i = right i then 0xFF else 0

def or (left right : Lanes n) : Lanes n := fun i => left i ||| right i

/-- The top bits of the lanes, as an `i32`. -/
def movemask (lanes : Lanes n) : BitVec 32 := gather 32 fun i => (lanes i).toBitVec.msb

/-- The compare that yields a mask of 64 lanes at once. -/
def cmpeqMask (left right : Lanes 64) : BitVec 64 := gather 64 fun i => left i == right i

theorem msb_cmpeq (left right : Lanes n) (i : Fin n) :
    (cmpeq left right i).toBitVec.msb = (left i == right i) := by
  unfold cmpeq
  by_cases same : left i = right i
  · rw [if_pos same, beq_iff_eq.mpr same]
    rfl
  · rw [if_neg same, beq_eq_false_iff_ne.mpr same]
    rfl

theorem msb_or (left right : Lanes n) (i : Fin n) :
    (or left right i).toBitVec.msb = ((left i).toBitVec.msb || (right i).toBitVec.msb) := by
  rw [or, UInt8.toBitVec_or, BitVec.msb_or]

theorem getLsbD_movemask {lanes : Lanes n} {j : Nat} (inside : j < 32) :
    lanes.movemask.getLsbD j = if lane : j < n then (lanes ⟨j, lane⟩).toBitVec.msb else false :=
  getLsbD_gather _ inside

/-- Fewer lanes than bits leave the sign bit clear: the mask widens with zeros. -/
theorem movemask_msb (narrow : n < 32) (lanes : Lanes n) : lanes.movemask.msb = false := by
  rw [BitVec.msb_eq_getLsbD_last, getLsbD_movemask (by decide), dif_neg (by omega)]

end Lanes

/-- The part of a 64-bit mask that one register yields. -/
def Part (width offset : Nat) (bit : Nat → Bool) (part : BitVec 64) : Prop :=
  ∀ j < 64, part.getLsbD j = (decide (j < width) && bit (offset + j))

/-- Shifting each part to the offset of its register joins them. -/
theorem getLsbD_join {width count : Nat} {bit : Nat → Bool} {part : Fin count → BitVec 64}
    (parts : ∀ k : Fin count, Part width (k.val * width) bit (part k)) {i : Nat} (inside : i < 64)
    (covered : i < count * width) :
    ((List.finRange count).foldl (fun mask k => mask ||| part k <<< (k.val * width)) 0#64).getLsbD i = bit i := by
  have positive : 0 < width := by
    rcases Nat.eq_zero_or_pos width with zero | positive
    · rw [zero, Nat.mul_zero] at covered
      exact absurd covered (Nat.not_lt_zero i)
    · exact positive
  have step : ∀ (ks : List (Fin count)) (mask : BitVec 64),
      (ks.foldl (fun mask k => mask ||| part k <<< (k.val * width)) mask).getLsbD i =
        (mask.getLsbD i || ks.any fun k => decide (i / width = k.val) && bit i) := by
    intro ks
    induction ks with
    | nil => simp
    | cons k ks ih =>
        intro mask
        rw [List.foldl_cons, ih, List.any_cons, ← Bool.or_assoc, BitVec.getLsbD_or]
        congr 2
        rw [BitVec.getLsbD_shiftLeft, decide_eq_true inside, Bool.true_and,
          parts k (i - k.val * width) (by omega)]
        by_cases before : i < k.val * width
        · have different : i / width ≠ k.val := by
            intro same
            have floor := Nat.div_mul_le_self i width
            rw [same] at floor
            omega
          simp [before, different]
        · have reached : k.val * width + (i - k.val * width) = i := by omega
          have same : i - k.val * width < width ↔ i / width = k.val := by
            constructor
            · intro column
              refine Nat.div_eq_of_lt_le (Nat.le_of_not_lt before) ?_
              rw [Nat.succ_mul]
              omega
            · intro row
              have split := Nat.div_add_mod i width
              rw [row, Nat.mul_comm] at split
              have column := Nat.mod_lt i positive
              omega
          simp [before, reached, same]
  rw [step, BitVec.getLsbD_zero, Bool.false_or, Bool.eq_iff_iff, List.any_eq_true]
  simp only [List.mem_finRange, true_and, Bool.and_eq_true, decide_eq_true_eq]
  constructor
  · rintro ⟨_, _, set⟩
    exact set
  · intro set
    exact ⟨⟨i / width, Nat.div_lt_of_lt_mul (by rwa [Nat.mul_comm])⟩, rfl, set⟩

end Optimap.Lib
