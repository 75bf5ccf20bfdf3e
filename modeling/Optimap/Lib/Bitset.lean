import Mathlib.Data.Nat.Bitwise
import Mathlib.Tactic

/-!
# Bit sets in machine words

Bit `i` of the set is bit `i % 64` of word `i / 64`.
-/

set_option autoImplicit false

namespace Optimap.Lib

namespace Bitset

/-- The word with bit `i % 64` alone. -/
def bit (i : Nat) : UInt64 := 1 <<< UInt64.ofNat (i % 64)

def test (words : List UInt64) (i : Nat) : Bool := (words.getD (i / 64) 0) &&& bit i != 0

def set (words : List UInt64) (i : Nat) : List UInt64 := words.modify (i / 64) (· ||| bit i)

/-- `count` words without a bit. -/
def zeroed (count : Nat) : List UInt64 := List.replicate count 0

theorem bit_toNat (i : Nat) : (bit i).toNat = 2 ^ (i % 64) := by
  have small : i % 64 < 64 := Nat.mod_lt _ (by decide)
  have power : 2 ^ (i % 64) < 2 ^ 64 := Nat.pow_lt_pow_right (by decide) small
  have amount : (UInt64.ofNat (i % 64)).toNat = i % 64 := by
    rw [UInt64.toNat_ofNat']
    exact Nat.mod_eq_of_lt (lt_of_lt_of_le small (by decide))
  rw [bit, UInt64.toNat_shiftLeft, amount, UInt64.toNat_one, Nat.shiftLeft_eq, one_mul,
    Nat.mod_eq_of_lt small, Nat.mod_eq_of_lt power]

theorem and_bit_ne_zero_iff (word : UInt64) (i : Nat) :
    word &&& bit i ≠ 0 ↔ word.toNat.testBit (i % 64) = true := by
  rw [ne_eq, ← UInt64.toNat_inj, UInt64.toNat_and, bit_toNat, UInt64.toNat_zero, Nat.and_two_pow,
    mul_eq_zero, not_or]
  cases word.toNat.testBit (i % 64) with
  | false => simp
  | true => simp

theorem test_eq_true_iff (words : List UInt64) (i : Nat) :
    test words i = true ↔ (words.getD (i / 64) 0).toNat.testBit (i % 64) = true := by
  rw [test, bne_iff_ne, and_bit_ne_zero_iff]

theorem test_zeroed (count i : Nat) : test (zeroed count) i = false := by
  have word : (zeroed count).getD (i / 64) 0 = 0 := by
    rw [zeroed, List.getD_eq_getElem?_getD, List.getElem?_replicate]
    split
    · rfl
    · rfl
  rw [test, word]
  simp

theorem set_length (words : List UInt64) (i : Nat) : (set words i).length = words.length :=
  List.length_modify _ _ _

/-- Setting a bit of an existing word sets that bit and no other. -/
theorem test_set {words : List UInt64} {i : Nat} (inside : i / 64 < words.length) (j : Nat) :
    test (set words i) j = true ↔ j = i ∨ test words j = true := by
  rw [test_eq_true_iff, test_eq_true_iff, set, List.getD_eq_getElem?_getD, List.getElem?_modify,
    List.getD_eq_getElem?_getD]
  by_cases sameWord : i / 64 = j / 64
  · have found : words[j / 64]? = some words[i / 64] := by
      rw [← sameWord]
      exact List.getElem?_eq_getElem inside
    rw [found]
    simp only [if_pos sameWord, Option.map_eq_map, Option.map_some, Option.getD_some, UInt64.toNat_or, bit_toNat, Nat.testBit_or,
      Nat.testBit_two_pow, Bool.or_eq_true, decide_eq_true_eq]
    have split : j = i ↔ i % 64 = j % 64 := by omega
    rw [split]
    exact or_comm
  · have apart : j ≠ i := by
      intro same
      exact sameWord (by rw [same])
    simp [sameWord, apart]

end Bitset

end Optimap.Lib
