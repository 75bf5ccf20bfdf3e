import Mathlib.Data.Nat.Bitwise
import Mathlib.Tactic

/-!
# Parts shared by the hash table engines

Key-value storage and control bytes behind a table, the reduction of a hash to a
one-byte tag, and the rounding of a group count to a power of two.
-/

set_option autoImplicit false

namespace Optimap.Hash

/-- Slot storage. `none` marks a slot nothing was written to. -/
class KvStorage (S : Type → Type → Type) where
  empty {K V : Type} : S K V
  key {K V : Type} : S K V → Nat → Option K
  value {K V : Type} : S K V → Nat → Option V
  write {K V : Type} : S K V → Nat → K → V → S K V
  /-- A store through the value pointer of a slot. -/
  writeValue {K V : Type} : S K V → Nat → V → S K V
  key_write {K V : Type} (store : S K V) (index other : Nat) (k : K) (v : V) :
    key (write store index k v) other = if other = index then some k else key store other
  value_write {K V : Type} (store : S K V) (index other : Nat) (k : K) (v : V) :
    value (write store index k v) other = if other = index then some v else value store other
  key_writeValue {K V : Type} (store : S K V) (index other : Nat) (v : V) :
    key (writeValue store index v) other = key store other
  value_writeValue {K V : Type} (store : S K V) (index other : Nat) (old v : V) :
    value store index = some old →
    value (writeValue store index v) other = if other = index then some v else value store other

/-- Array of structures: one `(K, V)` tuple per slot. -/
structure AoS (K V : Type) where
  tuples : Nat → Option (K × V)

/-- Structure of arrays: keys before the control bytes, values after them. -/
structure SoA (K V : Type) where
  keys : Nat → Option K
  values : Nat → Option V

/-- Replace one cell of a region. -/
def setCell {α : Type} (cells : Nat → α) (index : Nat) (item : α) : Nat → α :=
  fun other => if other = index then item else cells other

instance : KvStorage AoS where
  empty := ⟨fun _ => none⟩
  key store index := (store.tuples index).map Prod.fst
  value store index := (store.tuples index).map Prod.snd
  write store index k v := ⟨setCell store.tuples index (some (k, v))⟩
  writeValue store index v :=
    ⟨setCell store.tuples index ((store.tuples index).map fun pair => (pair.1, v))⟩
  key_write store index other k v := by
    by_cases same : other = index <;> simp [setCell, same]
  value_write store index other k v := by
    by_cases same : other = index <;> simp [setCell, same]
  key_writeValue store index other v := by
    by_cases same : other = index <;> simp [setCell, same, Function.comp_def]
  value_writeValue store index other old v stored := by
    obtain ⟨pair, found, _⟩ := Option.map_eq_some_iff.mp stored
    by_cases same : other = index <;> simp [setCell, same, found]

instance : KvStorage SoA where
  empty := ⟨fun _ => none, fun _ => none⟩
  key store := store.keys
  value store := store.values
  write store index k v := ⟨setCell store.keys index (some k), setCell store.values index (some v)⟩
  writeValue store index v := { store with values := setCell store.values index (some v) }
  key_write _ _ _ _ _ := rfl
  value_write _ _ _ _ _ := rfl
  key_writeValue _ _ _ _ := rfl
  value_writeValue _ _ _ _ _ _ := rfl

/-- Metadata byte of an empty slot. -/
def EMPTY : UInt8 := 0

/-- What `ctrl` points to: the shared all-zero sentinel of an unallocated table,
or the control bytes of the table's own allocation. -/
inductive Ctrl where
  | sentinel
  | alloc (bytes : Nat → UInt8)

namespace Ctrl

def read : Ctrl → Nat → UInt8
  | .sentinel, _ => 0
  | .alloc bytes, offset => bytes offset

/-- The sentinel is never written. -/
def write : Ctrl → Nat → UInt8 → Ctrl
  | .sentinel, _, _ => .sentinel
  | .alloc bytes, offset, byte => .alloc (setCell bytes offset byte)

/-- `ptr::write_bytes(ctrl, 0, count)`. -/
def zero : Ctrl → Nat → Ctrl
  | .sentinel, _ => .sentinel
  | .alloc bytes, count => .alloc fun offset => if offset < count then 0 else bytes offset

theorem read_write {ctrl : Ctrl} (bytes : ∃ region, ctrl = .alloc region) (offset other : Nat)
    (byte : UInt8) :
    (ctrl.write offset byte).read other = if other = offset then byte else ctrl.read other := by
  obtain ⟨region, rfl⟩ := bytes
  rfl

theorem read_write_of_ne (ctrl : Ctrl) {offset other : Nat} (byte : UInt8)
    (different : other ≠ offset) : (ctrl.write offset byte).read other = ctrl.read other := by
  cases ctrl with
  | sentinel => rfl
  | alloc region => exact if_neg different

end Ctrl

/-- Which region of the hash the group index reads. -/
inductive HashRegion where
  | low
  | high
  deriving DecidableEq

/-- `usize::next_power_of_two`. -/
def nextPowerOfTwo (n : Nat) : Nat :=
  if n ≤ 1 then 1 else 2 ^ (Nat.log2 (n - 1) + 1)

theorem nextPowerOfTwo_power (n : Nat) : ∃ bits, nextPowerOfTwo n = 2 ^ bits := by
  unfold nextPowerOfTwo
  split
  · exact ⟨0, rfl⟩
  · exact ⟨_, rfl⟩

theorem le_nextPowerOfTwo (n : Nat) : n ≤ nextPowerOfTwo n := by
  unfold nextPowerOfTwo
  split
  · assumption
  · have below := Nat.lt_log2_self (n := n - 1)
    omega

/-- Slots needed to hold `capacity` entries below the load factor, as whole
groups rounded up to a power of two. -/
def groupsFor (groupSize num den capacity : Nat) : Nat :=
  let minSlots := (capacity * den + num - 1) / num
  let minGroups := (minSlots + groupSize - 1) / groupSize
  nextPowerOfTwo minGroups

def maxLoadForCapacity (capacity num den : Nat) : Nat := capacity * num / den

theorem le_mul_roundUp {n d : Nat} (positive : 0 < d) : n ≤ d * ((n + d - 1) / d) := by
  have division := Nat.div_add_mod (n + d - 1) d
  have remainder := Nat.mod_lt (n + d - 1) positive
  omega

/-- The groups asked for can take `capacity` entries. -/
theorem le_maxLoad_groupsFor {groupSize num den : Nat} (size : 0 < groupSize) (numerator : 0 < num)
    (denominator : 0 < den) (capacity : Nat) :
    capacity ≤ maxLoadForCapacity (groupsFor groupSize num den capacity * groupSize) num den := by
  unfold maxLoadForCapacity
  rw [Nat.le_div_iff_mul_le denominator]
  have slots := le_mul_roundUp (n := capacity * den) numerator
  have groups := le_mul_roundUp (n := (capacity * den + num - 1) / num) size
  have rounded := le_nextPowerOfTwo
    (((capacity * den + num - 1) / num + groupSize - 1) / groupSize)
  calc capacity * den
      ≤ num * ((capacity * den + num - 1) / num) := slots
    _ ≤ num * (groupSize * (((capacity * den + num - 1) / num + groupSize - 1) / groupSize)) :=
        Nat.mul_le_mul_left _ groups
    _ ≤ num * (groupSize * groupsFor groupSize num den capacity) :=
        Nat.mul_le_mul_left _ (Nat.mul_le_mul_left _ rounded)
    _ = groupsFor groupSize num den capacity * groupSize * num := by ring

/-- Row and column of a cell in a region of rows of length `stride`. -/
theorem strided_inj {stride row column row' column' : Nat} (inside : column < stride)
    (inside' : column' < stride) (same : row * stride + column = row' * stride + column') :
    row = row' ∧ column = column' := by
  have positive : 0 < stride := by omega
  have quotient := congrArg (· / stride) same
  have remainder := congrArg (· % stride) same
  simp only [Nat.mul_comm _ stride, Nat.mul_add_mod, Nat.mul_add_div positive,
    Nat.div_eq_of_lt inside, Nat.div_eq_of_lt inside', Nat.mod_eq_of_lt inside,
    Nat.mod_eq_of_lt inside', Nat.add_zero] at quotient remainder
  exact ⟨quotient, remainder⟩

theorem strided_lt {stride row column mask : Nat} (inside : column < stride) (bound : row ≤ mask) :
    row * stride + column < (mask + 1) * stride := by
  have rows : row * stride + stride ≤ (mask + 1) * stride := by
    rw [← Nat.succ_mul]
    exact Nat.mul_le_mul_right _ (by omega)
  omega

/-- The crate feature that selects the reduction to 255 or 128 tag values. -/
inductive ReducedHash where
  | low128
  | asm
  | pure
  deriving DecidableEq

/-- `b | (b == 0)`. -/
def reduce255Pure (b : UInt8) : UInt8 := b ||| (if b = 0 then 1 else 0)

/-- `cmp b, 0xFF; adc b, 0`: an increment that saturates. -/
def reduce255Asm (b : UInt8) : UInt8 := if b < 0xFF then b + 1 else b

def hashTag (feature : ReducedHash) (h : UInt64) : UInt8 :=
  match feature with
  | .low128 => h.toUInt8 ||| 1
  | .asm => reduce255Asm h.toUInt8
  | .pure => reduce255Pure h.toUInt8

theorem or_ne_zero {left right : UInt8} (nonzero : right ≠ 0) : left ||| right ≠ 0 := by
  intro zero
  apply nonzero
  have numbers := congrArg UInt8.toNat zero
  simp only [UInt8.toNat_or, UInt8.toNat_zero, Nat.or_eq_zero_iff] at numbers
  exact UInt8.toNat_inj.mp numbers.2

theorem reduce255Pure_ne_zero (b : UInt8) : reduce255Pure b ≠ 0 := by
  unfold reduce255Pure
  by_cases zero : b = 0
  · simp [zero]
  · simp [zero]

theorem reduce255Asm_ne_zero (b : UInt8) : reduce255Asm b ≠ 0 := by
  unfold reduce255Asm
  split
  · rename_i below
    intro zero
    have numbers := congrArg UInt8.toNat zero
    rw [UInt8.lt_iff_toNat_lt] at below
    simp only [UInt8.toNat_add, UInt8.toNat_ofNat] at numbers below
    omega
  · rename_i top
    rintro rfl
    exact top (by decide)

theorem hashTag_ne_zero (feature : ReducedHash) (h : UInt64) : hashTag feature h ≠ 0 := by
  cases feature with
  | low128 => exact or_ne_zero (by decide)
  | asm => exact reduce255Asm_ne_zero _
  | pure => exact reduce255Pure_ne_zero _

/-- `1u8 << (h & 7)`. -/
def channelBit (h : UInt64) : UInt8 := 1 <<< (h &&& 7).toUInt8

theorem shift_one_ne_zero (amount : UInt8) : (1 : UInt8) <<< amount ≠ 0 := by
  intro zero
  have numbers := congrArg UInt8.toNat zero
  rw [UInt8.toNat_shiftLeft, UInt8.toNat_one, UInt8.toNat_zero, Nat.shiftLeft_eq, one_mul] at numbers
  have small : 2 ^ (amount.toNat % 8) < 2 ^ 8 :=
    Nat.pow_lt_pow_right (by decide) (Nat.mod_lt _ (by decide))
  rw [Nat.mod_eq_of_lt small] at numbers
  exact absurd numbers (by positivity)

theorem channelBit_single (h : UInt64) : ∃ bit : UInt8, channelBit h = 1 <<< bit := ⟨_, rfl⟩

end Optimap.Hash
