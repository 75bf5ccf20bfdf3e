import Mathlib.Data.Nat.Bitwise
import Optimap.Tomb.Probes

/-!
# Byte-offset probing

Under `tomb-byte-offset-probe` the loops of `in_place_overflow` keep the byte
offset of the group instead of its index, and step it by multiples of the group
width. They return what the loops over group indices return.
-/

set_option autoImplicit false
set_option linter.unusedSectionVars false

namespace Optimap.Tomb

open Lib Hash Map

namespace RawTable

section Operations
variable {tag : TombstoneTag} {S : Type → Type → Type} [KvStorage S] {K V : Type}

/-! ## Groups by byte offset -/

/-- `(self.mask << 4) | 0xF`. -/
def byteMask (table : RawTable .inPlaceOverflow tag S K V) : Nat := table.mask <<< 4 ||| 0xF

def homeOffset (table : RawTable .inPlaceOverflow tag S K V) (h : UInt64) : Nat :=
  (h.toNat &&& table.mask) <<< 4

def nextOffset (table : RawTable .inPlaceOverflow tag S K V) (pos stride : Nat) : Nat :=
  (pos + stride) &&& table.byteMask

def matchByteAt (table : RawTable .inPlaceOverflow tag S K V) (pos : Nat) (byte : UInt8) : List Nat :=
  (List.range 16).filter fun si => table.ctrl.read (pos + si) == byte

def matchEmptyAt (table : RawTable .inPlaceOverflow tag S K V) (pos : Nat) : List Nat :=
  table.matchByteAt pos EMPTY

def findInGroupAt (table : RawTable .inPlaceOverflow tag S K V) (h : UInt64) (eq : K → Bool) (pos : Nat) :
    Option Nat :=
  (table.matchByteAt pos (tag.reducedHash h)).find? fun si =>
    (KvStorage.key table.buckets (pos ||| si)).any eq

/-- Tag the slot `si` of the group at `pos` and move the pair into `bucket`. -/
def putBucket (table : RawTable .inPlaceOverflow tag S K V) (h : UInt64) (pos si bucket : Nat) (key : K)
    (value : V) : RawTable .inPlaceOverflow tag S K V :=
  { table with
    ctrl := table.ctrl.write (pos + si) (tag.reducedHash h)
    buckets := KvStorage.write table.buckets bucket key value }

/-! ## The loops -/

def findLoopBytes (table : RawTable .inPlaceOverflow tag S K V) (h : UInt64) (eq : K → Bool) :
    Nat → Nat → Nat → Option (Option Slot)
  | 0, _, _ => none
  | fuel + 1, pos, stride =>
      match table.findInGroupAt h eq pos with
      | some si => some (some (pos >>> 4, si))
      | none =>
          if table.matchEmptyAt pos = [] then
            findLoopBytes table h eq fuel (table.nextOffset pos (stride + 16)) (stride + 16)
          else some none

def findByHashBytes (fuel : Nat) (table : RawTable .inPlaceOverflow tag S K V) (h : UInt64)
    (eq : K → Bool) : Option (Option Slot) :=
  table.findLoopBytes h eq fuel (table.homeOffset h) 0

def insertAfterResizeLoopBytes (table : RawTable .inPlaceOverflow tag S K V) (h : UInt64) (key : K)
    (value : V) : Nat → Nat → Nat → Option (RawTable .inPlaceOverflow tag S K V)
  | 0, _, _ => none
  | fuel + 1, pos, stride =>
      match (table.matchEmptyAt pos).head? with
      | some si => some (table.putBucket h pos si (pos ||| si) key value)
      | none =>
          insertAfterResizeLoopBytes table h key value fuel (table.nextOffset pos (stride + 16))
            (stride + 16)

def insertAfterResizeBytes (fuel : Nat) (table : RawTable .inPlaceOverflow tag S K V) (h : UInt64)
    (key : K) (value : V) : Option (RawTable .inPlaceOverflow tag S K V) :=
  table.insertAfterResizeLoopBytes h key value fuel (table.homeOffset h) 0

/-- The first tombstone is remembered as a bucket index, and its group offset
and slot are masked out of that. -/
def insertNoCheckLoopBytes (table : RawTable .inPlaceOverflow tag S K V) (h : UInt64) (key : K)
    (value : V) :
    Nat → Nat → Nat → Option Nat → Option (Slot × RawTable .inPlaceOverflow tag S K V)
  | 0, _, _, _ => none
  | fuel + 1, pos, stride, firstTombstone =>
      let firstTombstone :=
        firstTombstone.or ((table.matchByteAt pos TOMBSTONE).head?.map fun si => pos ||| si)
      match (table.matchEmptyAt pos).head? with
      | some si =>
          let insBucket := firstTombstone.getD (pos ||| si)
          -- `insBucket & !0xF`
          let insPos := insBucket.ldiff 0xF
          let insSi := insBucket &&& 0xF
          some ((insPos >>> 4, insSi),
            { table.putBucket h insPos insSi insBucket key value with
              len := table.len + 1
              growthLeft := if firstTombstone.isNone then table.growthLeft - 1 else table.growthLeft })
      | none =>
          insertNoCheckLoopBytes table h key value fuel (table.nextOffset pos (stride + 16))
            (stride + 16) firstTombstone

def insertNoCheckBytes (fuel : Nat) (table : RawTable .inPlaceOverflow tag S K V) (h : UInt64) (key : K)
    (value : V) : Option (Slot × RawTable .inPlaceOverflow tag S K V) :=
  table.insertNoCheckLoopBytes h key value fuel (table.homeOffset h) 0 none

def findOrLocateLoopBytes (table : RawTable .inPlaceOverflow tag S K V) (h : UInt64) (eq : K → Bool) :
    Nat → Nat → Nat → Option Slot → Option ProbeResult
  | 0, _, _, _ => none
  | fuel + 1, pos, stride, firstAvailable =>
      match table.findInGroupAt h eq pos with
      | some si => some (.found (pos >>> 4, si))
      | none =>
          let firstAvailable := firstAvailable.or
            (((table.matchByteAt pos TOMBSTONE).head?.or (table.matchEmptyAt pos).head?).map fun si =>
              (pos >>> 4, si))
          if table.matchEmptyAt pos = [] then
            findOrLocateLoopBytes table h eq fuel (table.nextOffset pos (stride + 16)) (stride + 16)
              firstAvailable
          else match firstAvailable with
            | some slot => some (.insertSlot slot 0)
            | none => some .notFound

/-- The group after the home group is one group width away. -/
def findOrLocateOverflowBytes (fuel : Nat) (table : RawTable .inPlaceOverflow tag S K V) (h : UInt64)
    (eq : K → Bool) (homeGi : Nat) (firstAvailable : Option Slot) : Option ProbeResult :=
  table.findOrLocateLoopBytes h eq fuel (table.nextOffset (homeGi <<< 4) 16) 16 firstAvailable

end Operations

/-! ## Offsets and indices -/

section Offsets
variable {gi si probe : Nat}

theorem offset_add (gi si : Nat) : gi <<< 4 + si = gi * 16 + si := by rw [Nat.shiftLeft_eq]

/-- Masking the offset masks the index: the low four bits of an offset are zero. -/
theorem offset_and (gi mask : Nat) : gi <<< 4 &&& (mask <<< 4 ||| 0xF) = (gi &&& mask) <<< 4 := by
  have low : gi <<< 4 &&& 0xF = 0 := by
    rw [show (0xF : Nat) = 2 ^ 4 - 1 from rfl, Nat.and_two_pow_sub_one_eq_mod, Nat.shiftLeft_eq,
      Nat.mul_mod_left]
  rw [Nat.and_or_distrib_left, low, Nat.or_zero, ← Nat.shiftLeft_and_distrib]

theorem offset_step (gi probe : Nat) : gi <<< 4 + probe * 16 = (gi + probe) <<< 4 := by
  simp only [Nat.shiftLeft_eq]
  ring

/-- A bucket index splits into the offset of its group and its slot. -/
theorem bucket_split (inside : si < 16) :
    (gi <<< 4 ||| si).ldiff 0xF = gi <<< 4 ∧ (gi <<< 4 ||| si) &&& 0xF = si := by
  have high : ∀ bit, 4 ≤ bit → si.testBit bit = false := fun bit large =>
    Nat.testBit_lt_two_pow (lt_of_lt_of_le inside (Nat.pow_le_pow_right Nat.zero_lt_two large))
  have nibble : ∀ bit, (0xF : Nat).testBit bit = decide (bit < 4) := fun bit =>
    Nat.testBit_two_pow_sub_one 4 bit
  constructor
  · refine Nat.eq_of_testBit_eq fun bit => ?_
    rw [Nat.testBit_ldiff, Nat.testBit_or, Nat.testBit_shiftLeft, nibble]
    by_cases large : 4 ≤ bit
    · simp [large, high bit large]
    · simp [large, Nat.lt_of_not_le large]
  · refine Nat.eq_of_testBit_eq fun bit => ?_
    rw [Nat.testBit_and, Nat.testBit_or, Nat.testBit_shiftLeft, nibble]
    by_cases large : 4 ≤ bit
    · simp [large, high bit large]
    · simp [large, Nat.lt_of_not_le large]

end Offsets

/-! ## The loops agree -/

section Agreement
variable {tag : TombstoneTag} {S : Type → Type → Type} [KvStorage S] {K V : Type}
  {table : RawTable .inPlaceOverflow tag S K V} {h : UInt64} {eq : K → Bool}

theorem nextOffset_eq (gi probe : Nat) :
    table.nextOffset (gi <<< 4) (probe * 16) = table.nextGroup gi probe <<< 4 := by
  rw [nextOffset, offset_step, byteMask, offset_and]
  rfl

theorem matchByteAt_eq (gi : Nat) (byte : UInt8) :
    table.matchByteAt (gi <<< 4) byte = table.matchByte gi byte := by
  unfold matchByteAt matchByte matchWhere metaByte
  simp only [offset_add]
  rfl

theorem matchEmptyAt_eq (gi : Nat) : table.matchEmptyAt (gi <<< 4) = table.matchEmpty gi :=
  matchByteAt_eq gi EMPTY

theorem findInGroupAt_eq (gi : Nat) :
    table.findInGroupAt h eq (gi <<< 4) = table.findInGroup h eq gi := by
  rw [findInGroupAt, matchByteAt_eq]
  rfl

theorem putBucket_eq (gi si : Nat) (key : K) (value : V) :
    table.putBucket h (gi <<< 4) si (gi <<< 4 ||| si) key value = table.putSlot h (gi, si) key value := by
  rw [putBucket, offset_add]
  rfl

theorem nextOffset_succ (gi probe : Nat) :
    table.nextOffset (gi <<< 4) (probe * 16 + 16) = table.nextGroup gi (probe + 1) <<< 4 := by
  rw [← nextOffset_eq, Nat.add_mul, Nat.one_mul]

theorem stride_succ (probe : Nat) : probe * 16 + 16 = (probe + 1) * 16 := by ring

theorem findLoopBytes_eq (fuel : Nat) (gi probe : Nat) :
    table.findLoopBytes h eq fuel (gi <<< 4) (probe * 16) = table.findLoop h eq fuel gi probe := by
  induction fuel generalizing gi probe with
  | zero => rfl
  | succ fuel ih =>
      simp only [findLoopBytes, findLoop, findInGroupAt_eq, matchEmptyAt_eq, Nat.shiftLeft_shiftRight,
        nextOffset_succ]
      cases table.findInGroup h eq gi with
      | some si => rfl
      | none => simp only [stride_succ, ih]

theorem insertAfterResizeLoopBytes_eq (key : K) (value : V) (fuel : Nat) (gi probe : Nat) :
    table.insertAfterResizeLoopBytes h key value fuel (gi <<< 4) (probe * 16) =
      table.insertAfterResizeLoop h key value fuel gi probe := by
  induction fuel generalizing gi probe with
  | zero => rfl
  | succ fuel ih =>
      simp only [insertAfterResizeLoopBytes, insertAfterResizeLoop, matchEmptyAt_eq, nextOffset_succ,
        putBucket_eq]
      cases (table.matchEmpty gi).head? with
      | some si => rfl
      | none => simp only [stride_succ, ih]

/-- A remembered tombstone, as the bucket index the byte loop keeps. -/
def bucketOfSlot (slot : Slot) : Nat := slot.1 <<< 4 ||| slot.2

theorem trackTombstone_bucket (gi : Nat) (first : Option Slot) :
    (first.map bucketOfSlot).or
        ((table.matchByteAt (gi <<< 4) TOMBSTONE).head?.map fun si => gi <<< 4 ||| si) =
      (table.trackTombstone gi first).map bucketOfSlot := by
  rw [trackTombstone, matchByteAt_eq, Option.map_or, Option.map_map]
  rfl

/-- The remembered slots lie in their group. -/
def Narrow (first : Option Slot) : Prop := ∀ slot, first = some slot → slot.2 < 16

theorem Narrow.track {first : Option Slot} (narrow : Narrow first) (gi : Nat) :
    Narrow (table.trackTombstone gi first) := by
  intro slot chosen
  rw [trackTombstone, Option.or_eq_some_iff] at chosen
  rcases chosen with earlier | ⟨_, here⟩
  · exact narrow slot earlier
  · obtain ⟨si, head, rfl⟩ := Option.map_eq_some_iff.mp here
    exact (mem_matchByte.mp (List.mem_of_head? head)).1

/-- Writing to a bucket index writes to the slot it names. -/
theorem putBucket_split {slot : Slot} (inside : slot.2 < 16) (key : K) (value : V) :
    table.putBucket h ((bucketOfSlot slot).ldiff 0xF) (bucketOfSlot slot &&& 0xF) (bucketOfSlot slot) key
        value = table.putSlot h slot key value := by
  obtain ⟨gi, si⟩ := slot
  obtain ⟨offset, low⟩ := @bucket_split gi si inside
  simp only [bucketOfSlot, offset, low]
  exact putBucket_eq gi si key value

theorem bucketOfSlot_split {slot : Slot} (inside : slot.2 < 16) :
    (((bucketOfSlot slot).ldiff 0xF) >>> 4, bucketOfSlot slot &&& 0xF) = slot := by
  obtain ⟨gi, si⟩ := slot
  obtain ⟨offset, low⟩ := @bucket_split gi si inside
  simp only [bucketOfSlot, offset, low, Nat.shiftLeft_shiftRight]

theorem insertNoCheckLoopBytes_eq (key : K) (value : V) (fuel : Nat) (gi probe : Nat)
    {first : Option Slot} (narrow : Narrow first) :
    table.insertNoCheckLoopBytes h key value fuel (gi <<< 4) (probe * 16) (first.map bucketOfSlot) =
      table.insertNoCheckLoop h key value fuel gi probe first := by
  induction fuel generalizing gi probe first with
  | zero => rfl
  | succ fuel ih =>
      have tracked : Narrow (table.trackTombstone gi first) := narrow.track gi
      simp only [insertNoCheckLoopBytes, insertNoCheckLoop, trackTombstone_bucket, matchEmptyAt_eq,
        nextOffset_succ]
      cases head : (table.matchEmpty gi).head? with
      | none =>
          simp only
          rw [stride_succ, ih _ _ tracked]
      | some si =>
          have inside : si < 16 := (mem_matchByte.mp (List.mem_of_head? head)).1
          cases chosen : table.trackTombstone gi first with
          | some slot =>
              have slotInside := tracked slot chosen
              simp only [Option.map_some, Option.getD_some, putBucket_split slotInside,
                bucketOfSlot_split slotInside]
              rfl
          | none =>
              have here : gi <<< 4 ||| si = bucketOfSlot (gi, si) := rfl
              simp only [Option.map_none, Option.getD_none]
              rw [here, putBucket_split inside, bucketOfSlot_split inside]
              rfl

theorem available_eq (gi : Nat) (first : Option Slot) :
    first.or (((table.matchByte gi TOMBSTONE).head?.or (table.matchEmpty gi).head?).map fun si => (gi, si)) =
      (table.trackTombstone gi first).or ((table.matchEmpty gi).head?.map fun si => (gi, si)) := by
  rw [trackTombstone, Option.or_assoc, Option.map_or]

theorem findOrLocateLoopBytes_eq (fuel : Nat) (gi probe : Nat) (first : Option Slot) :
    table.findOrLocateLoopBytes h eq fuel (gi <<< 4) (probe * 16) first =
      table.findOrLocateOverflow h eq fuel gi probe first := by
  induction fuel generalizing gi probe first with
  | zero => rfl
  | succ fuel ih =>
      simp only [findOrLocateLoopBytes, findOrLocateOverflow, findInGroupAt_eq, matchByteAt_eq,
        matchEmptyAt_eq, Nat.shiftLeft_shiftRight, nextOffset_succ, available_eq]
      cases table.findInGroup h eq gi with
      | some si => rfl
      | none =>
          by_cases full : table.matchEmpty gi = []
          · exact (if_pos full).trans ((stride_succ probe ▸ ih _ (probe + 1) _).trans (if_pos full).symm)
          · exact (if_neg full).trans (if_neg full).symm

end Agreement

/-- The four loops over byte offsets return what the loops over group indices
return, from every table and for every number of rounds. -/
theorem byte_offset_probing_agrees {tag : TombstoneTag} {S : Type → Type → Type} [KvStorage S] {K V : Type}
    (table : RawTable .inPlaceOverflow tag S K V) (h : UInt64) (fuel : Nat) :
    (∀ eq : K → Bool, table.findByHashBytes fuel h eq = table.findByHash fuel h eq) ∧
    (∀ key value, table.insertAfterResizeBytes fuel h key value = table.insertAfterResize fuel h key value) ∧
    (∀ key value, table.insertNoCheckBytes fuel h key value = table.insertNoCheck fuel h key value) ∧
    ∀ (eq : K → Bool) homeGi firstAvailable,
      table.findOrLocateOverflowBytes fuel h eq homeGi firstAvailable =
        table.findOrLocateOverflow h eq fuel (table.nextGroup homeGi 1) 1 firstAvailable := by
  refine ⟨fun eq => ?_, fun key value => ?_, fun key value => ?_, fun eq homeGi first => ?_⟩
  · exact findLoopBytes_eq fuel (table.groupIndex h) 0
  · exact insertAfterResizeLoopBytes_eq key value fuel (table.groupIndex h) 0
  · have nothing : Narrow none := fun slot chosen => nomatch chosen
    exact insertNoCheckLoopBytes_eq key value fuel (table.groupIndex h) 0 nothing
  · have next : table.nextOffset (homeGi <<< 4) (1 * 16) = _ := nextOffset_eq homeGi 1
    rw [Nat.one_mul] at next
    rw [findOrLocateOverflowBytes, next]
    exact findOrLocateLoopBytes_eq fuel _ 1 first

end RawTable

end Optimap.Tomb
