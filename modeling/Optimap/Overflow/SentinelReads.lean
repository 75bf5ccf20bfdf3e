import Optimap.Overflow.RawTable

/-!
# What lookups read of the sentinel

The control bytes that a lookup loads, as offsets from `ctrl`: the metadata of each
group it visits and, unless the key is found there, the byte with the group's overflow
bits. The result depends on no other bytes. An unallocated table points to a static of
64 zero bytes, with anything behind it.
-/

set_option autoImplicit false

namespace Optimap.Overflow

open Lib Hash Map

/-- The length of `EMPTY_SENTINEL`. -/
def sentinelSize : Nat := 64

namespace RawTable

variable {L : GroupLayout} {S : Type → Type → Type} [KvStorage S] {K V : Type}

/-! ## Footprints -/

/-- One vector load, `META_STRIDE` bytes wide. -/
def groupReads (L : GroupLayout) (gi : Nat) : List Nat := (List.range L.metaStride).map (L.metaOffset gi)

def findLoopReads (table : RawTable L S K V) (h : UInt64) (eq : K → Bool) : Nat → Nat → Nat → List Nat
  | 0, _, _ => []
  | fuel + 1, gi, probe =>
      groupReads L gi ++
        match table.findInGroup h eq gi with
        | some _ => []
        | none =>
            L.overflowOffset table.mask gi ::
              if table.hasOverflowBit gi (L.tags.overflowChannel h) then
                findLoopReads table h eq fuel (table.nextGroup gi (probe + 1)) (probe + 1)
              else []

def findByHashReads (fuel : Nat) (table : RawTable L S K V) (h : UInt64) (eq : K → Bool) : List Nat :=
  table.findLoopReads h eq fuel (table.groupIndex h) 0

/-- `find_or_locate` visits the groups that `find_by_hash` visits. -/
def findForEntryReads [DecidableEq K] (fuel : Nat) (table : RawTable L S K V) (h : UInt64) (key : K) : List Nat :=
  let eq := fun stored => decide (stored = key)
  if table.maxLoad ≤ table.len then table.findByHashReads fuel h eq
  else
    let gi := table.groupIndex h
    groupReads L gi ++
      match table.findInGroup h eq gi with
      | some _ => []
      | none =>
          match (table.matchEmpty gi).head? with
          | some _ =>
              L.overflowOffset table.mask gi ::
                if table.hasOverflowBit gi (L.tags.overflowChannel h) then table.findByHashReads (fuel + 1) h eq
                else []
          | none => table.findByHashReads (fuel + 1) h eq

/-- After the lookup, the home group's overflow bits. -/
def removeByHashReads (fuel : Nat) (table : RawTable L S K V) (h : UInt64) (eq : K → Bool) : List Nat :=
  table.findByHashReads fuel h eq ++
    match table.findByHash fuel h eq with
    | some (some _) => [L.overflowOffset table.mask (table.groupIndex h)]
    | _ => []

/-- The table with other control bytes. -/
def withCtrl (table : RawTable L S K V) (ctrl : Ctrl) : RawTable L S K V := { table with ctrl := ctrl }

theorem mem_groupReads {gi offset : Nat} :
    offset ∈ groupReads L gi ↔ ∃ si < L.metaStride, L.metaOffset gi si = offset := by
  simp [groupReads]

theorem findInGroup_withCtrl {table : RawTable L S K V} {ctrl : Ctrl} {gi : Nat}
    (agree : ∀ offset ∈ groupReads L gi, ctrl.read offset = table.ctrl.read offset) (h : UInt64) (eq : K → Bool) :
    (table.withCtrl ctrl).findInGroup h eq gi = table.findInGroup h eq gi := by
  have matched : ∀ byte, (table.withCtrl ctrl).matchByte gi byte = table.matchByte gi byte := by
    refine fun byte => List.filter_congr fun si inside => ?_
    have load : L.metaOffset gi si ∈ groupReads L gi :=
      mem_groupReads.mpr ⟨si, Nat.lt_of_lt_of_le (List.mem_range.mp inside) L.meta_room, rfl⟩
    exact congrArg (· == byte) (agree _ load)
  rw [findInGroup, matched]
  rfl

/-- A lookup depends on the bytes it reads and on no others. -/
theorem findLoop_withCtrl {table : RawTable L S K V} {ctrl : Ctrl} (h : UInt64) (eq : K → Bool)
    (fuel gi probe : Nat)
    (agree : ∀ offset ∈ table.findLoopReads h eq fuel gi probe, ctrl.read offset = table.ctrl.read offset) :
    (table.withCtrl ctrl).findLoop h eq fuel gi probe = table.findLoop h eq fuel gi probe ∧
      (table.withCtrl ctrl).findLoopReads h eq fuel gi probe = table.findLoopReads h eq fuel gi probe := by
  induction fuel generalizing gi probe with
  | zero => exact ⟨rfl, rfl⟩
  | succ fuel ih =>
      have load : ∀ offset ∈ groupReads L gi, ctrl.read offset = table.ctrl.read offset := fun offset member =>
        agree offset (List.mem_append_left _ member)
      have found := findInGroup_withCtrl load h eq
      simp only [findLoop, findLoopReads] at agree ⊢
      rw [found]
      cases hit : table.findInGroup h eq gi with
      | some si => exact ⟨rfl, rfl⟩
      | none =>
          simp only [hit] at agree
          have bits : (table.withCtrl ctrl).hasOverflowBit gi (L.tags.overflowChannel h) =
              table.hasOverflowBit gi (L.tags.overflowChannel h) := by
            have same := agree _ (List.mem_append_right _ List.mem_cons_self)
            exact congrArg (fun byte => byte &&& L.overflowMask gi (L.tags.overflowChannel h) != 0) same
          simp only [bits]
          cases passed : table.hasOverflowBit gi (L.tags.overflowChannel h) with
          | false => exact ⟨rfl, rfl⟩
          | true =>
              simp only [passed, if_true] at agree ⊢
              obtain ⟨result, reads⟩ := ih (table.nextGroup gi (probe + 1)) (probe + 1) fun offset member =>
                agree offset (List.mem_append_right _ (List.mem_cons_of_mem _ member))
              exact ⟨result, congrArg (fun rest => groupReads L gi ++ L.overflowOffset table.mask gi :: rest) reads⟩

/-! ## Unallocated tables -/

/-- `ctrl` points to `EMPTY_SENTINEL`: the first 64 bytes are zero, and what follows
them is not known. `shift` may be that of an earlier allocation. -/
structure AtSentinel (table : RawTable L S K V) : Prop where
  mask : table.mask = 0
  len : table.len = 0
  maxLoad : table.maxLoad = 0
  zeros : ∀ offset < sentinelSize, table.ctrl.read offset = 0

theorem new_atSentinel : (new : RawTable L S K V).AtSentinel := ⟨rfl, rfl, rfl, fun _ _ => rfl⟩

theorem detached_atSentinel (table : RawTable L S K V) : table.detached.AtSentinel :=
  ⟨rfl, rfl, rfl, fun _ _ => rfl⟩

omit [KvStorage S] in
theorem AtSentinel.groupIndex {table : RawTable L S K V} (unallocated : table.AtSentinel) (h : UInt64) :
    table.groupIndex h = 0 := by
  unfold RawTable.groupIndex
  cases L.groupIndexRegion <;> simp [unallocated.mask]

/-- Over zero bytes a lookup loads one group and its overflow bits. -/
theorem findLoop_zeros {table : RawTable L S K V} (zeros : table.ctrl = .sentinel) (h : UInt64) (eq : K → Bool)
    (fuel gi probe : Nat) :
    table.findLoop h eq (fuel + 1) gi probe = some none ∧
      table.findLoopReads h eq (fuel + 1) gi probe = groupReads L gi ++ [L.overflowOffset table.mask gi] := by
  have unmatched : table.matchByte gi (L.tags.tag h) = [] := by
    refine List.filter_eq_nil_iff.mpr fun si _ same => L.tags.tag_ne_empty h ?_
    rw [metaByte, zeros] at same
    exact (beq_iff_eq.mp same).symm
  have absent : table.findInGroup h eq gi = none := by rw [findInGroup, unmatched, List.find?_nil]
  have clear : table.hasOverflowBit gi (L.tags.overflowChannel h) = false := by
    rw [hasOverflowBit, zeros]
    simp [Ctrl.read]
  simp only [findLoop, findLoopReads, absent, clear]
  exact ⟨rfl, rfl⟩

/-- The bytes of the first group and its overflow bits lie in the sentinel. -/
def FitsSentinel (L : GroupLayout) : Prop :=
  L.metaStride ≤ sentinelSize ∧ (L.overflow = .embedded ∨ L.metaStride < sentinelSize)

instance (L : GroupLayout) : Decidable (FitsSentinel L) := inferInstanceAs (Decidable (_ ∧ _))

theorem overflowOffset_first (L : GroupLayout) :
    L.overflowOffset 0 0 = if L.overflow = .embedded then L.metaStride - 1 else L.metaStride := by
  cases strategy : L.overflow with
  | byteSeparate => simp [GroupLayout.overflowOffset, strategy]
  | bitSeparate => simp [GroupLayout.overflowOffset, strategy]
  | embedded => simp [GroupLayout.overflowOffset, strategy]

theorem firstGroup_inside_iff (L : GroupLayout) :
    (∀ offset ∈ groupReads L 0 ++ [L.overflowOffset 0 0], offset < sentinelSize) ↔ FitsSentinel L := by
  have positive : 0 < L.metaStride := Nat.lt_of_lt_of_le L.groupSize_pos L.meta_room
  have load : (∀ offset ∈ groupReads L 0, offset < sentinelSize) ↔ L.metaStride ≤ sentinelSize := by
    constructor
    · intro inside
      have last := inside (L.metaOffset 0 (L.metaStride - 1))
        (mem_groupReads.mpr ⟨_, Nat.sub_one_lt_of_lt positive, rfl⟩)
      rw [GroupLayout.metaOffset, Nat.zero_mul, Nat.zero_add] at last
      omega
    · intro stride offset member
      obtain ⟨si, inside, rfl⟩ := mem_groupReads.mp member
      rw [GroupLayout.metaOffset, Nat.zero_mul, Nat.zero_add]
      exact inside.trans_le stride
  rw [List.forall_mem_append, load, List.forall_mem_singleton, FitsSentinel, overflowOffset_first]
  refine and_congr_right fun stride => ?_
  by_cases embedded : L.overflow = .embedded
  · rw [if_pos embedded]
    exact iff_of_true (by omega) (.inl embedded)
  · rw [if_neg embedded, or_iff_right embedded]

/-- On a layout that fits the sentinel, a lookup finds nothing in the first group and
goes no further. -/
theorem AtSentinel.findByHash {table : RawTable L S K V} (unallocated : table.AtSentinel) (fits : FitsSentinel L)
    (fuel : Nat) (h : UInt64) (eq : K → Bool) :
    table.findByHash (fuel + 1) h eq = some none ∧
      table.findByHashReads (fuel + 1) h eq = groupReads L 0 ++ [L.overflowOffset 0 0] := by
  obtain ⟨absent, reads⟩ := @findLoop_zeros L S _ K V (table.withCtrl .sentinel) rfl h eq fuel 0 0
  have mask : (table.withCtrl .sentinel).mask = 0 := unallocated.mask
  rw [mask] at reads
  have agree : ∀ offset ∈ (table.withCtrl .sentinel).findLoopReads h eq (fuel + 1) 0 0,
      table.ctrl.read offset = (table.withCtrl .sentinel).ctrl.read offset := fun offset member =>
    unallocated.zeros offset ((firstGroup_inside_iff L).mpr fits offset (reads ▸ member))
  obtain ⟨sameResult, sameReads⟩ := @findLoop_withCtrl L S _ K V (table.withCtrl .sentinel) table.ctrl h eq (fuel + 1) 0 0 agree
  rw [RawTable.findByHash, findByHashReads, unallocated.groupIndex]
  exact ⟨sameResult.trans absent, sameReads.trans reads⟩

/-- A lookup that stops at its first group with "absent" and stays inside the
sentinel, in `find_by_hash` and `remove_by_hash`. -/
structure LookupInside (table : RawTable L S K V) (fuel : Nat) (h : UInt64) (eq : K → Bool) : Prop where
  find : table.findByHash (fuel + 1) h eq = some none
  remove : table.removeByHash (fuel + 1) h eq = some (none, table)
  findReads : ∀ offset ∈ table.findByHashReads (fuel + 1) h eq, offset < sentinelSize
  removeReads : ∀ offset ∈ table.removeByHashReads (fuel + 1) h eq, offset < sentinelSize

/-- The same of `find_for_entry`. -/
structure EntryInside [DecidableEq K] (table : RawTable L S K V) (fuel : Nat) (h : UInt64) (key : K) : Prop where
  entry : table.findForEntry (fuel + 1) h key = some (.vacant none)
  reads : ∀ offset ∈ table.findForEntryReads (fuel + 1) h key, offset < sentinelSize

theorem AtSentinel.lookupInside {table : RawTable L S K V} (unallocated : table.AtSentinel) (fits : FitsSentinel L)
    (fuel : Nat) (h : UInt64) (eq : K → Bool) : table.LookupInside fuel h eq := by
  obtain ⟨absent, reads⟩ := unallocated.findByHash fits fuel h eq
  have inside := (firstGroup_inside_iff L).mpr fits
  refine ⟨absent, ?_, reads ▸ inside, ?_⟩
  · rw [removeByHash, absent]
    rfl
  · rw [removeByHashReads, absent, reads, List.append_nil]
    exact inside

theorem AtSentinel.entryInside [DecidableEq K] {table : RawTable L S K V} (unallocated : table.AtSentinel)
    (fits : FitsSentinel L) (fuel : Nat) (h : UInt64) (key : K) : table.EntryInside fuel h key := by
  obtain ⟨absent, reads⟩ := unallocated.findByHash fits fuel h fun stored => decide (stored = key)
  have full : table.maxLoad ≤ table.len := by rw [unallocated.maxLoad]; exact Nat.zero_le _
  constructor
  · rw [findForEntry, if_pos full, findByHashEq, absent]
    rfl
  · rw [findForEntryReads, if_pos full, reads]
    exact (firstGroup_inside_iff L).mpr fits

/-- Lookups on an unallocated table stay inside the sentinel and stop at once exactly
when the layout's stride, with a separate overflow byte behind it, fits 64 bytes. -/
theorem sentinel_lookups_inside_iff (L : GroupLayout) (S : Type → Type → Type) [KvStorage S] (K V : Type)
    [DecidableEq K] :
    (∀ table : RawTable L S K V, table.AtSentinel → ∀ fuel h,
      (∀ eq, table.LookupInside fuel h eq) ∧ ∀ key, table.EntryInside fuel h key) ↔ FitsSentinel L := by
  constructor
  · intro inside
    have reads := ((inside new new_atSentinel 0 0).1 fun _ => false).findReads
    rw [findByHashReads, new_atSentinel.groupIndex, (findLoop_zeros rfl 0 _ 0 0 0).2] at reads
    exact (firstGroup_inside_iff L).mp reads
  · exact fun fits table unallocated fuel h =>
      ⟨unallocated.lookupInside fits fuel h, unallocated.entryInside fits fuel h⟩

/-- An unallocated Splitsies table of 64 slots a group, with a set byte behind the
sentinel. -/
def splitsies64AtSentinel : RawTable (splitsies64Layout .asm) AoS UInt64 Nat :=
  (new : RawTable (splitsies64Layout .asm) AoS UInt64 Nat).withCtrl
    (.alloc fun offset => if offset < sentinelSize then 0 else 0xFF)

/-- The overflow byte of its one group is the byte behind the sentinel, and while that
is set the lookup visits the same group forever. -/
theorem splitsies64_lookup_leaves_sentinel :
    splitsies64AtSentinel.AtSentinel ∧ sentinelSize ∈ splitsies64AtSentinel.findByHashReads 1 0 (fun _ => false) ∧
      ∀ fuel, splitsies64AtSentinel.findByHash fuel 0 (fun _ => false) = none := by
  have absent : splitsies64AtSentinel.findInGroup 0 (fun _ => false) 0 = none := by decide
  have passed : splitsies64AtSentinel.hasOverflowBit 0 ((splitsies64Layout .asm).tags.overflowChannel 0) = true := by
    decide
  have stuck : ∀ fuel probe, splitsies64AtSentinel.findLoop 0 (fun _ => false) fuel 0 probe = none := by
    intro fuel
    induction fuel with
    | zero => exact fun _ => rfl
    | succ fuel ih =>
        intro probe
        rw [findLoop, absent]
        simp only [passed, if_true]
        have same : splitsies64AtSentinel.nextGroup 0 (probe + 1) = 0 := Nat.and_zero _
        rw [same]
        exact ih (probe + 1)
  exact ⟨⟨rfl, rfl, rfl, fun offset inside => if_pos inside⟩, by decide, fun fuel => stuck fuel 0⟩

end RawTable

end Optimap.Overflow
