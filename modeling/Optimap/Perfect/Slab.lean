import Optimap.Hash.Components
import Optimap.Lib.Placement
import Optimap.Perfect.Phf

/-!
# Tagged buckets

Sixteen slots to a bucket, one tag byte a slot, and an entry array that is only
initialised where the tag is not zero. A lookup scans the tags of one bucket and
compares the entries behind the matching ones.
-/

set_option autoImplicit false
set_option linter.unusedSectionVars false

namespace Optimap.Perfect

open Lib Hash

def SLOTS_PER_BUCKET : Nat := 16

/-- Tag slabs and entries of one level. An entry that is `none` is uninitialised. -/
structure Slab (α : Type) where
  tags : List (List UInt8)
  entries : List (Option α)

namespace Slab

variable {α : Type}

/-- `r` buckets with empty tags and uninitialised entries. -/
def uninit (r : Nat) : Slab α where
  tags := List.replicate r (List.replicate SLOTS_PER_BUCKET 0)
  entries := List.replicate (r * SLOTS_PER_BUCKET) none

/-- Write tag and entry of a slot. -/
def write (slab : Slab α) (bucket slot : Nat) (tag : UInt8) (item : α) : Except Fault (Slab α) :=
  match slab.tags[bucket]? with
  | none => .error .indexOutOfBounds
  | some bucketTags =>
      if slot < bucketTags.length ∧ bucket * SLOTS_PER_BUCKET + slot < slab.entries.length then
        .ok { tags := slab.tags.set bucket (bucketTags.set slot tag)
              entries := slab.entries.set (bucket * SLOTS_PER_BUCKET + slot) (some item) }
      else .error .indexOutOfBounds

/-- `get_unchecked(base + slot).assume_init_ref()`. -/
def entryAt (slab : Slab α) (bucket slot : Nat) : Except Fault α :=
  match slab.entries[bucket * SLOTS_PER_BUCKET + slot]? with
  | some (some entry) => .ok entry
  | _ => .error .invalidRead

/-- `match_byte_full_16`: the slots of a bucket with the tag. -/
def matchByteFull16 (bucketTags : List UInt8) (tag : UInt8) : List Nat :=
  (List.range SLOTS_PER_BUCKET).filter fun slot => bucketTags[slot]? == some tag

/-- Compare the entries behind a mask. -/
def scan (slab : Slab α) (bucket : Nat) (isQuery : α → Bool) : List Nat → Except Fault (Option α)
  | [] => .ok none
  | slot :: mask => do
      let entry ← slab.entryAt bucket slot
      if isQuery entry then return some entry
      scan slab bucket isQuery mask

def find (slab : Slab α) (bucket : Nat) (tag : UInt8) (isQuery : α → Bool) : Except Fault (Option α) :=
  match slab.tags[bucket]? with
  | none => .error .invalidRead
  | some bucketTags => slab.scan bucket isQuery (matchByteFull16 bucketTags tag)

/-- The slots whose tag is not zero, bucket after bucket. -/
def tagged (slab : Slab α) : List (Nat × Nat) :=
  (List.range slab.tags.length).flatMap fun bucket =>
    ((List.range SLOTS_PER_BUCKET).filter fun slot =>
      (slab.tags.getD bucket []).getD slot 0 ≠ 0).map fun slot => (bucket, slot)

def readAll (slab : Slab α) : List (Nat × Nat) → Except Fault (List α)
  | [] => .ok []
  | (bucket, slot) :: slots => do
      let entry ← slab.entryAt bucket slot
      let entries ← readAll slab slots
      return entry :: entries

def iter (slab : Slab α) : Except Fault (List α) := slab.readAll slab.tagged

/-- Tag and entry of a slot, for the slots of the slab. -/
def cell (slab : Slab α) (position : Nat × Nat) : Option (UInt8 × Option α) :=
  if position.2 < SLOTS_PER_BUCKET then
    slab.tags[position.1]?.bind fun bucketTags => bucketTags[position.2]?.bind fun tag =>
      slab.entries[position.1 * SLOTS_PER_BUCKET + position.2]?.map fun entry => (tag, entry)
  else none

theorem cell_eq_some {slab : Slab α} {bucket slot : Nat} {tag : UInt8} {entry : Option α} :
    slab.cell (bucket, slot) = some (tag, entry) ↔ slot < SLOTS_PER_BUCKET ∧
      (∃ bucketTags, slab.tags[bucket]? = some bucketTags ∧ bucketTags[slot]? = some tag) ∧
      slab.entries[bucket * SLOTS_PER_BUCKET + slot]? = some entry := by
  unfold cell
  by_cases inside : slot < SLOTS_PER_BUCKET
  · simp only [inside, if_true, Option.bind_eq_some_iff, Option.map_eq_some_iff, Prod.mk.injEq, true_and]
    constructor
    · rintro ⟨bucketTags, found, other, foundTag, stored, foundEntry, rfl, rfl⟩
      exact ⟨⟨bucketTags, found, foundTag⟩, foundEntry⟩
    · rintro ⟨⟨bucketTags, found, foundTag⟩, foundEntry⟩
      exact ⟨bucketTags, found, tag, foundTag, entry, foundEntry, rfl, rfl⟩
  · simp [inside]

/-- The slab as a memory of its slots. -/
def memory (α : Type) : Memory (Slab α) (Nat × Nat) (UInt8 × Option α) where
  read := cell
  write slab position item :=
    { tags := slab.tags.modify position.1 fun bucketTags => bucketTags.set position.2 item.1
      entries := slab.entries.set (position.1 * SLOTS_PER_BUCKET + position.2) item.2 }
  read_write := by
    intro slab position isSome item other
    obtain ⟨bucket, slot⟩ := position
    obtain ⟨otherBucket, otherSlot⟩ := other
    obtain ⟨⟨oldTag, oldEntry⟩, found⟩ := Option.isSome_iff_exists.mp isSome
    obtain ⟨inside, ⟨bucketTags, tagsFound, tagFound⟩, entryFound⟩ := cell_eq_some.mp found
    have slotBound := (List.getElem?_eq_some_iff.mp tagFound).1
    have entryBound := (List.getElem?_eq_some_iff.mp entryFound).1
    by_cases same : (otherBucket, otherSlot) = (bucket, slot)
    · cases same
      rw [if_pos rfl]
      refine cell_eq_some.mpr ⟨inside, ⟨bucketTags.set slot item.1, ?_, ?_⟩, ?_⟩
      · simp [tagsFound]
      · simp [slotBound]
      · simp [entryBound]
    · rw [if_neg same]
      unfold cell
      by_cases otherInside : otherSlot < SLOTS_PER_BUCKET
      · have apart : bucket * SLOTS_PER_BUCKET + slot ≠ otherBucket * SLOTS_PER_BUCKET + otherSlot := by
          intro equal
          obtain ⟨rfl, rfl⟩ := strided_inj inside otherInside equal
          exact same rfl
        simp only [otherInside, if_true, List.getElem?_set_ne apart, List.getElem?_modify]
        by_cases sameBucket : bucket = otherBucket
        · subst sameBucket
          have otherSlotNe : slot ≠ otherSlot := by
            rintro rfl
            exact same rfl
          simp [tagsFound, List.getElem?_set_ne otherSlotNe]
        · simp [sameBucket]
      · simp [otherInside]

theorem write_eq {slab : Slab α} {bucket slot : Nat} {tag : UInt8} {item : α}
    (inside : (slab.cell (bucket, slot)).isSome) :
    slab.write bucket slot tag item = .ok ((memory α).write slab (bucket, slot) (tag, some item)) := by
  obtain ⟨⟨oldTag, oldEntry⟩, found⟩ := Option.isSome_iff_exists.mp inside
  obtain ⟨_, ⟨bucketTags, tagsFound, tagFound⟩, entryFound⟩ := cell_eq_some.mp found
  have slotBound := (List.getElem?_eq_some_iff.mp tagFound).1
  have entryBound := (List.getElem?_eq_some_iff.mp entryFound).1
  obtain ⟨bucketBound, rfl⟩ := List.getElem?_eq_some_iff.mp tagsFound
  have modified : slab.tags.modify bucket (fun bucketTags => bucketTags.set slot tag) =
      slab.tags.set bucket (slab.tags[bucket].set slot tag) := by
    apply List.ext_getElem?
    intro other
    rw [List.getElem?_modify, List.getElem?_set]
    by_cases same : bucket = other
    · subst same
      simp [bucketBound]
    · simp [same]
  simp only [write, tagsFound, if_pos (And.intro slotBound entryBound), memory, modified]

/-- The slab holds the written items in their slots and nothing else. -/
structure Holds (slab : Slab α) (r : Nat) (writes : List ((Nat × Nat) × UInt8 × α)) : Prop where
  rows : slab.tags.length = r
  total : ∀ bucket < r, ∀ slot < SLOTS_PER_BUCKET, (slab.cell (bucket, slot)).isSome
  written : ∀ position tag item,
    slab.cell position = some (tag, some item) ↔ (position, tag, item) ∈ writes
  blank : ∀ position tag, slab.cell position = some (tag, none) → tag = 0

theorem uninit_cell {r bucket slot : Nat} (bucketBound : bucket < r) (slotBound : slot < SLOTS_PER_BUCKET) :
    (uninit r : Slab α).cell (bucket, slot) = some (0, none) := by
  refine cell_eq_some.mpr ⟨slotBound, ⟨List.replicate SLOTS_PER_BUCKET 0, ?_, ?_⟩, ?_⟩
  · simp [uninit, bucketBound]
  · simp [slotBound]
  · have below : bucket * SLOTS_PER_BUCKET + slot < r * SLOTS_PER_BUCKET := by
      have room := strided_lt slotBound (Nat.le_pred_of_lt bucketBound)
      rwa [Nat.pred_eq_sub_one, Nat.sub_add_cancel (by omega)] at room
    simp [uninit, below]

theorem uninit_cell_some {r : Nat} {position : Nat × Nat} {cell : UInt8 × Option α}
    (found : (uninit r : Slab α).cell position = some cell) : cell = (0, none) := by
  obtain ⟨bucket, slot⟩ := position
  obtain ⟨tag, entry⟩ := cell
  obtain ⟨slotBound, ⟨bucketTags, tagsFound, _⟩, _⟩ := cell_eq_some.mp found
  have bucketBound : bucket < r := by
    have bound := (List.getElem?_eq_some_iff.mp tagsFound).1
    simpa [uninit] using bound
  rw [uninit_cell bucketBound slotBound] at found
  exact (Option.some.inj found).symm

theorem writeAll_rows (writes : List ((Nat × Nat) × UInt8 × Option α)) (slab : Slab α) :
    ((memory α).writeAll slab writes).tags.length = slab.tags.length := by
  induction writes generalizing slab with
  | nil => rfl
  | cons entry writes ih =>
      have step := ih ((memory α).write slab entry.1 entry.2)
      have kept : ((memory α).write slab entry.1 entry.2).tags.length = slab.tags.length :=
        List.length_modify _ _ _
      exact step.trans kept

/-- The slots of a list of writes, as the memory takes them. -/
def initialised (writes : List ((Nat × Nat) × UInt8 × α)) : List ((Nat × Nat) × UInt8 × Option α) :=
  writes.map fun entry => (entry.1, entry.2.1, some entry.2.2)

theorem writeAll_holds {r : Nat} {writes : List ((Nat × Nat) × UInt8 × α)}
    (nodup : (writes.map Prod.fst).Nodup)
    (inside : ∀ entry ∈ writes, entry.1.1 < r ∧ entry.1.2 < SLOTS_PER_BUCKET) :
    Holds ((memory α).writeAll (uninit r) (initialised writes)) r writes := by
  have positions : (initialised writes).map Prod.fst = writes.map Prod.fst := by
    rw [initialised, List.map_map]
    rfl
  have read := (memory α).read_writeAll (uninit r) (positions ▸ nodup) (fun entry member => by
    obtain ⟨other, otherMember, rfl⟩ := List.mem_map.mp member
    obtain ⟨bucketBound, slotBound⟩ := inside other otherMember
    exact Option.isSome_iff_exists.mpr ⟨_, uninit_cell bucketBound slotBound⟩)
  have stored : ∀ position tag entry,
      ((memory α).writeAll (uninit r) (initialised writes)).cell position = some (tag, entry) ↔
        (position, tag, entry) ∈ initialised writes ∨
          ((uninit r : Slab α).cell position = some (tag, entry) ∧ position ∉ writes.map Prod.fst) := by
    intro position tag entry
    have iff := read position (tag, entry)
    rw [positions] at iff
    exact iff
  refine ⟨?_, ?_, ?_, ?_⟩
  · rw [writeAll_rows]
    exact List.length_replicate
  · intro bucket bucketBound slot slotBound
    rw [Option.isSome_iff_exists]
    by_cases hit : (bucket, slot) ∈ writes.map Prod.fst
    · obtain ⟨⟨position, tag, item⟩, member, rfl⟩ := List.mem_map.mp hit
      exact ⟨(tag, some item), (stored _ _ _).mpr (.inl (List.mem_map.mpr ⟨_, member, rfl⟩))⟩
    · exact ⟨(0, none), (stored _ _ _).mpr (.inr ⟨uninit_cell bucketBound slotBound, hit⟩)⟩
  · intro position tag item
    rw [stored]
    constructor
    · rintro (member | ⟨initial, _⟩)
      · obtain ⟨⟨other, otherTag, otherItem⟩, otherMember, same⟩ := List.mem_map.mp member
        cases same
        exact otherMember
      · cases uninit_cell_some initial
    · intro member
      exact .inl (List.mem_map.mpr ⟨_, member, rfl⟩)
  · intro position tag found
    rcases (stored _ _ _).mp found with member | ⟨initial, _⟩
    · obtain ⟨_, _, same⟩ := List.mem_map.mp member
      cases same
    · cases uninit_cell_some initial
      rfl

namespace Holds

variable {slab : Slab α} {r : Nat} {writes : List ((Nat × Nat) × UInt8 × α)}

/-- Behind a tag that is not zero there is an initialised entry. -/
theorem entry_of_tag (holds : Holds slab r writes) {bucket slot : Nat} {tag : UInt8} (nonzero : tag ≠ 0)
    (bucketBound : bucket < r) (slotBound : slot < SLOTS_PER_BUCKET)
    (found : (slab.tags.getD bucket [])[slot]? = some tag) :
    ∃ item, ((bucket, slot), tag, item) ∈ writes ∧ slab.entryAt bucket slot = .ok item := by
  obtain ⟨⟨other, entry⟩, cell⟩ :=
    Option.isSome_iff_exists.mp (holds.total bucket bucketBound slot slotBound)
  obtain ⟨_, ⟨bucketTags, tagsFound, tagFound⟩, entryFound⟩ := cell_eq_some.mp cell
  rw [List.getD_eq_getElem?_getD, tagsFound, Option.getD_some, tagFound] at found
  cases found
  cases entry with
  | none => exact absurd (holds.blank _ _ cell) nonzero
  | some item =>
      refine ⟨item, (holds.written _ _ _).mp cell, ?_⟩
      simp [entryAt, entryFound]

theorem tag_of_write (holds : Holds slab r writes) {bucket slot : Nat} {tag : UInt8} {item : α}
    (member : ((bucket, slot), tag, item) ∈ writes) :
    bucket < r ∧ slot < SLOTS_PER_BUCKET ∧ (slab.tags.getD bucket [])[slot]? = some tag ∧
      slab.entryAt bucket slot = .ok item := by
  have cell := (holds.written _ _ _).mpr member
  obtain ⟨slotBound, ⟨bucketTags, tagsFound, tagFound⟩, entryFound⟩ := cell_eq_some.mp cell
  have bucketBound := (List.getElem?_eq_some_iff.mp tagsFound).1
  rw [holds.rows] at bucketBound
  refine ⟨bucketBound, slotBound, ?_, ?_⟩
  · rw [List.getD_eq_getElem?_getD, tagsFound]
    exact tagFound
  · simp [entryAt, entryFound]

theorem scan_answers (slab : Slab α) {bucket : Nat} {isQuery : α → Bool} {mask : List Nat}
    (readable : ∀ slot ∈ mask, ∃ item, slab.entryAt bucket slot = .ok item) :
    ∃ answer, slab.scan bucket isQuery mask = .ok answer ∧
      (∀ item, answer = some item → isQuery item = true ∧
        ∃ slot ∈ mask, slab.entryAt bucket slot = .ok item) ∧
      (answer = none → ∀ slot ∈ mask, ∀ item, slab.entryAt bucket slot = .ok item → isQuery item = false) := by
  induction mask with
  | nil => exact ⟨none, rfl, by simp, by simp⟩
  | cons slot mask ih =>
      obtain ⟨item, read⟩ := readable slot List.mem_cons_self
      by_cases query : isQuery item = true
      · refine ⟨some item, by simp [scan, read, query, bind, Except.bind, pure, Except.pure], ?_, by simp⟩
        rintro other ⟨⟩
        exact ⟨query, slot, List.mem_cons_self, read⟩
      · obtain ⟨answer, scanned, found, missed⟩ := ih fun other member =>
          readable other (List.mem_cons_of_mem _ member)
        refine ⟨answer, by simp [scan, read, query, scanned, bind, Except.bind], fun other equal => ?_,
          fun none other member => ?_⟩
        · obtain ⟨isIt, place, member, entry⟩ := found other equal
          exact ⟨isIt, place, List.mem_cons_of_mem _ member, entry⟩
        · rcases List.mem_cons.mp member with rfl | later
          · intro stored same
            rw [read, Except.ok.injEq] at same
            exact same ▸ (Bool.not_eq_true _ ▸ query)
          · exact missed none other later

/-- A lookup answers with an item of the bucket that is the query, if one has the tag. -/
theorem find_answers (holds : Holds slab r writes) {bucket : Nat} {tag : UInt8} {isQuery : α → Bool}
    (bucketBound : bucket < r) (nonzero : tag ≠ 0) :
    ∃ answer, slab.find bucket tag isQuery = .ok answer ∧
      (∀ item, answer = some item → isQuery item = true ∧ ∃ position, (position, tag, item) ∈ writes) ∧
      (answer = none → ∀ slot item, ((bucket, slot), tag, item) ∈ writes → isQuery item = false) := by
  have rowBound : bucket < slab.tags.length := holds.rows ▸ bucketBound
  have row : slab.tags[bucket]? = some (slab.tags.getD bucket []) := by
    rw [List.getD_eq_getElem?_getD, List.getElem?_eq_getElem rowBound]
    rfl
  have masked : ∀ slot, slot ∈ matchByteFull16 (slab.tags.getD bucket []) tag ↔
      slot < SLOTS_PER_BUCKET ∧ (slab.tags.getD bucket [])[slot]? = some tag := by
    intro slot
    simp [matchByteFull16]
  obtain ⟨answer, scanned, found, missed⟩ := @scan_answers _ slab bucket isQuery _ fun slot member => by
    obtain ⟨slotBound, tagFound⟩ := (masked slot).mp member
    obtain ⟨item, _, read⟩ := holds.entry_of_tag nonzero bucketBound slotBound tagFound
    exact ⟨item, read⟩
  refine ⟨answer, by simp only [find, row, scanned], fun item equal => ?_, fun none slot item member => ?_⟩
  · obtain ⟨query, slot, member, read⟩ := found item equal
    obtain ⟨slotBound, tagFound⟩ := (masked slot).mp member
    obtain ⟨stored, written, readStored⟩ := holds.entry_of_tag nonzero bucketBound slotBound tagFound
    rw [read, Except.ok.injEq] at readStored
    exact ⟨query, (bucket, slot), readStored ▸ written⟩
  · obtain ⟨_, slotBound, tagFound, read⟩ := holds.tag_of_write member
    exact missed none slot ((masked slot).mpr ⟨slotBound, tagFound⟩) item read

theorem mem_tagged (holds : Holds slab r writes) (nonzero : ∀ entry ∈ writes, entry.2.1 ≠ 0)
    (bucket slot : Nat) :
    (bucket, slot) ∈ slab.tagged ↔ ∃ tag item, ((bucket, slot), tag, item) ∈ writes := by
  have expand : (bucket, slot) ∈ slab.tagged ↔ bucket < slab.tags.length ∧ slot < SLOTS_PER_BUCKET ∧
      (slab.tags.getD bucket []).getD slot 0 ≠ 0 := by
    simp [tagged]
  rw [expand, holds.rows]
  constructor
  · rintro ⟨bucketBound, slotBound, tagNonzero⟩
    cases tagFound : (slab.tags.getD bucket [])[slot]? with
    | none =>
        rw [List.getD_eq_getElem?_getD, tagFound] at tagNonzero
        exact absurd rfl tagNonzero
    | some tag =>
        rw [List.getD_eq_getElem?_getD, tagFound, Option.getD_some] at tagNonzero
        obtain ⟨item, member, _⟩ := holds.entry_of_tag tagNonzero bucketBound slotBound tagFound
        exact ⟨tag, item, member⟩
  · rintro ⟨tag, item, member⟩
    obtain ⟨bucketBound, slotBound, tagFound, _⟩ := holds.tag_of_write member
    refine ⟨bucketBound, slotBound, ?_⟩
    rw [List.getD_eq_getElem?_getD, tagFound, Option.getD_some]
    exact nonzero _ member

end Holds

theorem tagged_nodup (slab : Slab α) : slab.tagged.Nodup := by
  rw [tagged, List.nodup_flatMap]
  constructor
  · intro bucket _
    exact (List.nodup_range.filter _).map fun first second same => (Prod.mk.inj same).2
  · refine List.nodup_range.imp fun {first second} different => ?_
    intro position inFirst inSecond
    obtain ⟨_, _, rfl⟩ := List.mem_map.mp inFirst
    obtain ⟨_, _, same⟩ := List.mem_map.mp inSecond
    exact different (Prod.mk.inj same).1.symm

/-- Readable slots are read one by one. -/
theorem readAll_ok {slab : Slab α} {slots : List (Nat × Nat)}
    (readable : ∀ position ∈ slots, ∃ item, slab.entryAt position.1 position.2 = .ok item) :
    slab.readAll slots = .ok (slots.filterMap fun position => (slab.entryAt position.1 position.2).toOption) := by
  induction slots with
  | nil => rfl
  | cons position slots ih =>
      obtain ⟨bucket, slot⟩ := position
      obtain ⟨item, read⟩ := readable (bucket, slot) List.mem_cons_self
      have rest := ih fun other member => readable other (List.mem_cons_of_mem _ member)
      simp only at read
      simp [readAll, read, rest, bind, Except.bind, pure, Except.pure, Except.toOption]

/-- Iteration lists the written items. -/
theorem Holds.iter_perm {slab : Slab α} {r : Nat} {writes : List ((Nat × Nat) × UInt8 × α)}
    (holds : Holds slab r writes) (nonzero : ∀ entry ∈ writes, entry.2.1 ≠ 0)
    (unique : (writes.map fun entry => entry.2.2).Nodup) :
    ∃ listed, slab.iter = .ok listed ∧ listed.Perm (writes.map fun entry => entry.2.2) := by
  have reads : ∀ position ∈ slab.tagged, ∃ tag item, (position, tag, item) ∈ writes ∧
      slab.entryAt position.1 position.2 = .ok item := by
    rintro ⟨bucket, slot⟩ member
    obtain ⟨tag, item, written⟩ := (holds.mem_tagged nonzero bucket slot).mp member
    exact ⟨tag, item, written, (holds.tag_of_write written).2.2.2⟩
  refine ⟨_, readAll_ok fun position member => ?_, ?_⟩
  · obtain ⟨_, item, _, read⟩ := reads position member
    exact ⟨item, read⟩
  · rw [List.perm_ext_iff_of_nodup _ unique]
    · intro item
      simp only [List.mem_filterMap, List.mem_map]
      constructor
      · rintro ⟨position, member, read⟩
        obtain ⟨tag, stored, written, readStored⟩ := reads position member
        rw [readStored] at read
        cases read
        exact ⟨_, written, rfl⟩
      · rintro ⟨⟨⟨bucket, slot⟩, tag, stored⟩, written, rfl⟩
        refine ⟨(bucket, slot), (holds.mem_tagged nonzero bucket slot).mpr ⟨tag, stored, written⟩, ?_⟩
        rw [(holds.tag_of_write written).2.2.2]
        rfl
    · rw [List.Nodup, List.pairwise_filterMap]
      refine (tagged_nodup slab).imp_of_mem fun {first second} inFirst inSecond different => ?_
      intro item readFirst other readSecond same
      obtain ⟨firstTag, firstItem, firstWritten, firstRead⟩ := reads first inFirst
      obtain ⟨secondTag, secondItem, secondWritten, secondRead⟩ := reads second inSecond
      rw [firstRead] at readFirst
      rw [secondRead] at readSecond
      cases readFirst
      cases readSecond
      have equal := List.inj_on_of_nodup_map unique firstWritten secondWritten same
      exact different (Prod.mk.inj equal).1

/-- In every slot the tag is not zero exactly when the entry is initialised. -/
def TagsMatch (slab : Slab α) : Prop :=
  ∀ bucket < slab.tags.length, ∀ slot < SLOTS_PER_BUCKET,
    ∃ tag entry, slab.cell (bucket, slot) = some (tag, entry) ∧ (tag ≠ 0 ↔ entry.isSome)

theorem Holds.tagsMatch {slab : Slab α} {r : Nat} {writes : List ((Nat × Nat) × UInt8 × α)}
    (holds : Holds slab r writes) (nonzero : ∀ entry ∈ writes, entry.2.1 ≠ 0) : slab.TagsMatch := by
  intro bucket bucketBound slot slotBound
  obtain ⟨⟨tag, entry⟩, found⟩ :=
    Option.isSome_iff_exists.mp (holds.total bucket (holds.rows ▸ bucketBound) slot slotBound)
  refine ⟨tag, entry, found, ?_⟩
  cases entry with
  | none => simp [holds.blank _ _ found]
  | some item =>
      have written := (holds.written _ _ _).mp found
      simpa using nonzero _ written

end Slab

end Optimap.Perfect
