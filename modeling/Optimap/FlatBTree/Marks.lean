import Optimap.Lib.SortedMap
import Optimap.FlatBTree.Heap

/-!
# The leaf level in key order

Replacing every leaf by its entries turns the leaf level into one list of marks:
the entries of the tree and, between them, the separators of all levels. Searching
and updating the tree are statements about that list alone.
-/

set_option autoImplicit false
set_option linter.unusedSectionVars false

namespace Optimap.FlatBTree

open Lib

variable {K V : Type}

abbrev Mark (K V : Type) := Item (KeyObj K × V) (KeyObj K)

namespace Mark

def object : Mark K V → KeyObj K
  | .node entry => entry.1
  | .sep key => key

@[simp] theorem object_node (entry : KeyObj K × V) : object (.node entry) = entry.1 := rfl

@[simp] theorem object_sep (key : KeyObj K) : object (.sep key : Mark K V) = key := rfl

section Order
variable [LinearOrder K]

/-- The mark stands to the left of a key: a separator may be equal to it. -/
def Below (key : K) : Mark K V → Prop
  | .node entry => entry.1.key < key
  | .sep separator => separator.key ≤ key

def Above (key : K) (mark : Mark K V) : Prop := key < mark.object.key

/-- Entries ascend strictly, and a separator is above what is left of it and not
above what is right of it. -/
def Before (left right : Mark K V) : Prop := Below right.object.key left

def Sorted (marks : List (Mark K V)) : Prop := marks.Pairwise Before

theorem Below.le {key : K} {mark : Mark K V} (below : Below key mark) : mark.object.key ≤ key := by
  cases mark with
  | node entry => exact le_of_lt below
  | sep separator => exact below

theorem Below.mono {key larger : K} {mark : Mark K V} (below : Below key mark) (bound : key ≤ larger) :
    Below larger mark := by
  cases mark with
  | node entry => exact lt_of_lt_of_le below bound
  | sep separator => exact le_trans below bound

theorem Before.trans {left middle right : Mark K V} (first : Before left middle)
    (second : Before middle right) : Before left right :=
  Below.mono first (Below.le second)

variable {lower upper : List (Mark K V)}

theorem Sorted.remove {mark : Mark K V} (sorted : Sorted (lower ++ mark :: upper)) :
    Sorted (lower ++ upper) :=
  List.Pairwise.sublist ((List.sublist_cons_self _ _).append_left _) sorted

/-- Where an entry stands in a sorted list. -/
theorem Sorted.around {entry : KeyObj K × V} (sorted : Sorted (lower ++ .node entry :: upper)) :
    (∀ mark ∈ lower, Below entry.1.key mark) ∧ ∀ mark ∈ upper, Above entry.1.key mark := by
  obtain ⟨_, rest, cross⟩ := List.pairwise_append.mp sorted
  exact ⟨fun mark member => cross mark member _ List.mem_cons_self, (List.pairwise_cons.mp rest).1⟩

theorem Sorted.insert_entry {entry : KeyObj K × V} (sorted : Sorted (lower ++ upper))
    (below : ∀ mark ∈ lower, Below entry.1.key mark) (above : ∀ mark ∈ upper, Above entry.1.key mark) :
    Sorted (lower ++ .node entry :: upper) := by
  obtain ⟨lowerSorted, upperSorted, cross⟩ := List.pairwise_append.mp sorted
  refine List.pairwise_append.mpr ⟨lowerSorted, List.pairwise_cons.mpr ⟨above, upperSorted⟩, ?_⟩
  intro mark member other otherMember
  rcases List.mem_cons.mp otherMember with rfl | otherMember
  · exact below mark member
  · exact cross mark member other otherMember

/-- A clone of an entry's key may stand in front of it. -/
theorem Sorted.insert_sep {entry : KeyObj K × V} {key : KeyObj K} (same : key.key = entry.1.key)
    (sorted : Sorted (lower ++ .node entry :: upper)) :
    Sorted (lower ++ .sep key :: .node entry :: upper) := by
  obtain ⟨below, above⟩ := sorted.around
  obtain ⟨lowerSorted, upperSorted, cross⟩ := List.pairwise_append.mp sorted
  refine List.pairwise_append.mpr ⟨lowerSorted, List.pairwise_cons.mpr ⟨?_, upperSorted⟩, ?_⟩
  · intro mark member
    rcases List.mem_cons.mp member with rfl | member
    · exact same.le
    · exact same.le.trans (le_of_lt (above mark member))
  · intro mark member other otherMember
    rcases List.mem_cons.mp otherMember with rfl | otherMember
    · exact Below.mono (below mark member) same.ge
    · exact cross mark member other otherMember

theorem Sorted.replace_entry {entry other : KeyObj K × V} (same : other.1.key = entry.1.key)
    (sorted : Sorted (lower ++ .node entry :: upper)) : Sorted (lower ++ .node other :: upper) := by
  obtain ⟨below, above⟩ := sorted.around
  refine sorted.remove.insert_entry ?_ ?_
  · rw [same]; exact below
  · rw [same]; exact above

/-- A list that ends in a separator not above `key`. -/
theorem Sorted.below_of_sep {key : KeyObj K} {bound : K} (sorted : Sorted (lower ++ .sep key :: upper))
    (small : key.key ≤ bound) : ∀ mark ∈ lower ++ [.sep key], Below bound mark := by
  intro mark member
  obtain ⟨_, _, cross⟩ := List.pairwise_append.mp sorted
  rcases List.mem_append.mp member with inside | isSep
  · exact Below.mono (cross mark inside _ List.mem_cons_self) small
  · obtain rfl := List.mem_singleton.mp isSep
    exact small

/-- A list that starts with a separator above `key`. -/
theorem Sorted.above_of_sep {key : KeyObj K} {bound : K} (sorted : Sorted (lower ++ .sep key :: upper))
    (large : bound < key.key) : ∀ mark ∈ .sep key :: upper, Above bound mark := by
  intro mark member
  obtain ⟨_, rest, _⟩ := List.pairwise_append.mp sorted
  rcases List.mem_cons.mp member with rfl | inside
  · exact large
  · exact lt_of_lt_of_le large ((List.pairwise_cons.mp rest).1 mark inside)

end Order

end Mark

/-- The key and value pairs among the marks. -/
def contents (marks : List (Mark K V)) : List (K × V) :=
  (Item.nodes marks).map fun entry => (entry.1.key, entry.2)

@[simp] theorem contents_nil : contents ([] : List (Mark K V)) = [] := rfl

@[simp] theorem contents_append (left right : List (Mark K V)) :
    contents (left ++ right) = contents left ++ contents right := by
  simp [contents]

@[simp] theorem contents_node (entry : KeyObj K × V) (marks : List (Mark K V)) :
    contents (.node entry :: marks) = (entry.1.key, entry.2) :: contents marks := rfl

@[simp] theorem contents_sep (key : KeyObj K) (marks : List (Mark K V)) :
    contents (.sep key :: marks) = contents marks := rfl

theorem mem_contents {marks : List (Mark K V)} {entry : K × V} (member : entry ∈ contents marks) :
    ∃ object, .node (object, entry.2) ∈ marks ∧ object.key = entry.1 := by
  obtain ⟨⟨object, value⟩, isNode, rfl⟩ := List.mem_map.mp member
  exact ⟨object, Item.mem_nodes.mp isNode, rfl⟩

section Contents
variable [LinearOrder K] {marks lower upper : List (Mark K V)} {key : K}

theorem Mark.Sorted.ascending (sorted : Mark.Sorted marks) : Ascending (contents marks) := by
  induction marks with
  | nil => exact .nil
  | cons mark marks ih =>
      obtain ⟨first, rest⟩ := List.pairwise_cons.mp sorted
      cases mark with
      | sep key => exact ih rest
      | node entry =>
          refine List.pairwise_cons.mpr ⟨fun other member => ?_, ih rest⟩
          obtain ⟨object, isMark, same⟩ := mem_contents member
          have larger := first _ isMark
          rw [← same]
          exact larger

theorem between_contents (below : ∀ mark ∈ lower, Mark.Below key mark)
    (above : ∀ mark ∈ upper, Mark.Above key mark) : Between key (contents lower) (contents upper) := by
  refine ⟨fun entry member => ?_, fun entry member => ?_⟩
  · obtain ⟨object, isMark, same⟩ := mem_contents member
    rw [← same]
    exact below _ isMark
  · obtain ⟨object, isMark, same⟩ := mem_contents member
    rw [← same]
    exact above _ isMark

end Contents

section Rows
variable {heap heap' : Heap K V}

def entryMarks (heap : Heap K V) : LevelItem K → List (Mark K V)
  | .node idx => (heap idx).entries.map .node
  | .sep key => [.sep key]

def marks (heap : Heap K V) (items : List (LevelItem K)) : List (Mark K V) :=
  items.flatMap (entryMarks heap)

@[simp] theorem marks_nil : marks heap [] = [] := rfl

@[simp] theorem marks_append (left right : List (LevelItem K)) :
    marks heap (left ++ right) = marks heap left ++ marks heap right := by
  simp [marks]

@[simp] theorem marks_node (idx : NodeIdx) (items : List (LevelItem K)) :
    marks heap (.node idx :: items) = (heap idx).entries.map .node ++ marks heap items := rfl

@[simp] theorem marks_sep (key : KeyObj K) (items : List (LevelItem K)) :
    marks heap (.sep key :: items) = .sep key :: marks heap items := rfl

theorem marks_congr {items : List (LevelItem K)}
    (same : ∀ idx ∈ Item.nodes items, (heap' idx).entries = (heap idx).entries) :
    marks heap' items = marks heap items := by
  refine List.flatMap_congr fun item member => ?_
  cases item with
  | sep key => rfl
  | node idx => rw [entryMarks, entryMarks, same idx (Item.mem_nodes.mpr member)]

@[simp] theorem nodes_map_node {α β : Type} (values : List α) :
    Item.nodes (values.map (@Item.node α β)) = values := by
  induction values with
  | nil => rfl
  | cons value values ih => simp [ih]

theorem nodes_marks (items : List (LevelItem K)) :
    Item.nodes (marks heap items) = (Item.nodes items).flatMap fun idx => (heap idx).entries := by
  induction items with
  | nil => rfl
  | cons item items ih => cases item <;> simp [ih]

end Rows

section Ledgers

/-- The identities in the tree are in use once, none of them is dropped, and
neither is anything twice. -/
structure Ledger.Tracks (ledger : Ledger) (ids : List Nat) : Prop where
  nodup : (ids ++ ledger.dropped).Nodup
  bounded : ∀ id ∈ ids ++ ledger.dropped, id < ledger.nextId

def objectIds (marks : List (Mark K V)) : List Nat := marks.map fun mark => mark.object.id

@[simp] theorem objectIds_nil : objectIds ([] : List (Mark K V)) = [] := rfl

@[simp] theorem objectIds_append (left right : List (Mark K V)) :
    objectIds (left ++ right) = objectIds left ++ objectIds right := by
  simp [objectIds]

@[simp] theorem objectIds_cons (mark : Mark K V) (marks : List (Mark K V)) :
    objectIds (mark :: marks) = mark.object.id :: objectIds marks := rfl

namespace Ledger.Tracks

variable {ledger : Ledger} {ids others : List Nat} {id : Nat}

theorem perm (tracks : ledger.Tracks ids) (same : others.Perm ids) : ledger.Tracks others := by
  have full : (others ++ ledger.dropped).Perm (ids ++ ledger.dropped) := same.append_right _
  exact ⟨full.nodup_iff.mpr tracks.nodup, fun id member => tracks.bounded id (full.mem_iff.mp member)⟩

theorem own (tracks : ledger.Tracks ids) :
    Ledger.Tracks { ledger with nextId := ledger.nextId + 1 } (ledger.nextId :: ids) := by
  refine ⟨List.nodup_cons.mpr ⟨fun member => ?_, tracks.nodup⟩, fun id member => ?_⟩
  · exact lt_irrefl _ (tracks.bounded _ member)
  · rcases List.mem_cons.mp member with rfl | member
    · exact Nat.lt_succ_self _
    · exact Nat.lt_succ_of_lt (tracks.bounded id member)

theorem drop (tracks : ledger.Tracks (id :: ids)) :
    Ledger.Tracks { ledger with dropped := id :: ledger.dropped } ids := by
  have moved : (ids ++ id :: ledger.dropped).Perm (id :: ids ++ ledger.dropped) := List.perm_middle
  exact ⟨moved.nodup_iff.mpr tracks.nodup, fun other member => tracks.bounded other (moved.mem_iff.mp member)⟩

/-- An object handed to the caller. -/
theorem release (tracks : ledger.Tracks (id :: ids)) : ledger.Tracks ids :=
  ⟨(List.nodup_cons.mp tracks.nodup).2, fun other member => tracks.bounded other (List.mem_cons_of_mem _ member)⟩

end Ledger.Tracks

end Ledgers

end Optimap.FlatBTree
