import Optimap.FlatBTree.Ownership
import Optimap.FlatBTree.Retain

/-!
# Trees that differ in their key objects

A mirrored tree has the same nodes, with other objects under the same keys. What makes
a tree well formed, and what it contains, only depends on the keys.
-/

set_option autoImplicit false
set_option linter.unusedSectionVars false

namespace Optimap.FlatBTree

open Lib

variable {K V : Type}

/-- The node without the identity of its key objects. -/
structure Mirrors (node copy : Node K V) : Prop where
  isLeaf : copy.isLeaf = node.isLeaf
  parent : copy.parent = node.parent
  prev : copy.prev = node.prev
  next : copy.next = node.next
  children : copy.children = node.children
  keys : copy.keys.map KeyObj.key = node.keys.map KeyObj.key
  entries : pairsOf copy.entries = pairsOf node.entries

theorem Mirrors.refl (node : Node K V) : Mirrors node node := ⟨rfl, rfl, rfl, rfl, rfl, rfl, rfl⟩

theorem Mirrors.keys_length {node copy : Node K V} (mirrors : Mirrors node copy) :
    copy.keys.length = node.keys.length := by
  have lengths := congrArg List.length mirrors.keys
  simpa using lengths

theorem Mirrors.entries_length {node copy : Node K V} (mirrors : Mirrors node copy) :
    copy.entries.length = node.entries.length := by
  have lengths := congrArg List.length mirrors.entries
  simpa [pairsOf] using lengths

/-! ## Rows by their keys -/

/-- A row with the bare keys for its separators. -/
def bareRow : List (LevelItem K) → List (Item NodeIdx K) := List.map (Item.map id KeyObj.key)

def bareMarks : List (Mark K V) → List (Item (K × V) K) :=
  List.map (Item.map (fun entry => (entry.1.key, entry.2)) KeyObj.key)

theorem nodes_bareRow (items : List (LevelItem K)) : Item.nodes (bareRow items) = Item.nodes items := by
  rw [bareRow, Item.nodes_map, List.map_id]

theorem contents_eq_bareMarks (held : List (Mark K V)) : contents held = Item.nodes (bareMarks held) := by
  rw [bareMarks, Item.nodes_map]
  rfl

theorem nodes_eq_of_bareRow {items items' : List (LevelItem K)} (same : bareRow items' = bareRow items) :
    Item.nodes items' = Item.nodes items := by
  rw [← nodes_bareRow items', same, nodes_bareRow]

/-- Replacing the items of rows with the same keys by lists that agree in their images. -/
theorem flatMap_bare {β γ : Type} {image : β → γ} {each each' : LevelItem K → List β} {items : List (LevelItem K)}
    (onNode : ∀ idx ∈ Item.nodes items, (each' (.node idx)).map image = (each (.node idx)).map image)
    (onSep : ∀ key key' : KeyObj K, key'.key = key.key → (each' (.sep key')).map image = (each (.sep key)).map image) :
    ∀ {items' : List (LevelItem K)}, bareRow items' = bareRow items →
      (items'.flatMap each').map image = (items.flatMap each).map image := by
  induction items with
  | nil =>
      intro items' same
      have empty : items' = [] := List.map_eq_nil_iff.mp same
      rw [empty]
      rfl
  | cons item items ih =>
      intro items' same
      obtain ⟨item', rest', rfl, headSame, restSame⟩ := List.map_eq_cons_iff.mp same
      have rest := ih (fun idx member => onNode idx (by cases item <;> simp [member])) restSame
      rw [List.flatMap_cons, List.flatMap_cons, List.map_append, List.map_append, rest]
      cases item with
      | node idx =>
          cases item' with
          | node idx' =>
              obtain rfl : idx' = idx := Item.node.inj headSame
              rw [onNode idx' (by simp)]
          | sep key' => cases headSame
      | sep key =>
          cases item' with
          | node idx' => cases headSame
          | sep key' =>
              have sameKey : key'.key = key.key := Item.sep.inj headSame
              rw [onSep key key' sameKey]

variable {heap heap' : Heap K V} {root : NodeIdx} {depth : Nat}

theorem bareRow_level (mirrors : ∀ idx ∈ above heap root depth, Mirrors (heap idx) (heap' idx)) :
    bareRow (level heap' root depth) = bareRow (level heap root depth) ∧
      above heap' root depth = above heap root depth := by
  induction depth with
  | zero => exact ⟨rfl, rfl⟩
  | succ depth ih =>
      obtain ⟨sameRow, sameAbove⟩ := ih fun idx member => mirrors idx (List.mem_append_left _ member)
      constructor
      · refine flatMap_bare (fun idx member => ?_) (fun key key' same => ?_) sameRow
        · have mirror := mirrors idx (List.mem_append_right _ member)
          rw [expand, expand, Item.row_map, Item.row_map, mirror.children, mirror.keys]
        · rw [expand, expand, List.map_cons, List.map_cons, Item.map, Item.map, same]
      · rw [above, above, sameAbove, nodes_eq_of_bareRow sameRow]

theorem bareMarks_marks {items items' : List (LevelItem K)} (same : bareRow items' = bareRow items)
    (mirrors : ∀ idx ∈ Item.nodes items, Mirrors (heap idx) (heap' idx)) :
    bareMarks (marks heap' items') = bareMarks (marks heap items) := by
  refine flatMap_bare (fun idx member => ?_) (fun key key' sameKey => ?_) same
  · have entries := congrArg (List.map (@Item.node _ K)) (mirrors idx member).entries
    simpa [entryMarks, pairsOf, Item.map, Function.comp_def] using entries
  · rw [entryMarks, entryMarks, List.map_cons, List.map_cons, Item.map, Item.map, sameKey]

theorem Crown.mirror {layout : NodeLayout} (crown : Crown heap root layout depth)
    (mirrors : ∀ idx ∈ above heap root depth ++ Item.nodes (level heap root depth), Mirrors (heap idx) (heap' idx)) :
    Crown heap' root layout depth := by
  induction depth with
  | zero =>
      have rootMirror := mirrors root (by simp [above, level])
      exact rootMirror.parent.trans crown
  | succ depth ih =>
      have upper : ∀ idx ∈ above heap root depth ++ Item.nodes (level heap root depth), Mirrors (heap idx) (heap' idx) :=
        fun idx member => mirrors idx (List.mem_append_left _ member)
      refine ⟨ih crown.1 upper, fun idx member => ?_⟩
      rw [nodes_eq_of_bareRow (bareRow_level fun other inside => upper other (List.mem_append_left _ inside)).1] at member
      have old := crown.2 idx member
      have mirror := upper idx (List.mem_append_right _ member)
      refine ⟨mirror.isLeaf.trans old.internal, ?_, ?_, ?_, fun child isChild => ?_⟩
      · rw [mirror.children, mirror.keys_length]
        exact old.paired
      · rw [mirror.keys_length]
        exact old.nonempty
      · rw [mirror.keys_length]
        exact old.fits
      · rw [mirror.children] at isChild
        have below := mirrors child (List.mem_append_right _ (crown.child_mem member isChild))
        exact below.parent.trans (old.parents child isChild)

section Order
variable [LinearOrder K]

/-- `Mark.Before` in terms of the keys. -/
def bareBefore : Item (K × V) K → Item (K × V) K → Prop
  | .node lower, .node upper => lower.1 < upper.1
  | .node lower, .sep upper => lower.1 < upper
  | .sep lower, .node upper => lower ≤ upper.1
  | .sep lower, .sep upper => lower ≤ upper

theorem sorted_iff_bareMarks (held : List (Mark K V)) : Mark.Sorted held ↔ (bareMarks held).Pairwise bareBefore := by
  have before : ∀ lower upper : Mark K V, Mark.Before lower upper ↔
      bareBefore (Item.map (fun entry => (entry.1.key, entry.2)) KeyObj.key lower)
        (Item.map (fun entry => (entry.1.key, entry.2)) KeyObj.key upper) := by
    intro lower upper
    cases lower <;> cases upper <;> exact Iff.rfl
  rw [Mark.Sorted, bareMarks, List.pairwise_map]
  exact List.Pairwise.iff (fun {lower upper} => before lower upper)

/-- A tree that mirrors another one node by node. -/
structure MirrorOf (tree copy : RawBTree K V) : Prop where
  root : copy.root = tree.root
  firstLeaf : copy.firstLeaf = tree.firstLeaf
  lastLeaf : copy.lastLeaf = tree.lastLeaf
  len : copy.len = tree.len
  height : copy.height = tree.height
  arenaLen : copy.arena.len = tree.arena.len
  free : copy.arena.free = tree.arena.free
  nodes : ∀ idx < tree.arena.len, Mirrors (tree.node idx) (copy.node idx)

variable {layout : NodeLayout} {tree copy : RawBTree K V} {root : NodeIdx} {items : List (LevelItem K)}

theorem Rooted.mirror (mirror : MirrorOf tree copy) (rooted : Rooted layout tree root items) :
    ∃ items', Rooted layout copy root items' ∧ bareRow items' = bareRow items ∧
      bareMarks (marks copy.node items') = bareMarks (marks tree.node items) ∧
      above copy.node root tree.height = above tree.node root tree.height := by
  have crownAt := rooted.crownAt
  have inArena : ∀ idx ∈ above tree.node root tree.height ++ Item.nodes items, idx < tree.arena.len := by
    intro idx member
    exact crownAt.owned.bounded idx (List.mem_append_left _ (List.mem_append_left _ member))
  have mirrors : ∀ idx ∈ above tree.node root tree.height ++ Item.nodes items,
      Mirrors (tree.node idx) (copy.node idx) := fun idx member => mirror.nodes idx (inArena idx member)
  obtain ⟨sameRow, sameAbove⟩ := bareRow_level fun idx member => mirrors idx (List.mem_append_left _ member)
  rw [crownAt.level_eq] at sameRow
  have sameNodes := nodes_eq_of_bareRow sameRow
  have leafMirrors : ∀ idx ∈ Item.nodes items, Mirrors (tree.node idx) (copy.node idx) :=
    fun idx member => mirrors idx (List.mem_append_right _ member)
  have sameMarks := bareMarks_marks sameRow leafMirrors
  refine ⟨level copy.node root tree.height, ⟨?_, ?_⟩, sameRow, sameMarks, sameAbove⟩
  · constructor
    · exact mirror.root.trans crownAt.root_eq
    · rw [mirror.height]
      refine crownAt.crown.mirror ?_
      rw [crownAt.level_eq]
      exact mirrors
    · rw [mirror.height]
    · rw [mirror.height, sameAbove, sameNodes]
      exact crownAt.owned.of_same mirror.free mirror.arenaLen
  · have row := rooted.row
    constructor
    · rw [sameNodes]
      exact fun idx member => (leafMirrors idx member).isLeaf.trans (row.leaf idx member)
    · rw [sameNodes]
      intro idx member
      rw [(leafMirrors idx member).entries_length]
      exact row.fits idx member
    · rw [sameNodes]
      exact row.linked.congr (fun idx member => (leafMirrors idx member).prev)
        fun idx member => (leafMirrors idx member).next
    · rw [sameNodes]
      exact mirror.firstLeaf.trans row.first
    · rw [sameNodes]
      exact mirror.lastLeaf.trans row.last
    · rw [sorted_iff_bareMarks, sameMarks, ← sorted_iff_bareMarks]
      exact row.sorted
    · have lengths := congrArg List.length (congrArg Item.nodes sameMarks)
      rw [← contents_eq_bareMarks, ← contents_eq_bareMarks, contents, contents, List.length_map,
        List.length_map] at lengths
      rw [mirror.len, row.len, lengths]

end Order

end Optimap.FlatBTree
