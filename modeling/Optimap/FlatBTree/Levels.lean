import Optimap.Lib.Interleave
import Optimap.FlatBTree.RawBTree

/-!
# Levels of the tree

Level `depth` of a tree, read from left to right, is a row of nodes and
separators; the level below replaces each node by its own row. The crown of depth
`depth` is everything above a level: it is well formed whatever the nodes of that
level hold, so an operation that works its way up can leave them unfinished.
-/

set_option autoImplicit false
set_option linter.unusedSectionVars false

namespace Optimap.FlatBTree

open Lib

variable {K V : Type}

abbrev Heap (K V : Type) := NodeIdx → Node K V

abbrev LevelItem (K : Type) := Item NodeIdx (KeyObj K)

section Levels
variable (heap : Heap K V) (root : NodeIdx)

def expand : LevelItem K → List (LevelItem K)
  | .node idx => Item.row (heap idx).children (heap idx).keys
  | .sep key => [.sep key]

def level : Nat → List (LevelItem K)
  | 0 => [.node root]
  | depth + 1 => (level depth).flatMap (expand heap)

/-- The nodes strictly above a level. -/
def above : Nat → List NodeIdx
  | 0 => []
  | depth + 1 => above depth ++ Item.nodes (level heap root depth)

structure InternalOk (layout : NodeLayout) (idx : NodeIdx) : Prop where
  internal : (heap idx).isLeaf = false
  paired : (heap idx).children.length = (heap idx).keys.length + 1
  nonempty : 1 ≤ (heap idx).keys.length
  fits : (heap idx).keys.length ≤ layout.internalCap
  parents : ∀ child ∈ (heap idx).children, (heap child).parent = some idx

def Crown (layout : NodeLayout) : Nat → Prop
  | 0 => (heap root).parent = none
  | depth + 1 => Crown layout depth ∧
      ∀ idx ∈ Item.nodes (level heap root depth), InternalOk heap layout idx

end Levels

variable {heap heap' : Heap K V} {root : NodeIdx} {layout : NodeLayout} {depth : Nat}

theorem expand_congr {idx : NodeIdx} (same : heap' idx = heap idx) :
    expand heap' (.node idx) = expand heap (.node idx) := by
  simp [expand, same]

theorem flatMap_expand_congr {items : List (LevelItem K)}
    (same : ∀ idx ∈ Item.nodes items, heap' idx = heap idx) :
    items.flatMap (expand heap') = items.flatMap (expand heap) := by
  refine List.flatMap_congr fun item member => ?_
  cases item with
  | sep key => rfl
  | node idx => exact expand_congr (same idx (Item.mem_nodes.mpr member))

theorem level_above_congr (same : ∀ idx ∈ above heap root depth, heap' idx = heap idx) :
    level heap' root depth = level heap root depth ∧ above heap' root depth = above heap root depth := by
  induction depth with
  | zero => exact ⟨rfl, rfl⟩
  | succ depth ih =>
      obtain ⟨sameLevel, sameAbove⟩ := ih fun idx member => same idx (List.mem_append_left _ member)
      refine ⟨?_, ?_⟩
      · rw [level, level, sameLevel]
        exact flatMap_expand_congr fun idx member => same idx (List.mem_append_right _ member)
      · rw [above, above, sameLevel, sameAbove]

theorem nodes_expand {items : List (LevelItem K)}
    (paired : ∀ idx ∈ Item.nodes items, (heap idx).children.length = (heap idx).keys.length + 1) :
    Item.nodes (items.flatMap (expand heap)) =
      (Item.nodes items).flatMap fun idx => (heap idx).children := by
  induction items with
  | nil => rfl
  | cons item items ih =>
      cases item with
      | sep key =>
          simpa [expand] using ih fun idx member => paired idx (by simpa using member)
      | node idx =>
          rw [List.flatMap_cons, Item.nodes_append, ih fun other member => paired other (by simp [member]),
            Item.nodes_node, List.flatMap_cons, expand, Item.nodes_row (paired idx (by simp))]

theorem Crown.nodes_level_succ (crown : Crown heap root layout (depth + 1)) :
    Item.nodes (level heap root (depth + 1)) =
      (Item.nodes (level heap root depth)).flatMap fun idx => (heap idx).children :=
  nodes_expand fun idx member => (crown.2 idx member).paired

theorem Crown.child_mem (crown : Crown heap root layout (depth + 1)) {parent child : NodeIdx}
    (member : parent ∈ Item.nodes (level heap root depth)) (isChild : child ∈ (heap parent).children) :
    child ∈ Item.nodes (level heap root (depth + 1)) := by
  rw [crown.nodes_level_succ]
  exact List.mem_flatMap.mpr ⟨parent, member, isChild⟩

/-- The level `depth` steps below an item. -/
def sublevel (heap : Heap K V) (depth : Nat) : LevelItem K → List (LevelItem K)
  | .node idx => level heap idx depth
  | .sep key => [.sep key]

/-- A level consists of the levels below the nodes further up. -/
theorem level_add (heap : Heap K V) (root : NodeIdx) (upper lower : Nat) :
    level heap root (upper + lower) = (level heap root upper).flatMap (sublevel heap lower) := by
  induction lower with
  | zero =>
      rw [Nat.add_zero]
      have single : sublevel heap 0 = fun item => [item] := by
        funext item
        cases item <;> rfl
      rw [single]
      simp
  | succ lower ih =>
      have step : ∀ item : LevelItem K,
          sublevel heap (lower + 1) item = (sublevel heap lower item).flatMap (expand heap) := by
        intro item
        cases item <;> rfl
      rw [← Nat.add_assoc, level, ih, List.flatMap_assoc]
      exact List.flatMap_congr fun item _ => (step item).symm

/-- The crown only depends on the nodes above the level and on the parents of the
nodes on it. -/
theorem Crown.congr (crown : Crown heap root layout depth)
    (same : ∀ idx ∈ above heap root depth, heap' idx = heap idx)
    (parents : ∀ idx ∈ Item.nodes (level heap root depth), (heap' idx).parent = (heap idx).parent) :
    Crown heap' root layout depth := by
  induction depth with
  | zero =>
      have unchanged := parents root (by simp [level])
      exact unchanged.trans crown
  | succ depth ih =>
      have sameUpper : ∀ idx ∈ above heap root depth, heap' idx = heap idx :=
        fun idx member => same idx (List.mem_append_left _ member)
      have sameNode : ∀ idx ∈ Item.nodes (level heap root depth), heap' idx = heap idx :=
        fun idx member => same idx (List.mem_append_right _ member)
      refine ⟨ih crown.1 sameUpper fun idx member => by rw [sameNode idx member], fun idx member => ?_⟩
      rw [(level_above_congr sameUpper).1] at member
      have old := crown.2 idx member
      have unchanged := sameNode idx member
      refine ⟨?_, ?_, ?_, ?_, fun child isChild => ?_⟩
      · rw [unchanged]; exact old.internal
      · rw [unchanged]; exact old.paired
      · rw [unchanged]; exact old.nonempty
      · rw [unchanged]; exact old.fits
      · rw [unchanged] at isChild
        rw [parents child (crown.child_mem member isChild)]
        exact old.parents child isChild

/-- The place of a node of the level below `depth` under its parent. -/
structure Place (heap : Heap K V) (root : NodeIdx) (depth : Nat) (left : List (LevelItem K))
    (child : NodeIdx) (right : List (LevelItem K)) where
  parent : NodeIdx
  upLeft : List (LevelItem K)
  upRight : List (LevelItem K)
  before : List NodeIdx
  after : List NodeIdx
  keysBefore : List (KeyObj K)
  keysAfter : List (KeyObj K)
  level_eq : level heap root depth = upLeft ++ .node parent :: upRight
  children_eq : (heap parent).children = before ++ child :: after
  keys_eq : (heap parent).keys = keysBefore ++ keysAfter
  before_paired : before.length = keysBefore.length
  after_paired : after.length = keysAfter.length
  left_eq : left = upLeft.flatMap (expand heap) ++ Item.lead before keysBefore
  right_eq : right = Item.trail keysAfter after ++ upRight.flatMap (expand heap)

theorem Crown.locate {left right : List (LevelItem K)} {child : NodeIdx}
    (crown : Crown heap root layout (depth + 1))
    (split : level heap root (depth + 1) = left ++ .node child :: right) :
    Nonempty (Place heap root depth left child right) := by
  obtain ⟨upLeft, item, upRight, front, back, levelEq, inside, rfl, rfl⟩ := flatMap_split split
  cases item with
  | sep key => cases front <;> simp [expand] at inside
  | node parent =>
      have internal := crown.2 parent (by rw [levelEq]; simp)
      obtain ⟨before, after, keysBefore, keysAfter, childrenEq, keysEq, beforePaired, afterPaired, rfl,
        rfl⟩ := Item.row_split internal.paired inside
      exact ⟨⟨parent, upLeft, upRight, before, after, keysBefore, keysAfter,
        levelEq, childrenEq, keysEq, beforePaired, afterPaired, rfl, rfl⟩⟩

namespace Place

variable {left right : List (LevelItem K)} {child : NodeIdx}
  (place : Place heap root depth left child right)

theorem parent_mem : place.parent ∈ Item.nodes (level heap root depth) := by
  rw [place.level_eq]
  simp

theorem parent_eq (crown : Crown heap root layout (depth + 1)) :
    (heap child).parent = some place.parent :=
  (crown.2 place.parent place.parent_mem).parents child (by rw [place.children_eq]; simp)

theorem siblings_nodup (crown : Crown heap root layout (depth + 1))
    (unique : (Item.nodes (level heap root (depth + 1))).Nodup) :
    (place.before ++ child :: place.after).Nodup := by
  rw [← place.children_eq]
  refine unique.sublist ?_
  rw [crown.nodes_level_succ]
  obtain ⟨front, back, split⟩ := List.append_of_mem place.parent_mem
  rw [split, List.flatMap_append, List.flatMap_cons]
  exact (List.sublist_append_left _ _).trans (List.sublist_append_right _ _)

theorem child_notMem (crown : Crown heap root layout (depth + 1))
    (unique : (Item.nodes (level heap root (depth + 1))).Nodup) :
    child ∉ place.before ∧ child ∉ place.after := by
  have rest := List.nodup_cons.mp (List.nodup_middle.mp (place.siblings_nodup crown unique))
  exact ⟨fun member => rest.1 (List.mem_append_left _ member),
    fun member => rest.1 (List.mem_append_right _ member)⟩

end Place

/-- Two neighbours of the level below `depth` that share their parent. -/
structure Pair (heap : Heap K V) (root : NodeIdx) (depth : Nat) (left : List (LevelItem K))
    (child : NodeIdx) (key : KeyObj K) (next : NodeIdx) (right : List (LevelItem K)) where
  parent : NodeIdx
  upLeft : List (LevelItem K)
  upRight : List (LevelItem K)
  before : List NodeIdx
  after : List NodeIdx
  keysBefore : List (KeyObj K)
  keysAfter : List (KeyObj K)
  level_eq : level heap root depth = upLeft ++ .node parent :: upRight
  children_eq : (heap parent).children = before ++ child :: next :: after
  keys_eq : (heap parent).keys = keysBefore ++ key :: keysAfter
  before_paired : before.length = keysBefore.length
  after_paired : after.length = keysAfter.length
  left_eq : left = upLeft.flatMap (expand heap) ++ Item.lead before keysBefore
  right_eq : right = Item.trail keysAfter after ++ upRight.flatMap (expand heap)

namespace Pair

variable {left right : List (LevelItem K)} {child next : NodeIdx} {key : KeyObj K}

/-- The place of the left one. -/
def place (pair : Pair heap root depth left child key next right) :
    Place heap root depth left child (.sep key :: .node next :: right) where
  parent := pair.parent
  upLeft := pair.upLeft
  upRight := pair.upRight
  before := pair.before
  after := next :: pair.after
  keysBefore := pair.keysBefore
  keysAfter := key :: pair.keysAfter
  level_eq := pair.level_eq
  children_eq := pair.children_eq
  keys_eq := pair.keys_eq
  before_paired := pair.before_paired
  after_paired := by simp [pair.after_paired]
  left_eq := pair.left_eq
  right_eq := by
    have rightEq := pair.right_eq
    simp only [Item.trail, List.cons_append]
    rw [← rightEq]

/-- The pair in a heap with the same nodes above the children. -/
def congr (pair : Pair heap root depth left child key next right)
    (same : ∀ idx ∈ above heap root (depth + 1), heap' idx = heap idx) :
    Pair heap' root depth left child key next right where
  parent := pair.parent
  upLeft := pair.upLeft
  upRight := pair.upRight
  before := pair.before
  after := pair.after
  keysBefore := pair.keysBefore
  keysAfter := pair.keysAfter
  level_eq := by
    rw [(level_above_congr fun idx member => same idx (List.mem_append_left _ member)).1]
    exact pair.level_eq
  children_eq := by
    rw [same pair.parent (List.mem_append_right _ pair.place.parent_mem)]
    exact pair.children_eq
  keys_eq := by
    rw [same pair.parent (List.mem_append_right _ pair.place.parent_mem)]
    exact pair.keys_eq
  before_paired := pair.before_paired
  after_paired := pair.after_paired
  left_eq := by
    have leftSame := @flatMap_expand_congr _ _ heap heap' pair.upLeft
      fun idx member => same idx (List.mem_append_right _ (by rw [pair.level_eq]; simp [member]))
    rw [leftSame]
    exact pair.left_eq
  right_eq := by
    have rightSame := @flatMap_expand_congr _ _ heap heap' pair.upRight
      fun idx member => same idx (List.mem_append_right _ (by rw [pair.level_eq]; simp [member]))
    rw [rightSame]
    exact pair.right_eq

end Pair

/-- A node that is not the last child has a right sibling. -/
theorem Place.pair_right {left right : List (LevelItem K)} {child next : NodeIdx} {others : List NodeIdx}
    (place : Place heap root depth left child right) (more : place.after = next :: others) :
    ∃ key rest, right = .sep key :: .node next :: rest ∧
      ∃ pair : Pair heap root depth left child key next rest,
        pair.parent = place.parent ∧ pair.before = place.before := by
  obtain ⟨parent, upLeft, upRight, before, after, keysBefore, keysAfter, levelEq, childrenEq, keysEq,
    beforePaired, afterPaired, rfl, rfl⟩ := place
  obtain rfl : after = next :: others := more
  cases keysAfter with
  | nil => simp at afterPaired
  | cons key keysAfter =>
      refine ⟨key, Item.trail keysAfter others ++ upRight.flatMap (expand heap), by simp [Item.trail],
        ⟨parent, upLeft, upRight, before, others, keysBefore, keysAfter, levelEq, childrenEq, keysEq,
          beforePaired, by simpa using afterPaired, rfl, rfl⟩, rfl, rfl⟩

/-- A node that is not the first child has a left sibling. -/
theorem Place.pair_left {left right : List (LevelItem K)} {child prev : NodeIdx} {others : List NodeIdx}
    (place : Place heap root depth left child right) (more : place.before = others ++ [prev]) :
    ∃ key rest, left = rest ++ [.node prev, .sep key] ∧
      ∃ pair : Pair heap root depth rest prev key child right,
        pair.parent = place.parent ∧ pair.before = others := by
  obtain ⟨parent, upLeft, upRight, before, after, keysBefore, keysAfter, levelEq, childrenEq, keysEq,
    beforePaired, afterPaired, rfl, rfl⟩ := place
  obtain rfl : before = others ++ [prev] := more
  rcases List.eq_nil_or_concat keysBefore with rfl | ⟨keysOthers, key, rfl⟩
  · simp at beforePaired
  · simp only [List.concat_eq_append] at keysEq beforePaired ⊢
    have othersPaired : others.length = keysOthers.length := by simpa using beforePaired
    refine ⟨key, upLeft.flatMap (expand heap) ++ Item.lead others keysOthers,
      by rw [Item.lead_concat prev key othersPaired, List.append_assoc],
      ⟨parent, upLeft, upRight, others, after, keysOthers, keysAfter, levelEq, by simpa using childrenEq,
        by simpa using keysEq, othersPaired, afterPaired, rfl, rfl⟩, rfl, rfl⟩

/-- `path` leads from the root to a node of the level. -/
def PathTo (heap : Heap K V) (root : NodeIdx) : Nat → NodeIdx → PathBuf → Prop
  | 0, _, path => path = []
  | depth + 1, child, path => ∃ parent slot rest, path = (parent, slot) :: rest ∧
      parent ∈ Item.nodes (level heap root depth) ∧ (heap parent).children[slot]? = some child ∧
      PathTo heap root depth parent rest

theorem PathTo.congr {child : NodeIdx} {path : PathBuf} (leads : PathTo heap root depth child path)
    (same : ∀ idx ∈ above heap root depth, heap' idx = heap idx) :
    PathTo heap' root depth child path := by
  induction depth generalizing child path with
  | zero => exact leads
  | succ depth ih =>
      obtain ⟨parent, slot, rest, rfl, member, isChild, leads⟩ := leads
      have sameUpper : ∀ idx ∈ above heap root depth, heap' idx = heap idx :=
        fun idx member => same idx (List.mem_append_left _ member)
      refine ⟨parent, slot, rest, rfl, ?_, ?_, ih leads sameUpper⟩
      · rw [(level_above_congr sameUpper).1]; exact member
      · rw [same parent (List.mem_append_right _ member)]; exact isChild

/-- A path ends in the parent's slot of its node. -/
theorem PathTo.head_eq {child : NodeIdx} {left right : List (LevelItem K)} {path : PathBuf}
    (leads : PathTo heap root (depth + 1) child path) (crown : Crown heap root layout (depth + 1))
    (unique : (Item.nodes (level heap root (depth + 1))).Nodup)
    (place : Place heap root depth left child right) :
    ∃ rest, path = (place.parent, place.before.length) :: rest ∧
      PathTo heap root depth place.parent rest := by
  obtain ⟨other, slot, rest, rfl, member, isChild, leads⟩ := leads
  have sameParent := (crown.2 other member).parents child (List.mem_of_getElem? isChild)
  rw [place.parent_eq crown] at sameParent
  obtain rfl := Option.some.inj sameParent
  refine ⟨rest, ?_, leads⟩
  obtain ⟨notBefore, notAfter⟩ := place.child_notMem crown unique
  rw [place.children_eq] at isChild
  have slotEq : slot = place.before.length := by
    rcases lt_trichotomy slot place.before.length with smaller | same | larger
    · rw [List.getElem?_append_left smaller] at isChild
      exact absurd (List.mem_of_getElem? isChild) notBefore
    · exact same
    · rw [List.getElem?_append_right larger.le] at isChild
      obtain ⟨gap, rfl⟩ : ∃ gap, slot = place.before.length + (gap + 1) :=
        ⟨slot - place.before.length - 1, by omega⟩
      rw [Nat.add_sub_cancel_left, List.getElem?_cons_succ] at isChild
      exact absurd (List.mem_of_getElem? isChild) notAfter
  rw [slotEq]

end Optimap.FlatBTree
