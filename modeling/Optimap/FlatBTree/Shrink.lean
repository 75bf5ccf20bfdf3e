import Optimap.FlatBTree.Rotation

/-!
# Merges on their way up

A node of a level loses its right neighbour together with the separator between
them. Rotations and merges above change how the level is grouped under parents,
but not the level itself.
-/

set_option autoImplicit false
set_option linter.unusedSectionVars false

namespace Optimap.FlatBTree

open Lib

variable {K V : Type} {layout : NodeLayout} {tree tree' : RawBTree K V} {root : NodeIdx} {depth : Nat}
  {left right : List (LevelItem K)} {child next : NodeIdx} {key : KeyObj K} {rest : List NodeIdx}

section Siblings

/-- The right neighbour under the same parent. -/
def RawBTree.rightSibling (tree : RawBTree K V) (idx : NodeIdx) : Option NodeIdx := do
  let parent ← (tree.node idx).parent
  let childPos := tree.childSlot parent idx 0
  if childPos < (tree.node parent).keys.length then (tree.node parent).children[childPos + 1]? else none

/-- The left neighbour under the same parent. -/
def RawBTree.leftSibling (tree : RawBTree K V) (idx : NodeIdx) : Option NodeIdx := do
  let parent ← (tree.node idx).parent
  let childPos := tree.childSlot parent idx 0
  if 0 < childPos then (tree.node parent).children[childPos - 1]? else none

/-- No sibling can donate, so that a thin node has to merge. -/
def RawBTree.crowded (tree : RawBTree K V) (size : Node K V → Nat) (minKeys : Nat) (idx : NodeIdx) : Bool :=
  (tree.rightSibling idx).all (fun right => size (tree.node right) ≤ minKeys) &&
    (tree.leftSibling idx).all (fun left => size (tree.node left) ≤ minKeys)

theorem Place.parent_length {heap : Heap K V} (place : Place heap root depth left child right) :
    (heap place.parent).keys.length = place.before.length + place.after.length := by
  rw [place.keys_eq, List.length_append, place.before_paired, place.after_paired]

theorem Place.right_lt {heap : Heap K V} {others : List NodeIdx}
    (place : Place heap root depth left child right) (more : place.after = next :: others) :
    place.before.length < (heap place.parent).keys.length ∧
      (heap place.parent).children[place.before.length + 1]? = some next := by
  refine ⟨?_, ?_⟩
  · rw [place.parent_length, more]
    simp
  · rw [place.children_eq, more, List.getElem?_append_right (by omega)]
    simp

theorem Place.left_lt {heap : Heap K V} {prev : NodeIdx} {others : List NodeIdx}
    (place : Place heap root depth left child right) (more : place.before = others ++ [prev]) :
    0 < place.before.length ∧ place.before.length - 1 = others.length ∧
      (heap place.parent).children[others.length]? = some prev := by
  refine ⟨?_, ?_, ?_⟩
  · rw [more]; simp
  · rw [more]; simp
  · rw [place.children_eq, more]
    simp

theorem Place.rightSibling_eq (place : Place tree.node root depth left child right)
    (crown : Crown tree.node root layout (depth + 1))
    (unique : (Item.nodes (level tree.node root (depth + 1))).Nodup) :
    tree.rightSibling child = place.after.head? := by
  have slot := childSlot_place 0 place (place.child_notMem crown unique).1
  simp only [RawBTree.rightSibling, place.parent_eq crown, Option.bind_eq_bind, Option.bind_some, slot]
  cases more : place.after with
  | nil =>
      have length := place.parent_length
      rw [more] at length
      rw [if_neg (by simp only [List.length_nil] at length; omega)]
      rfl
  | cons next others =>
      rw [if_pos (place.right_lt more).1, (place.right_lt more).2]
      rfl

theorem Place.leftSibling_eq (place : Place tree.node root depth left child right)
    (crown : Crown tree.node root layout (depth + 1))
    (unique : (Item.nodes (level tree.node root (depth + 1))).Nodup) :
    tree.leftSibling child = place.before.getLast? := by
  have slot := childSlot_place 0 place (place.child_notMem crown unique).1
  simp only [RawBTree.leftSibling, place.parent_eq crown, Option.bind_eq_bind, Option.bind_some, slot]
  rcases List.eq_nil_or_concat place.before with empty | ⟨others, prev, same⟩
  · rw [empty]; rfl
  · rw [List.concat_eq_append] at same
    obtain ⟨positive, pred, found⟩ := place.left_lt same
    rw [if_pos positive, pred, found, same]
    simp

theorem Place.read_right (place : Place tree.node root depth left child right) :
    (if place.before.length < (tree.node place.parent).keys.length then
      (readSlot (tree.node place.parent).children (place.before.length + 1)).map some
        else pure none : Result (Option NodeIdx)) = .ok place.after.head? := by
  cases more : place.after with
  | nil =>
      have length := place.parent_length
      rw [more] at length
      rw [if_neg (by simp only [List.length_nil] at length; omega)]
      rfl
  | cons next others =>
      rw [if_pos (place.right_lt more).1, readSlot, (place.right_lt more).2]
      rfl

theorem Place.read_left (place : Place tree.node root depth left child right) :
    (if 0 < place.before.length then
      (readSlot (tree.node place.parent).children (place.before.length - 1)).map some
        else pure none : Result (Option NodeIdx)) = .ok place.before.getLast? := by
  rcases List.eq_nil_or_concat place.before with empty | ⟨others, prev, same⟩
  · rw [empty]; rfl
  · rw [List.concat_eq_append] at same
    obtain ⟨positive, pred, found⟩ := place.left_lt same
    rw [if_pos positive, pred, readSlot, found, same]
    simp [Except.map]

/-- The four ways a thin child is rebalanced. -/
theorem rebalance_cases {size : Node K V → Nat} {minKeys : Nat}
    {stealRight stealLeft : NodeIdx → NodeIdx → Nat → Result (RawBTree K V)}
    {merge : NodeIdx → Nat → NodeIdx → Result (RawBTree K V)}
    (place : Place tree.node root depth left child right)
    (crown : Crown tree.node root layout (depth + 1))
    (unique : (Item.nodes (level tree.node root (depth + 1))).Nodup) :
    (∃ next others, place.after = next :: others ∧ minKeys < size (tree.node next) ∧
      tree.rebalance child size minKeys stealRight stealLeft merge =
        stealRight next place.parent place.before.length) ∨
    (∃ others prev, place.before = others ++ [prev] ∧ minKeys < size (tree.node prev) ∧
      tree.rebalance child size minKeys stealRight stealLeft merge =
        stealLeft prev place.parent others.length) ∨
    tree.crowded size minKeys child = true ∧
      ((∃ next others, place.after = next :: others ∧ size (tree.node next) ≤ minKeys ∧
        tree.rebalance child size minKeys stealRight stealLeft merge =
          merge child place.before.length place.parent) ∨
      ∃ others prev, place.before = others ++ [prev] ∧ size (tree.node prev) ≤ minKeys ∧
        tree.rebalance child size minKeys stealRight stealLeft merge =
          merge prev others.length place.parent) := by
  have slot := childSlot_place 0 place (place.child_notMem crown unique).1
  have rightEq := place.rightSibling_eq crown unique
  have leftEq := place.leftSibling_eq crown unique
  have parentOk := crown.2 place.parent place.parent_mem
  have length := place.parent_length
  have nonempty := parentOk.nonempty
  have small : ∀ {size : Nat}, ¬ minKeys < size → size ≤ minKeys := fun bound => Nat.le_of_not_lt bound
  rcases List.eq_nil_or_concat place.before with noLeft | ⟨front, prev, leftSplit⟩
  · cases rightSplit : place.after with
    | nil =>
        rw [noLeft, rightSplit] at length
        simp only [List.length_nil] at length
        omega
    | cons next others =>
        have bound := (place.right_lt rightSplit).1
        by_cases large : minKeys < size (tree.node next)
        · refine .inl ⟨next, others, rfl, large, ?_⟩
          simp only [RawBTree.rebalance, place.parent_eq crown, slot, place.read_right,
            place.read_left, rightSplit, bind, Except.bind]
          simp [Option.filter, large]
        · refine .inr (.inr ⟨?_, .inl ⟨next, others, rfl, small large, ?_⟩⟩)
          · simp [RawBTree.crowded, rightEq, leftEq, rightSplit, noLeft, small large]
          · have noDonor : place.before.getLast? = none := by simp [noLeft]
            simp only [RawBTree.rebalance, place.parent_eq crown, slot, place.read_right,
              place.read_left, rightSplit, noDonor, bind, Except.bind]
            simp [Option.filter, large, bound]
  · rw [List.concat_eq_append] at leftSplit
    obtain ⟨positive, pred, found⟩ := place.left_lt leftSplit
    have donor : place.before.getLast? = some prev := by simp [leftSplit]
    cases rightSplit : place.after with
    | nil =>
        by_cases large : minKeys < size (tree.node prev)
        · refine .inr (.inl ⟨front, prev, leftSplit, large, ?_⟩)
          simp only [RawBTree.rebalance, place.parent_eq crown, slot, place.read_right,
            place.read_left, rightSplit, donor, bind, Except.bind]
          simp [Option.filter, large, pred]
        · refine .inr (.inr ⟨?_, .inr ⟨front, prev, leftSplit, small large, ?_⟩⟩)
          · simp [RawBTree.crowded, rightEq, leftEq, rightSplit, leftSplit, small large]
          · have bound : ¬ place.before.length < (tree.node place.parent).keys.length := by
              rw [length, rightSplit]; simp
            have position : childPosPred place.before.length = .ok front.length := by
              rw [leftSplit, List.length_append]; rfl
            simp only [RawBTree.rebalance, place.parent_eq crown, slot, place.read_right,
              place.read_left, rightSplit, donor, bind, Except.bind]
            simp [Option.filter, large, bound, position, readSlot, found]
    | cons next others =>
        have bound := (place.right_lt rightSplit).1
        by_cases large : minKeys < size (tree.node next)
        · refine .inl ⟨next, others, rfl, large, ?_⟩
          simp only [RawBTree.rebalance, place.parent_eq crown, slot, place.read_right,
            place.read_left, rightSplit, bind, Except.bind]
          simp [Option.filter, large]
        · by_cases leftLarge : minKeys < size (tree.node prev)
          · refine .inr (.inl ⟨front, prev, leftSplit, leftLarge, ?_⟩)
            simp only [RawBTree.rebalance, place.parent_eq crown, slot, place.read_right,
              place.read_left, rightSplit, donor, bind, Except.bind]
            simp [Option.filter, large, leftLarge, pred]
          · refine .inr (.inr ⟨?_, .inl ⟨next, others, rfl, small large, ?_⟩⟩)
            · simp [RawBTree.crowded, rightEq, leftEq, rightSplit, leftSplit, small large, small leftLarge]
            · simp only [RawBTree.rebalance, place.parent_eq crown, slot, place.read_right,
                place.read_left, rightSplit, donor, bind, Except.bind]
              simp [Option.filter, large, leftLarge, bound]

end Siblings

/-- What `internal_remove_at` has to achieve at the parents on level `depth`: the
separator and the node behind it are gone from the level below, the object of the
separator is dropped. The removed node is on the free list already. -/
def RemovesSeparator (layout : NodeLayout)
    (removeAt : NodeIdx → Nat → RawBTree K V → Result (RawBTree K V)) (depth : Nat) : Prop :=
  ∀ {tree : RawBTree K V} {root : NodeIdx} {left right : List (LevelItem K)} {child gone : NodeIdx}
    {key : KeyObj K} {rest : List NodeIdx}
    (pair : Pair tree.node root depth left child key gone right),
    tree.root = some root → Crown tree.node root layout (depth + 1) →
    level tree.node root (depth + 1) = left ++ .node child :: .sep key :: .node gone :: right →
    Owned tree.arena
      (above tree.node root (depth + 1) ++ Item.nodes (left ++ .node child :: right) ++ rest) →
    depth + 1 ≤ tree.height →
    ∃ tree' root' depth', removeAt pair.parent pair.before.length tree = .ok tree' ∧
      Shrunk layout tree (depth + 1) (Item.nodes (left ++ .node child :: right))
        (left ++ .node child :: right) rest tree' root' depth' ∧
      (tree'.ledger.dropped = key.id :: tree.ledger.dropped ∨
        tree.root ≠ some pair.parent ∧
          (tree.node pair.parent).keys.length - 1 < layout.internalCap / 2 ∧
          tree.crowded (fun node => node.keys.length) (layout.internalCap / 2) pair.parent = true)

/-- Two siblings become one, and their parent loses a key and a child. -/
theorem mergeInternals_shrunk {low : List (LevelItem K)}
    {removeAt : NodeIdx → Nat → RawBTree K V → Result (RawBTree K V)}
    (removes : RemovesSeparator layout removeAt depth)
    (crownAt : CrownAt layout tree root (depth + 1)
      (left ++ .node child :: .sep key :: .node next :: right) (Item.nodes low ++ rest))
    (pair : Pair tree.node root depth left child key next right)
    (expands : (left ++ .node child :: .sep key :: .node next :: right).flatMap (expand tree.node) = low)
    (beside : ∀ other ∈ Item.nodes left ++ Item.nodes right, InternalOk tree.node layout other)
    (internal : (tree.node child).isLeaf = false)
    (paired : ∀ other ∈ [child, next],
      (tree.node other).children.length = (tree.node other).keys.length + 1)
    (parents : ∀ other ∈ [child, next], ∀ below ∈ (tree.node other).children,
      (tree.node below).parent = some other)
    (fits : (tree.node child).keys.length + (tree.node next).keys.length + 1 ≤ layout.internalCap)
    (tall : depth + 1 ≤ tree.height) :
    ∃ tree' root' depth', tree.mergeInternals removeAt child pair.before.length pair.parent = .ok tree' ∧
      Shrunk layout tree (depth + 1 + 1) (Item.nodes low) low rest tree' root' depth' := by
  obtain ⟨upper, middle, lower, rowNodup, lowNodup⟩ := crownAt.row_disjoint
  have childMem : child ∈ Item.nodes (left ++ .node child :: .sep key :: .node next :: right) := by simp
  have nextMem : next ∈ Item.nodes (left ++ .node child :: .sep key :: .node next :: right) := by simp
  have pairedAll : ∀ idx ∈ Item.nodes (left ++ .node child :: .sep key :: .node next :: right),
      (tree.node idx).children.length = (tree.node idx).keys.length + 1 := by
    intro idx member
    simp only [Item.nodes_append, Item.nodes_node, Item.nodes_sep, List.mem_append, List.mem_cons] at member
    rcases member with member | rfl | rfl | member
    · exact (beside idx (List.mem_append_left _ member)).paired
    · exact paired idx (by simp)
    · exact paired idx (by simp)
    · exact (beside idx (List.mem_append_right _ member)).paired
  have lowMem : ∀ other ∈ Item.nodes (left ++ .node child :: .sep key :: .node next :: right),
      ∀ below ∈ (tree.node other).children, below ∈ Item.nodes low := by
    intro other member below isBelow
    rw [← expands, nodes_expand pairedAll]
    exact List.mem_flatMap.mpr ⟨other, member, isBelow⟩
  set nextChildren := (tree.node next).children with nextChildrenDef
  set merged := (tree.modify child fun node => { node with
      keys := node.keys ++ key :: (tree.node next).keys
      children := node.children ++ nextChildren }).setParents (some child) nextChildren with mergedDef
  have childOutside : child ∉ nextChildren := fun inside =>
    (middle child childMem).1 (lowMem next nextMem child inside)
  have childNode : merged.node child = { tree.node child with
      keys := (tree.node child).keys ++ key :: (tree.node next).keys
      children := (tree.node child).children ++ nextChildren } := by
    rw [mergedDef, RawBTree.node_setParents, if_neg childOutside, RawBTree.node_modify_self]
  have node : ∀ other, other ≠ child → merged.node other =
      if other ∈ nextChildren then { tree.node other with parent := some child } else tree.node other := by
    intro other notChild
    rw [mergedDef, RawBTree.node_setParents, RawBTree.node_modify_of_ne _ notChild]
  have frame : RawBTree.SameFrame tree merged :=
    (RawBTree.SameFrame.modify tree child _).trans (RawBTree.setParents_sameFrame _ _ _)
  have aboveNode : ∀ other ∈ above tree.node root (depth + 1), merged.node other = tree.node other := by
    intro other member
    rw [node other fun same => (upper other member).1 (same ▸ childMem), if_neg]
    exact fun inside => (upper other member).2.1 (lowMem next nextMem other inside)
  have rowNode : ∀ other ∈ Item.nodes (left ++ .node child :: .sep key :: .node next :: right),
      other ≠ child → merged.node other = tree.node other := by
    intro other member notChild
    rw [node other notChild, if_neg]
    exact fun inside => (middle other member).1 (lowMem next nextMem other inside)
  have besideRow := beside_row rowNodup
  have owned : Owned (merged.arena.freeNode next)
      (above merged.node root (depth + 1) ++ Item.nodes (left ++ .node child :: right) ++
        (Item.nodes low ++ rest)) := by
    rw [(level_above_congr aboveNode).2]
    refine ((crownAt.owned.of_same frame.free frame.arenaLen).perm ?_).free
    rw [List.perm_iff_count]
    intro idx
    simp only [Item.nodes_append, Item.nodes_node, Item.nodes_sep, List.count_append, List.count_cons]
    omega
  have crown : Crown merged.node root layout (depth + 1) := by
    refine crownAt.crown.congr aboveNode fun other member => ?_
    rw [crownAt.level_eq] at member
    by_cases isChild : other = child
    · rw [isChild, childNode]
    · rw [rowNode other member isChild]
  obtain ⟨tree', root', depth', removed, shrunk, _⟩ :=
    @removes (merged.freeNode next) _ _ _ _ _ _ _ (pair.congr aboveNode) (frame.root.trans crownAt.root_eq) crown
      ((level_above_congr aboveNode).1.trans crownAt.level_eq) owned
      (by change depth + 1 ≤ merged.height; rw [frame.height]; exact tall)
  have internalAll : ∀ idx ∈ Item.nodes (left ++ .node child :: right), InternalOk merged.node layout idx := by
    intro idx member
    by_cases isChild : idx = child
    · subst isChild
      refine ⟨?_, ?_, ?_, ?_, fun below isBelow => ?_⟩
      · rw [childNode]; exact internal
      · have childPaired := paired idx (by simp)
        have nextPaired := paired next (by simp)
        rw [← nextChildrenDef] at nextPaired
        rw [childNode]
        simp only [List.length_append, List.length_cons]
        omega
      · rw [childNode]
        simp only [List.length_append, List.length_cons]
        omega
      · rw [childNode]
        simp only [List.length_append, List.length_cons]
        omega
      · have notChild : below ≠ idx := by
          rintro rfl
          rw [childNode] at isBelow
          rcases List.mem_append.mp isBelow with isOld | isNew
          · exact (middle below childMem).1 (lowMem below childMem below isOld)
          · exact childOutside isNew
        rw [node below notChild]
        split
        · rfl
        · rename_i outside
          rw [childNode] at isBelow
          rcases List.mem_append.mp isBelow with isOld | isNew
          · exact parents idx (by simp) below isOld
          · exact absurd isNew outside
    · have isBeside : idx ∈ Item.nodes left ++ Item.nodes right := by
        simp only [Item.nodes_append, Item.nodes_node, List.mem_append, List.mem_cons] at member ⊢
        tauto
      obtain ⟨onRow, notChild, notNext⟩ := besideRow idx isBeside
      have old := beside idx isBeside
      refine old.congr (by rw [rowNode idx onRow notChild]) fun below isBelow => ?_
      rw [node below fun same => (middle child childMem).1 (same ▸ lowMem idx onRow below isBelow), if_neg]
      intro inside
      have twice := (old.parents below isBelow).symm.trans (parents next (by simp) below inside)
      exact notNext (Option.some.inj twice)
  have expandsMerged : (left ++ .node child :: right).flatMap (expand merged.node) = low := by
    have nextPaired := paired next (by simp)
    have joined := @Item.row_append_sep _ _ _ (tree.node next).keys _ nextChildren key
      (paired child (by simp)) (by intro empty; rw [← nextChildrenDef, empty] at nextPaired; simp at nextPaired)
    rw [← expands]
    simp only [List.flatMap_append, List.flatMap_cons]
    rw [flatMap_expand_congr fun idx member => rowNode idx
        (besideRow idx (List.mem_append_left _ member)).1 (besideRow idx (List.mem_append_left _ member)).2.1,
      flatMap_expand_congr fun idx member => rowNode idx
        (besideRow idx (List.mem_append_right _ member)).1 (besideRow idx (List.mem_append_right _ member)).2.1]
    simp only [expand, childNode, joined, ← nextChildrenDef, List.append_assoc, List.cons_append,
      List.nil_append]
  have lowered := @CrownAt.lower _ _ _ _ _ _ _ _ _ rest _ shrunk.crownAt shrunk.kept (fun idx member => member) internalAll
    (by rw [show (merged.freeNode next).node = merged.node from rfl, expandsMerged])
  rw [show (merged.freeNode next).node = merged.node from rfl, expandsMerged] at lowered
  have keptMerged : Kept tree (merged.freeNode next) (Item.nodes low) rest := by
    refine ⟨fun other member => ?_, fun other member => ?_, frame.firstLeaf, frame.lastLeaf, frame.len⟩
    · change (merged.node other).payload = _
      rw [node other fun same => (middle child childMem).1 (same ▸ member)]
      split <;> rfl
    · change merged.node other = _
      rw [node other fun same => (middle child childMem).2 (same ▸ member), if_neg]
      exact fun inside => lower other (lowMem next nextMem other inside) member
  refine ⟨tree', root', depth' + 1, ?_, lowered, keptMerged.trans shrunk.kept ?_ ?_, ?_, ?_⟩
  · have positions := @Place.right_lt _ _ _ _ _ _ _ next _ pair.after pair.place rfl
    have sepFound : (tree.node pair.parent).keys[pair.before.length]? = some key := by
      rw [pair.keys_eq, pair.before_paired]
      simp
    have nextFound : (tree.node pair.parent).children[pair.before.length + 1]? = some next := positions.2
    simp only [RawBTree.mergeInternals, readSlot, nextFound, sepFound, bind, Except.bind]
    exact removed
  · exact fun idx member => .inr (List.mem_append_left _ member)
  · exact fun idx member => List.mem_append_right _ member
  · have height := shrunk.height
    have same : (merged.freeNode next).height = tree.height := frame.height
    omega
  · exact shrunk.nextId.trans (congrArg Ledger.nextId frame.ledger)

theorem Thin.complete {upLeft upRight low : List (LevelItem K)} {idx : NodeIdx}
    (thin : Thin layout tree root depth upLeft idx upRight low rest)
    (nonempty : 1 ≤ (tree.node idx).keys.length) : CrownAt layout tree root (depth + 1) low rest := by
  have pushed := @CrownAt.push _ _ _ _ _ _ _ _ rest thin.crownAt ?_ (by rw [thin.expands])
  · rw [thin.expands] at pushed
    exact pushed
  · intro other member
    simp only [Item.nodes_append, Item.nodes_node, List.mem_append, List.mem_cons] at member
    rcases member with member | rfl | member
    · exact thin.others other (List.mem_append_left _ member)
    · exact ⟨thin.internal, thin.paired, nonempty, thin.fits, thin.parents⟩
    · exact thin.others other (List.mem_append_right _ member)

theorem Kept.refl (tree : RawBTree K V) (row rest : List NodeIdx) : Kept tree tree row rest :=
  ⟨fun _ _ => rfl, fun _ _ => rfl, rfl, rfl, rfl⟩

/-- A thin node below the root borrows from a sibling or merges with one. -/
theorem rebalanceInternal_shrunk {upLeft upRight low : List (LevelItem K)} {idx : NodeIdx}
    {removeAt : NodeIdx → Nat → RawBTree K V → Result (RawBTree K V)}
    (removes : RemovesSeparator layout removeAt depth)
    (thin : Thin layout tree root (depth + 1) upLeft idx upRight low rest)
    (few : (tree.node idx).keys.length < layout.internalCap / 2) (tall : depth + 1 ≤ tree.height) :
    ∃ tree' root' depth', tree.rebalanceInternal layout removeAt idx = .ok tree' ∧
      Shrunk layout tree (depth + 1 + 1) (Item.nodes low) low rest tree' root' depth' ∧
      (tree'.ledger = tree.ledger ∨
        tree.crowded (fun node => node.keys.length) (layout.internalCap / 2) idx = true) := by
  have crown := thin.crownAt.crown
  have unique := thin.crownAt.nodes_nodup
  have capTwo := layout.internalCap_two
  obtain ⟨place⟩ := crown.locate thin.crownAt.level_eq
  have fits : (tree.node idx).keys.length < layout.internalCap := by omega
  rcases @rebalance_cases _ _ _ _ _ _ _ _ _ (fun node => node.keys.length) (layout.internalCap / 2)
      (tree.stealInternalRight idx) (tree.stealInternalLeft idx) (tree.mergeInternals removeAt) place crown
      unique with
    ⟨next, others, more, large, returned⟩ | ⟨others, prev, more, large, returned⟩ |
    ⟨crowded, ⟨next, others, more, small, returned⟩ | ⟨others, prev, more, small, returned⟩⟩
  · obtain ⟨key, upRight', rfl, pair, sameParent, sameBefore⟩ := place.pair_right more
    obtain ⟨tree', stolen, crownAt, kept, height, ledger⟩ := thin.stealRight pair fits (by omega)
    refine ⟨tree', root, depth + 1 + 1, ?_, ⟨crownAt, kept, by rw [height], by rw [ledger]⟩, .inl ledger⟩
    rw [RawBTree.rebalanceInternal, returned, ← sameParent, ← sameBefore]
    exact stolen
  · obtain ⟨key, upLeft', rfl, pair, sameParent, sameBefore⟩ := place.pair_left more
    obtain ⟨tree', stolen, crownAt, kept, height, ledger⟩ := thin.stealLeft pair fits (by omega)
    refine ⟨tree', root, depth + 1 + 1, ?_, ⟨crownAt, kept, by rw [height], by rw [ledger]⟩, .inl ledger⟩
    rw [RawBTree.rebalanceInternal, returned, ← sameParent, ← sameBefore]
    exact stolen
  · obtain ⟨key, upRight', rfl, pair, sameParent, sameBefore⟩ := place.pair_right more
    have merged := mergeInternals_shrunk removes thin.crownAt pair thin.expands ?_ thin.internal ?_ ?_ ?_ tall
    · obtain ⟨tree', root', depth', merged, shrunk⟩ := merged
      refine ⟨tree', root', depth', ?_, shrunk, .inr crowded⟩
      rw [RawBTree.rebalanceInternal, returned, ← sameParent, ← sameBefore]
      exact merged
    · exact fun other member => thin.others other (by simp at member ⊢; tauto)
    · exact fun other member => thin.paired_all other (by simp at member ⊢; tauto)
    · exact fun other member => thin.parents_all other (by simp at member ⊢; tauto)
    · omega
  · obtain ⟨key, upLeft', rfl, pair, sameParent, sameBefore⟩ := place.pair_left more
    have crownAt := thin.crownAt
    have expands := thin.expands
    simp only [List.append_assoc, List.cons_append, List.nil_append] at crownAt expands
    have prevOk := thin.others prev (by simp)
    have merged := mergeInternals_shrunk removes crownAt pair expands ?_ prevOk.internal ?_ ?_ ?_ tall
    · obtain ⟨tree', root', depth', merged, shrunk⟩ := merged
      refine ⟨tree', root', depth', ?_, shrunk, .inr crowded⟩
      rw [RawBTree.rebalanceInternal, returned, ← sameParent, ← sameBefore]
      exact merged
    · exact fun other member => thin.others other (by simp at member ⊢; tauto)
    · exact fun other member => thin.paired_all other (by simp at member ⊢; tauto)
    · exact fun other member => thin.parents_all other (by simp at member ⊢; tauto)
    · omega

/-- Dropping a separator and unhooking the node behind it leaves a node that may
be thin, and the level below without the two. -/
theorem erase_thin (pair : Pair tree.node root depth left child key next right)
    (rootEq : tree.root = some root) (crown : Crown tree.node root layout (depth + 1))
    (owned : Owned tree.arena
      (above tree.node root (depth + 1) ++ Item.nodes (left ++ .node child :: right) ++ rest)) :
    Thin layout ((tree.drop key).modify pair.parent fun node => { node with
        keys := node.keys.eraseIdx pair.before.length
        children := node.children.eraseIdx (pair.before.length + 1) })
      root depth pair.upLeft pair.parent pair.upRight (left ++ .node child :: right) rest := by
  set tree' := (tree.drop key).modify pair.parent fun node => { node with
    keys := node.keys.eraseIdx pair.before.length
    children := node.children.eraseIdx (pair.before.length + 1) } with treeDef
  have parentMem := pair.place.parent_mem
  have parentOk := crown.2 pair.parent parentMem
  have nodup := owned.nodup_idxs
  rw [above] at nodup
  simp only [List.nodup_append, List.mem_append] at nodup
  obtain ⟨⟨⟨_, levelNodup, upper⟩, _, lower⟩, _, _⟩ := nodup
  have keysEq : (tree.node pair.parent).keys.eraseIdx pair.before.length =
      pair.keysBefore ++ pair.keysAfter := by
    rw [pair.keys_eq, pair.before_paired, List.eraseIdx_append_of_length_le le_rfl]
    simp
  have childrenEq : (tree.node pair.parent).children.eraseIdx (pair.before.length + 1) =
      pair.before ++ child :: pair.after := by
    rw [pair.children_eq, List.eraseIdx_append_of_length_le (by omega)]
    simp
  have parentNode : tree'.node pair.parent = { tree.node pair.parent with
      keys := pair.keysBefore ++ pair.keysAfter, children := pair.before ++ child :: pair.after } := by
    rw [treeDef, RawBTree.node_modify_self, ← keysEq, ← childrenEq]
    rfl
  have node : ∀ other, other ≠ pair.parent → tree'.node other = tree.node other := by
    intro other notParent
    rw [treeDef, RawBTree.node_modify_of_ne _ notParent]
    rfl
  have sameParent : ∀ other, (tree'.node other).parent = (tree.node other).parent := by
    intro other
    by_cases isParent : other = pair.parent
    · rw [isParent, parentNode]
    · rw [node other isParent]
  have upperNode : ∀ other ∈ above tree.node root depth, tree'.node other = tree.node other :=
    fun other member => node other fun same => upper other member _ parentMem same
  obtain ⟨sameLevel, sameAbove⟩ := level_above_congr upperNode
  have beside : ∀ other ∈ Item.nodes pair.upLeft ++ Item.nodes pair.upRight,
      other ∈ Item.nodes (level tree.node root depth) ∧ other ≠ pair.parent := pair.place.beside levelNodup
  have leftEq := pair.left_eq
  have rightEq := pair.right_eq
  refine ⟨⟨rootEq, crown.1.congr upperNode fun other _ => sameParent other,
    sameLevel.trans pair.level_eq, ?_⟩, ?_, ?_, ?_, ?_, ?_, ?_⟩
  · rw [sameAbove, ← pair.level_eq]
    rw [above] at owned
    refine (@Owned.of_same _ _ _ _ tree'.arena owned rfl rfl).perm ?_
    rw [← List.append_assoc]
  · intro other member
    obtain ⟨onLevel, notParent⟩ := beside other member
    exact (crown.2 other onLevel).congr (by rw [node other notParent]) fun below _ => sameParent below
  · rw [parentNode]; exact parentOk.internal
  · have before := pair.before_paired
    have after := pair.after_paired
    rw [parentNode]
    simp only [List.length_append, List.length_cons]
    omega
  · have fits := parentOk.fits
    rw [pair.keys_eq] at fits
    rw [parentNode]
    simp only [List.length_append, List.length_cons] at fits ⊢
    omega
  · intro below isBelow
    rw [parentNode] at isBelow
    rw [sameParent below]
    refine parentOk.parents below ?_
    rw [pair.children_eq]
    simp only [List.mem_append, List.mem_cons] at isBelow ⊢
    tauto
  · simp only [List.flatMap_append, List.flatMap_cons, expand, parentNode,
      Item.row_around child pair.before_paired]
    rw [flatMap_expand_congr fun other member => node other (beside other (List.mem_append_left _ member)).2,
      flatMap_expand_congr fun other member => node other (beside other (List.mem_append_right _ member)).2]
    simp only [List.append_assoc, List.cons_append]
    rw [← rightEq, ← List.append_assoc, ← leftEq]

theorem root_mem_above (heap : Heap K V) (root : NodeIdx) (depth : Nat) :
    root ∈ above heap root (depth + 1) := by
  induction depth with
  | zero => simp [above, level]
  | succ depth ih => exact List.mem_append_left _ ih

theorem Pair.sep_found {heap : Heap K V} (pair : Pair heap root depth left child key next right) :
    readSlot (heap pair.parent).keys pair.before.length = .ok key := by
  rw [readSlot, pair.keys_eq, pair.before_paired]
  simp

/-- A node that loses keys of its own has the same siblings to turn to. -/
theorem crowded_congr {idx : NodeIdx} {change : Node K V → Node K V} {size : Node K V → Nat} {minKeys : Nat}
    (crown : Crown (tree.modify idx change).node root layout (depth + 1))
    (unique : (Item.nodes (level (tree.modify idx change).node root (depth + 1))).Nodup)
    (place : Place (tree.modify idx change).node root depth left idx right)
    (apart : place.parent ≠ idx) (sameParent : ∀ node, (change node).parent = node.parent) :
    tree.crowded size minKeys idx = (tree.modify idx change).crowded size minKeys idx := by
  have parentNode : (tree.modify idx change).node place.parent = tree.node place.parent :=
    RawBTree.node_modify_of_ne change apart
  have parentEq := place.parent_eq crown
  have parentOld : (tree.node idx).parent = some place.parent := by
    rw [← parentEq, RawBTree.node_modify_self, sameParent]
  obtain ⟨notBefore, notAfter⟩ := place.child_notMem crown unique
  have slotSame : (tree.modify idx change).childSlot place.parent idx 0 =
      tree.childSlot place.parent idx 0 := by
    rw [RawBTree.childSlot, RawBTree.childSlot, parentNode]
  have rightSame : tree.rightSibling idx = (tree.modify idx change).rightSibling idx := by
    simp only [RawBTree.rightSibling, parentEq, parentOld, Option.bind_eq_bind, Option.bind_some]
    rw [slotSame, parentNode]
  have leftSame : tree.leftSibling idx = (tree.modify idx change).leftSibling idx := by
    simp only [RawBTree.leftSibling, parentEq, parentOld, Option.bind_eq_bind, Option.bind_some]
    rw [slotSame, parentNode]
  have sizeSame : ∀ other, other ≠ idx → size (tree.node other) = size ((tree.modify idx change).node other) :=
    fun other different => by rw [RawBTree.node_modify_of_ne change different]
  rw [RawBTree.crowded, RawBTree.crowded, rightSame, leftSame, place.rightSibling_eq crown unique,
    place.leftSibling_eq crown unique]
  congr 1
  · cases head : place.after.head? with
    | none => rfl
    | some other =>
        have inside := List.mem_of_head? head
        rw [Option.all_some, Option.all_some, sizeSame other]
        intro same
        rw [same] at inside
        exact notAfter inside
  · cases last : place.before.getLast? with
    | none => rfl
    | some other =>
        have inside := List.mem_of_getLast? last
        rw [Option.all_some, Option.all_some, sizeSame other]
        intro same
        rw [same] at inside
        exact notBefore inside

theorem erase_kept (pair : Pair tree.node root depth left child key next right)
    (owned : Owned tree.arena
      (above tree.node root (depth + 1) ++ Item.nodes (left ++ .node child :: right) ++ rest)) :
    Kept tree ((tree.drop key).modify pair.parent fun node => { node with
        keys := node.keys.eraseIdx pair.before.length
        children := node.children.eraseIdx (pair.before.length + 1) })
      (Item.nodes (left ++ .node child :: right)) rest := by
  have parentAbove : pair.parent ∈ above tree.node root (depth + 1) :=
    List.mem_append_right _ pair.place.parent_mem
  rw [List.append_assoc] at owned
  have apart := owned.apart pair.parent parentAbove
  have node : ∀ other ∈ Item.nodes (left ++ .node child :: right) ++ rest,
      ((tree.drop key).modify pair.parent fun node => { node with
        keys := node.keys.eraseIdx pair.before.length
        children := node.children.eraseIdx (pair.before.length + 1) }).node other = tree.node other := by
    intro other member
    rw [RawBTree.node_modify_of_ne _ fun same => apart (by rw [← same]; exact member)]
    rfl
  refine ⟨fun other member => ?_, fun other member => node other (List.mem_append_right _ member),
    rfl, rfl, rfl⟩
  rw [node other (List.mem_append_left _ member)]

/-- `internal_remove_at` climbs as far as it needs to. -/
theorem internalRemoveAt_removes {fuel : Nat} (enough : depth + 1 ≤ fuel) :
    RemovesSeparator layout (RawBTree.internalRemoveAt (K := K) (V := V) layout fuel) depth := by
  induction depth generalizing fuel with
  | zero =>
      intro tree root left right child gone key rest pair rootEq crown levelEq owned tall
      obtain ⟨fuel, rfl⟩ : ∃ less, fuel = less + 1 := ⟨fuel - 1, by omega⟩
      have thin := erase_thin pair rootEq crown owned
      obtain ⟨leftNil, rootParent, rightNil⟩ :
          pair.upLeft = [] ∧ pair.parent = root ∧ pair.upRight = [] := by
        have single := pair.level_eq
        cases front : pair.upLeft with
        | nil => simpa [level, front, eq_comm] using single
        | cons head tail => simp [level, front] at single
      set tree' := (tree.drop key).modify pair.parent fun node => { node with
        keys := node.keys.eraseIdx pair.before.length
        children := node.children.eraseIdx (pair.before.length + 1) } with treeDef
      have kept : Kept tree tree' (Item.nodes (left ++ .node child :: right)) rest :=
        erase_kept pair owned
      have rootSame : tree'.root = some pair.parent := rootEq.trans (by rw [rootParent])
      have opened : RawBTree.internalRemoveAt layout (fuel + 1) pair.parent pair.before.length tree =
          if (tree'.node pair.parent).keys.length = 0 then tree'.collapseRoot pair.parent else .ok tree' := by
        simp only [RawBTree.internalRemoveAt, pair.sep_found, bind, Except.bind, ← treeDef, rootSame, true_and,
          ne_eq, not_true_eq_false, and_false, if_false, pure, Except.pure]
      by_cases empty : (tree'.node pair.parent).keys.length = 0
      · have keysNil : (tree'.node pair.parent).keys = [] := List.length_eq_zero_iff.mp empty
        have paired := thin.paired
        rw [empty] at paired
        obtain ⟨only, childrenEq⟩ := List.length_eq_one_iff.mp paired
        have expands := thin.expands
        rw [leftNil, rightNil] at expands
        simp only [List.nil_append, List.flatMap_cons, List.flatMap_nil, List.append_nil, expand, keysNil,
          childrenEq, Item.row, Item.trail] at expands
        obtain ⟨rfl, rfl, rfl⟩ : left = [] ∧ child = only ∧ right = [] := by
          cases left with
          | nil => simpa [eq_comm] using expands
          | cons head tail => simp at expands
        have ownedRoot : Owned tree'.arena (root :: child :: rest) := by
          have all := thin.crownAt.owned
          rw [leftNil, rightNil, rootParent] at all
          exact all.perm (by simp [above])
        obtain ⟨rootApart, childNodup⟩ := List.nodup_cons.mp ownedRoot.nodup_idxs
        set final : RawBTree K V := { (tree'.setParent none child).freeNode root with
          root := some child, height := tree'.height - 1 } with finalDef
        have childNode : final.node child = { tree'.node child with parent := none } :=
          RawBTree.node_modify_self fun node => { node with parent := none }
        refine ⟨final, child, 0, ?_, ⟨⟨rfl, ?_, rfl, ?_⟩, ?_, ?_, rfl⟩, .inl rfl⟩
        · rw [opened, if_pos empty, RawBTree.collapseRoot, childrenEq, rootParent]
          rfl
        · exact congrArg Node.parent childNode
        · exact ownedRoot.free.of_same rfl rfl
        · refine @Kept.trans _ _ _ _ _ _ _ [child] rest kept
            ⟨fun other member => ?_, fun other member => ?_, rfl, rfl, rfl⟩
            (fun other member => .inl (by simpa using member)) fun other member => member
          · obtain rfl := List.mem_singleton.mp member
            rw [childNode]
            rfl
          · have different : other ≠ child := fun same => (List.nodup_cons.mp childNodup).1 (same ▸ member)
            exact RawBTree.node_modify_of_ne
              (fun node => { node with parent := none }) different
        · change tree.height - 1 + (0 + 1) = tree.height + 0
          omega
      · refine ⟨tree', root, 0 + 1, by rw [opened, if_neg empty],
          ⟨thin.complete (by omega), kept, rfl, rfl⟩, .inl rfl⟩
  | succ depth ih =>
      intro tree root left right child gone key rest pair rootEq crown levelEq owned tall
      obtain ⟨fuel, rfl⟩ : ∃ less, fuel = less + 1 := ⟨fuel - 1, by omega⟩
      have thin := erase_thin pair rootEq crown owned
      have kept := erase_kept pair owned
      set tree' := (tree.drop key).modify pair.parent fun node => { node with
        keys := node.keys.eraseIdx pair.before.length
        children := node.children.eraseIdx (pair.before.length + 1) } with treeDef
      have notRoot : tree.root ≠ some pair.parent := by
        rw [rootEq]
        intro same
        have sameRoot : root = pair.parent := Option.some.inj same
        rw [above, List.append_assoc, List.append_assoc] at owned
        have parentMem := pair.place.parent_mem
        rw [show pair.place.parent = root from sameRoot.symm] at parentMem
        exact owned.apart root (root_mem_above _ _ _) (List.mem_append_left _ parentMem)
      have lengthEq : (tree'.node pair.parent).keys.length = (tree.node pair.parent).keys.length - 1 := by
        rw [treeDef, RawBTree.node_modify_self]
        exact List.length_eraseIdx_of_lt pair.slot_lt
      have opened : RawBTree.internalRemoveAt layout (fuel + 1) pair.parent pair.before.length tree =
          if (tree'.node pair.parent).keys.length < layout.internalCap / 2 then
            tree'.rebalanceInternal layout (RawBTree.internalRemoveAt layout fuel) pair.parent
          else .ok tree' := by
        have rootSame : tree'.root = tree.root := rfl
        simp only [RawBTree.internalRemoveAt, pair.sep_found, bind, Except.bind, ← treeDef, rootSame, notRoot,
          false_and, if_false, ne_eq, not_false_eq_true, and_true, pure, Except.pure]
      have capTwo := layout.internalCap_two
      by_cases few : (tree'.node pair.parent).keys.length < layout.internalCap / 2
      · obtain ⟨final, root', depth', rebalanced, shrunk, ledger⟩ :=
          rebalanceInternal_shrunk (@ih fuel (by omega)) thin few
            (by change depth + 1 ≤ tree.height; omega)
        refine ⟨final, root', depth', by rw [opened, if_pos few]; exact rebalanced,
          ⟨shrunk.crownAt, kept.trans shrunk.kept (fun other member => .inl member) fun other member => member,
            shrunk.height, shrunk.nextId⟩, ?_⟩
        rcases ledger with same | crowded
        · exact .inl (by rw [same]; rfl)
        · refine .inr ⟨notRoot, by omega, ?_⟩
          obtain ⟨place⟩ := thin.crownAt.crown.locate thin.crownAt.level_eq
          have apart : place.parent ≠ pair.parent := by
            intro same
            have parentAbove : place.parent ∈ above tree'.node root (depth + 1) :=
              List.mem_append_right _ place.parent_mem
            refine (thin.crownAt.row_disjoint.1 place.parent parentAbove).1 ?_
            rw [same]
            simp
          have dropped : tree.crowded (fun node => node.keys.length) (layout.internalCap / 2) pair.parent =
            (tree.drop key).crowded (fun node => node.keys.length) (layout.internalCap / 2) pair.parent := rfl
          rw [← crowded, dropped]
          exact crowded_congr thin.crownAt.crown thin.crownAt.nodes_nodup place apart
            fun node => rfl
      · exact ⟨tree', root, depth + 1 + 1, by rw [opened, if_neg few],
          ⟨thin.complete (by omega), kept, rfl, rfl⟩, .inl rfl⟩

end Optimap.FlatBTree
