import Optimap.FlatBTree.Removal
import Optimap.FlatBTree.Crown

/-!
# Rotations between siblings

A thin node borrows a key and a child from a neighbour, through the separator in
their parent. The grouping of the level below changes, the level does not.
-/

set_option autoImplicit false
set_option linter.unusedSectionVars false

namespace Optimap.FlatBTree

open Lib

variable {K V : Type} {layout : NodeLayout} {tree tree' : RawBTree K V} {root : NodeIdx} {depth : Nat}
  {left right : List (LevelItem K)} {child next : NodeIdx} {key : KeyObj K} {rest : List NodeIdx}

theorem Pair.slot_lt {heap : Heap K V} (pair : Pair heap root depth left child key next right) :
    pair.before.length < (heap pair.parent).keys.length := by
  rw [pair.keys_eq, pair.before_paired]
  simp

/-- Replacing the separator between two siblings. -/
theorem CrownAt.setSeparator {newKey : KeyObj K}
    (crownAt : CrownAt layout tree root (depth + 1)
      (left ++ .node child :: .sep key :: .node next :: right) rest)
    (pair : Pair tree.node root depth left child key next right)
    (sameRoot : tree'.root = tree.root) (sameFree : tree'.arena.free = tree.arena.free)
    (sameLen : tree'.arena.len = tree.arena.len)
    (parentNode : tree'.node pair.parent = { tree.node pair.parent with
      keys := (tree.node pair.parent).keys.set pair.before.length newKey })
    (aboveSame : ∀ idx ∈ above tree.node root (depth + 1), idx ≠ pair.parent →
      tree'.node idx = tree.node idx)
    (parents : ∀ idx ∈ Item.nodes (left ++ .node child :: .sep key :: .node next :: right),
      (tree'.node idx).parent = (tree.node idx).parent) :
    CrownAt layout tree' root (depth + 1)
      (left ++ .node child :: .sep newKey :: .node next :: right) rest := by
  obtain ⟨upper, middle, lower, restNodup⟩ := crownAt.split_disjoint
  have crown := crownAt.crown
  have parentMem := pair.place.parent_mem
  have internal := crown.2 pair.parent parentMem
  have upperSame : ∀ idx ∈ above tree.node root depth, tree'.node idx = tree.node idx :=
    fun idx member => aboveSame idx (List.mem_append_left _ member)
      fun same => (upper idx member).1 (same ▸ parentMem)
  have levelSame : ∀ idx ∈ Item.nodes (level tree.node root depth), idx ≠ pair.parent →
      tree'.node idx = tree.node idx :=
    fun idx member => aboveSame idx (List.mem_append_right _ member)
  have base : CrownAt layout tree' root depth (pair.upLeft ++ [.node pair.parent] ++ pair.upRight)
      (Item.nodes (left ++ .node child :: .sep key :: .node next :: right) ++ rest) := by
    have popped := @CrownAt.update _ _ _ _ tree' _ _ _ _ crownAt.pop sameRoot sameFree sameLen upperSame ?_
    · rw [pair.level_eq] at popped
      simpa using popped
    · intro idx member
      by_cases same : idx = pair.parent
      · rw [same, parentNode]
      · rw [levelSame idx member same]
  have row : [.node pair.parent].flatMap (expand tree'.node) =
      Item.lead pair.before pair.keysBefore ++ .node child :: .sep newKey :: .node next ::
        Item.trail pair.keysAfter pair.after := by
    have keysEq : (tree.node pair.parent).keys.set pair.before.length newKey =
        pair.keysBefore ++ newKey :: pair.keysAfter := by
      rw [pair.keys_eq, pair.before_paired, List.set_append_right _ _ le_rfl]
      simp
    simp only [List.flatMap_cons, List.flatMap_nil, List.append_nil, expand, parentNode]
    rw [keysEq, pair.children_eq, Item.row_around child pair.before_paired, Item.trail]
  have items : pair.upLeft.flatMap (expand tree.node) ++ [.node pair.parent].flatMap (expand tree'.node) ++
      pair.upRight.flatMap (expand tree.node) =
        left ++ .node child :: .sep newKey :: .node next :: right := by
    have leftEq := pair.left_eq
    have rightEq := pair.right_eq
    rw [row]
    simp only [List.append_assoc, List.cons_append]
    rw [← rightEq, ← List.append_assoc, ← leftEq]
  have goal := @CrownAt.rebuild _ _ _ _ _ _ _ rest _ _ _ tree.node base ?_ ?_ ?_
  · rw [items] at goal
    exact goal
  · intro idx member
    obtain ⟨onLevel, notParent⟩ := pair.place.beside crownAt.pop.nodes_nodup idx member
    refine ⟨crown.2 idx onLevel, by rw [levelSame idx onLevel notParent], fun other isChild => ?_⟩
    exact parents other (crownAt.level_eq ▸ crown.child_mem onLevel isChild)
  · intro idx member
    obtain rfl : idx = pair.parent := by simpa using member
    refine ⟨?_, ?_, ?_, ?_, fun other isChild => ?_⟩
    · rw [parentNode]; exact internal.internal
    · rw [parentNode]; simpa using internal.paired
    · rw [parentNode]; simpa using internal.nonempty
    · rw [parentNode]; simpa using internal.fits
    · rw [parentNode] at isChild
      rw [parents other (crownAt.level_eq ▸ crown.child_mem parentMem isChild)]
      exact internal.parents other isChild
  · rw [items]
    simp

theorem CrownAt.row_disjoint {items : List (LevelItem K)} {low : List NodeIdx}
    (crownAt : CrownAt layout tree root depth items (low ++ rest)) :
    (∀ idx ∈ above tree.node root depth, idx ∉ Item.nodes items ∧ idx ∉ low ∧ idx ∉ rest) ∧
    (∀ idx ∈ Item.nodes items, idx ∉ low ∧ idx ∉ rest) ∧
    (∀ idx ∈ low, idx ∉ rest) ∧ (Item.nodes items).Nodup ∧ low.Nodup := by
  have nodup := crownAt.nodup
  simp only [List.nodup_append, List.mem_append] at nodup
  obtain ⟨⟨_, rowNodup, upper⟩, ⟨lowNodup, _, lower⟩, other⟩ := nodup
  refine ⟨fun idx member => ⟨?_, ?_, ?_⟩, fun idx member => ⟨?_, ?_⟩, ?_, rowNodup, lowNodup⟩
  · exact fun inside => upper idx member idx inside rfl
  · exact fun inside => other idx (.inl member) idx (.inl inside) rfl
  · exact fun inside => other idx (.inl member) idx (.inr inside) rfl
  · exact fun inside => other idx (.inr member) idx (.inl inside) rfl
  · exact fun inside => other idx (.inr member) idx (.inr inside) rfl
  · exact fun idx member inside => lower idx member idx inside rfl

/-- Level `depth` with one node that may have too few keys; the level below it is
`low`. -/
structure Thin (layout : NodeLayout) (tree : RawBTree K V) (root : NodeIdx) (depth : Nat)
    (upLeft : List (LevelItem K)) (idx : NodeIdx) (upRight low : List (LevelItem K))
    (rest : List NodeIdx) : Prop where
  crownAt : CrownAt layout tree root depth (upLeft ++ .node idx :: upRight) (Item.nodes low ++ rest)
  others : ∀ other ∈ Item.nodes upLeft ++ Item.nodes upRight, InternalOk tree.node layout other
  internal : (tree.node idx).isLeaf = false
  paired : (tree.node idx).children.length = (tree.node idx).keys.length + 1
  fits : (tree.node idx).keys.length ≤ layout.internalCap
  parents : ∀ other ∈ (tree.node idx).children, (tree.node other).parent = some idx
  expands : (upLeft ++ .node idx :: upRight).flatMap (expand tree.node) = low

/-- The level ends up as `items`, under a crown that may have lost its root. -/
structure Shrunk (layout : NodeLayout) (tree : RawBTree K V) (depth : Nat)
    (row : List NodeIdx) (items : List (LevelItem K)) (rest : List NodeIdx)
    (tree' : RawBTree K V) (root' : NodeIdx) (depth' : Nat) : Prop where
  crownAt : CrownAt layout tree' root' depth' items rest
  kept : Kept tree tree' row rest
  height : tree'.height + depth = tree.height + depth'
  nextId : tree'.ledger.nextId = tree.ledger.nextId

namespace Thin

variable {upLeft upRight low : List (LevelItem K)} {idx : NodeIdx}

theorem paired_all (thin : Thin layout tree root depth upLeft idx upRight low rest) :
    ∀ other ∈ Item.nodes (upLeft ++ .node idx :: upRight),
      (tree.node other).children.length = (tree.node other).keys.length + 1 := by
  intro other member
  simp only [Item.nodes_append, Item.nodes_node, List.mem_append, List.mem_cons] at member
  rcases member with member | rfl | member
  · exact (thin.others other (List.mem_append_left _ member)).paired
  · exact thin.paired
  · exact (thin.others other (List.mem_append_right _ member)).paired

theorem parents_all (thin : Thin layout tree root depth upLeft idx upRight low rest) :
    ∀ other ∈ Item.nodes (upLeft ++ .node idx :: upRight), ∀ below ∈ (tree.node other).children,
      (tree.node below).parent = some other := by
  intro other member
  simp only [Item.nodes_append, Item.nodes_node, List.mem_append, List.mem_cons] at member
  rcases member with member | rfl | member
  · exact (thin.others other (List.mem_append_left _ member)).parents
  · exact thin.parents
  · exact (thin.others other (List.mem_append_right _ member)).parents

theorem nodes_low (thin : Thin layout tree root depth upLeft idx upRight low rest) :
    Item.nodes low = (Item.nodes (upLeft ++ .node idx :: upRight)).flatMap
      fun other => (tree.node other).children := by
  rw [← thin.expands]
  exact nodes_expand thin.paired_all

theorem child_mem (thin : Thin layout tree root depth upLeft idx upRight low rest) {other below : NodeIdx}
    (member : other ∈ Item.nodes (upLeft ++ .node idx :: upRight))
    (isChild : below ∈ (tree.node other).children) : below ∈ Item.nodes low := by
  rw [thin.nodes_low]
  exact List.mem_flatMap.mpr ⟨other, member, isChild⟩

theorem children_nodup (thin : Thin layout tree root depth upLeft idx upRight low rest) {other : NodeIdx}
    (member : other ∈ Item.nodes (upLeft ++ .node idx :: upRight)) :
    (tree.node other).children.Nodup := by
  have lowNodup : (Item.nodes low).Nodup :=
    thin.crownAt.nodup.sublist ((List.sublist_append_left _ _).trans (List.sublist_append_right _ _))
  refine lowNodup.sublist ?_
  rw [thin.nodes_low]
  obtain ⟨front, back, split⟩ := List.append_of_mem member
  rw [split, List.flatMap_append, List.flatMap_cons]
  exact (List.sublist_append_left _ _).trans (List.sublist_append_right _ _)

end Thin

/-- Two siblings exchange keys and children through their parent. The level below
does not notice. -/
theorem CrownAt.rotate {low : List (LevelItem K)} {newKey : KeyObj K}
    (crownAt : CrownAt layout tree root (depth + 1)
      (left ++ .node child :: .sep key :: .node next :: right) (Item.nodes low ++ rest))
    (pair : Pair tree.node root depth left child key next right)
    (expands : (left ++ .node child :: .sep key :: .node next :: right).flatMap (expand tree.node) = low)
    (frame : RawBTree.SameFrame tree tree')
    (parentNode : tree'.node pair.parent = { tree.node pair.parent with
      keys := (tree.node pair.parent).keys.set pair.before.length newKey })
    (aboveSame : ∀ idx ∈ above tree.node root (depth + 1), idx ≠ pair.parent →
      tree'.node idx = tree.node idx)
    (rowParents : ∀ idx ∈ Item.nodes (left ++ .node child :: .sep key :: .node next :: right),
      (tree'.node idx).parent = (tree.node idx).parent)
    (beside : ∀ idx ∈ Item.nodes left ++ Item.nodes right, InternalOk tree'.node layout idx ∧
      tree'.node idx = tree.node idx)
    (childOk : InternalOk tree'.node layout child) (nextOk : InternalOk tree'.node layout next)
    (rows : expand tree'.node (.node child) ++ .sep newKey :: expand tree'.node (.node next) =
      expand tree.node (.node child) ++ .sep key :: expand tree.node (.node next)) :
    CrownAt layout tree' root (depth + 1 + 1) low rest := by
  have upper := crownAt.setSeparator pair frame.root frame.free frame.arenaLen parentNode aboveSame rowParents
  have same : (left ++ .node child :: .sep newKey :: .node next :: right).flatMap (expand tree'.node) = low := by
    rw [← expands]
    simp only [List.flatMap_append, List.flatMap_cons]
    rw [flatMap_expand_congr fun idx member => (beside idx (List.mem_append_left _ member)).2,
      flatMap_expand_congr fun idx member => (beside idx (List.mem_append_right _ member)).2]
    have joined := congrArg (· ++ right.flatMap (expand tree.node)) rows
    simp only [List.append_assoc, List.cons_append] at joined
    simp only [expand, List.cons_append, List.nil_append] at joined ⊢
    rw [joined]
  have pushed := @CrownAt.push _ _ _ _ _ _ _ _ rest upper ?_ ?_
  · rw [same] at pushed
    exact pushed
  · intro idx member
    simp only [Item.nodes_append, Item.nodes_node, Item.nodes_sep, List.mem_append, List.mem_cons] at member
    rcases member with member | rfl | rfl | member
    · exact (beside idx (List.mem_append_left _ member)).1
    · exact childOk
    · exact nextOk
    · exact (beside idx (List.mem_append_right _ member)).1
  · rw [same]

/-- What a rotation does to the heap: `moved` gets a new parent, the two siblings
and their parent get new keys and children. -/
structure Rotated (tree tree' : RawBTree K V) (child next moved parent : NodeIdx) (slot : Nat)
    (newKey : KeyObj K) (newOwner : NodeIdx) : Prop where
  frame : RawBTree.SameFrame tree tree'
  parentNode : tree'.node parent =
    { tree.node parent with keys := (tree.node parent).keys.set slot newKey }
  childParent : (tree'.node child).parent = (tree.node child).parent
  nextParent : (tree'.node next).parent = (tree.node next).parent
  movedNode : tree'.node moved = { tree.node moved with parent := some newOwner }
  node : ∀ other, other ≠ parent → other ≠ child → other ≠ next → other ≠ moved →
    tree'.node other = tree.node other

/-- The nodes of a row beside two neighbours. -/
theorem beside_row
    (rowNodup : (Item.nodes (left ++ .node child :: .sep key :: .node next :: right)).Nodup) :
    ∀ other ∈ Item.nodes left ++ Item.nodes right,
      other ∈ Item.nodes (left ++ .node child :: .sep key :: .node next :: right) ∧
        other ≠ child ∧ other ≠ next := by
  intro other member
  have onRow : other ∈ Item.nodes (left ++ .node child :: .sep key :: .node next :: right) := by
    simp only [Item.nodes_append, Item.nodes_node, Item.nodes_sep, List.mem_append, List.mem_cons] at member ⊢
    tauto
  simp only [Item.nodes_append, Item.nodes_node, Item.nodes_sep] at rowNodup
  have apart := List.nodup_cons.mp (List.nodup_middle.mp rowNodup)
  have apartNext := List.nodup_cons.mp (List.nodup_middle.mp apart.2)
  refine ⟨onRow, fun same => ?_, fun same => ?_⟩
  · subst same
    refine apart.1 ?_
    simp only [List.mem_append, List.mem_cons] at member ⊢
    tauto
  · exact apartNext.1 (same ▸ member)

theorem Rotated.spec {low : List (LevelItem K)} {newKey : KeyObj K} {moved newOwner : NodeIdx}
    (crownAt : CrownAt layout tree root (depth + 1)
      (left ++ .node child :: .sep key :: .node next :: right) (Item.nodes low ++ rest))
    (pair : Pair tree.node root depth left child key next right)
    (expands : (left ++ .node child :: .sep key :: .node next :: right).flatMap (expand tree.node) = low)
    (beside : ∀ other ∈ Item.nodes left ++ Item.nodes right, InternalOk tree.node layout other)
    (paired : ∀ other ∈ [child, next],
      (tree.node other).children.length = (tree.node other).keys.length + 1)
    (movedLow : moved ∈ Item.nodes low)
    (movedOwner : ∃ owner ∈ [child, next], (tree.node moved).parent = some owner)
    (rotated : Rotated tree tree' child next moved pair.parent pair.before.length newKey newOwner)
    (childOk : InternalOk tree'.node layout child) (nextOk : InternalOk tree'.node layout next)
    (rows : expand tree'.node (.node child) ++ .sep newKey :: expand tree'.node (.node next) =
      expand tree.node (.node child) ++ .sep key :: expand tree.node (.node next)) :
    CrownAt layout tree' root (depth + 1 + 1) low rest ∧ Kept tree tree' (Item.nodes low) rest := by
  obtain ⟨upper, middle, lower, rowNodup, lowNodup⟩ := crownAt.row_disjoint
  have parentAbove : pair.parent ∈ above tree.node root (depth + 1) :=
    List.mem_append_right _ pair.place.parent_mem
  have childMem : child ∈ Item.nodes (left ++ .node child :: .sep key :: .node next :: right) := by simp
  have nextMem : next ∈ Item.nodes (left ++ .node child :: .sep key :: .node next :: right) := by simp
  have rowNode : ∀ other ∈ Item.nodes (left ++ .node child :: .sep key :: .node next :: right),
      other ≠ child → other ≠ next → tree'.node other = tree.node other := by
    intro other member notChild notNext
    refine rotated.node other (fun same => ?_) notChild notNext fun same => ?_
    · exact (upper _ parentAbove).1 (same ▸ member)
    · exact (middle other member).1 (same ▸ movedLow)
  have lowNode : ∀ other ∈ Item.nodes low, other ≠ moved → tree'.node other = tree.node other := by
    intro other member notMoved
    refine rotated.node other (fun same => ?_) (fun same => ?_) (fun same => ?_) notMoved
    · exact (upper _ parentAbove).2.1 (same ▸ member)
    · exact (middle child childMem).1 (same ▸ member)
    · exact (middle next nextMem).1 (same ▸ member)
  have besideRow := beside_row rowNodup
  refine ⟨crownAt.rotate pair expands rotated.frame rotated.parentNode ?_ ?_ ?_ childOk nextOk rows, ?_⟩
  · intro other member notParent
    refine rotated.node other notParent (fun same => ?_) (fun same => ?_) fun same => ?_
    · exact (upper other member).1 (same ▸ childMem)
    · exact (upper other member).1 (same ▸ nextMem)
    · exact (upper other member).2.1 (same ▸ movedLow)
  · intro other member
    by_cases isChild : other = child
    · rw [isChild]; exact rotated.childParent
    · by_cases isNext : other = next
      · rw [isNext]; exact rotated.nextParent
      · rw [rowNode other member isChild isNext]
  · intro other member
    obtain ⟨onRow, notChild, notNext⟩ := besideRow other member
    have same := rowNode other onRow notChild notNext
    refine ⟨(beside other member).congr (by rw [same]) fun below isBelow => ?_, same⟩
    have belowLow : below ∈ Item.nodes low := by
      rw [← expands, nodes_expand]
      · exact List.mem_flatMap.mpr ⟨other, onRow, isBelow⟩
      · intro idx idxMem
        by_cases isChild : idx = child
        · exact paired idx (by simp [isChild])
        · by_cases isNext : idx = next
          · exact paired idx (by simp [isNext])
          · refine (beside idx ?_).paired
            simp only [Item.nodes_append, Item.nodes_node, Item.nodes_sep, List.mem_append,
              List.mem_cons] at idxMem ⊢
            tauto
    rw [lowNode below belowLow]
    intro isMoved
    obtain ⟨owner, ownerMem, owned⟩ := movedOwner
    have owner_eq := (beside other member).parents below isBelow
    rw [isMoved, owned] at owner_eq
    obtain rfl := Option.some.inj owner_eq
    simp only [List.mem_cons, List.not_mem_nil, or_false] at ownerMem
    tauto
  · refine ⟨fun other member => ?_, fun other member => ?_, rotated.frame.firstLeaf,
      rotated.frame.lastLeaf, rotated.frame.len⟩
    · by_cases isMoved : other = moved
      · rw [isMoved, rotated.movedNode]
        rfl
      · rw [lowNode other member isMoved]
    · refine rotated.node other (fun same => ?_) (fun same => ?_) (fun same => ?_) fun same => ?_
      · exact (upper _ parentAbove).2.2 (same ▸ member)
      · exact (middle child childMem).2 (same ▸ member)
      · exact (middle next nextMem).2 (same ▸ member)
      · exact lower moved movedLow (same ▸ member)

theorem Thin.stealRight {upLeft upRight low : List (LevelItem K)} {idx : NodeIdx}
    (thin : Thin layout tree root (depth + 1) upLeft idx (.sep key :: .node next :: upRight) low rest)
    (pair : Pair tree.node root depth upLeft idx key next upRight)
    (few : (tree.node idx).keys.length < layout.internalCap)
    (many : 1 < (tree.node next).keys.length) :
    ∃ tree', tree.stealInternalRight idx next pair.parent pair.before.length = .ok tree' ∧
      CrownAt layout tree' root (depth + 1 + 1) low rest ∧ Kept tree tree' (Item.nodes low) rest ∧
      tree'.height = tree.height ∧ tree'.ledger = tree.ledger := by
  obtain ⟨upper, middle, lower, rowNodup, lowNodup⟩ := thin.crownAt.row_disjoint
  have nextMem : next ∈ Item.nodes (upLeft ++ .node idx :: .sep key :: .node next :: upRight) := by simp
  have idxMem : idx ∈ Item.nodes (upLeft ++ .node idx :: .sep key :: .node next :: upRight) := by simp
  have nextOk := thin.others next (by simp)
  obtain ⟨newSep, nextKeys, keysEq⟩ : ∃ newSep nextKeys, (tree.node next).keys = newSep :: nextKeys :=
    List.exists_cons_of_length_pos (by omega)
  obtain ⟨moved, nextChildren, childrenEq⟩ : ∃ moved nextChildren,
      (tree.node next).children = moved :: nextChildren :=
    List.exists_cons_of_length_pos (by rw [nextOk.paired]; omega)
  have movedLow : moved ∈ Item.nodes low := thin.child_mem nextMem (by rw [childrenEq]; simp)
  have parentAbove : pair.parent ∈ above tree.node root (depth + 1) :=
    List.mem_append_right _ pair.place.parent_mem
  have parentRow := (upper _ parentAbove).1
  have parentLow := (upper _ parentAbove).2.1
  have idxNext : idx ≠ next := by
    intro same
    subst same
    have split := List.nodup_cons.mp (List.nodup_middle.mp (by simpa using rowNodup))
    exact split.1 (by simp)
  have parentIdx : pair.parent ≠ idx := fun same => parentRow (by rw [same]; exact idxMem)
  have parentNext : pair.parent ≠ next := fun same => parentRow (by rw [same]; exact nextMem)
  have parentMoved : pair.parent ≠ moved := fun same => parentLow (same ▸ movedLow)
  have idxMoved : idx ≠ moved := fun same => (middle idx idxMem).1 (same ▸ movedLow)
  have nextMoved : next ≠ moved := fun same => (middle next nextMem).1 (same ▸ movedLow)
  have sepFound : (tree.node pair.parent).keys[pair.before.length]? = some key := by
    rw [pair.keys_eq, pair.before_paired]
    simp
  set tree' := (((tree.modify idx fun node =>
      { node with keys := node.keys ++ [key], children := node.children ++ [moved] }).setParent
        (some idx) moved).modify pair.parent fun node =>
          { node with keys := node.keys.set pair.before.length newSep }).modify next fun node =>
            { node with keys := node.keys.tail, children := node.children.tail } with treeDef
  have returned : tree.stealInternalRight idx next pair.parent pair.before.length = .ok tree' := by
    simp only [RawBTree.stealInternalRight, readSlot, sepFound, childrenEq, keysEq,
      List.getElem?_cons_zero, bind, Except.bind, pure, Except.pure, treeDef]
  have parentNode : tree'.node pair.parent = { tree.node pair.parent with
      keys := (tree.node pair.parent).keys.set pair.before.length newSep } := by
    simp [treeDef, RawBTree.setParent, RawBTree.node_modify, parentNext, parentMoved, parentIdx]
  have idxNode : tree'.node idx = { tree.node idx with
      keys := (tree.node idx).keys ++ [key], children := (tree.node idx).children ++ [moved] } := by
    simp [treeDef, RawBTree.setParent, RawBTree.node_modify, idxNext, idxMoved, parentIdx.symm]
  have nextNode : tree'.node next = { tree.node next with keys := nextKeys, children := nextChildren } := by
    simp [treeDef, RawBTree.setParent, RawBTree.node_modify, idxNext.symm, nextMoved, parentNext.symm,
      keysEq, childrenEq]
  have movedNode : tree'.node moved = { tree.node moved with parent := some idx } := by
    simp [treeDef, RawBTree.setParent, RawBTree.node_modify, idxMoved.symm, nextMoved.symm, parentMoved.symm]
  have node : ∀ other, other ≠ pair.parent → other ≠ idx → other ≠ next → other ≠ moved →
      tree'.node other = tree.node other := by
    intro other notParent notIdx notNext notMoved
    simp [treeDef, RawBTree.setParent, RawBTree.node_modify, notParent, notIdx, notNext, notMoved]
  have rotated : Rotated tree tree' idx next moved pair.parent pair.before.length newSep idx :=
    ⟨⟨rfl, rfl, rfl, rfl, rfl, rfl, rfl, rfl⟩, parentNode, by rw [idxNode], by rw [nextNode], movedNode, node⟩
  have nextParents := nextOk.parents
  rw [childrenEq] at nextParents
  have childNode : ∀ below ∈ Item.nodes low, below ≠ moved → tree'.node below = tree.node below := by
    intro below member notMoved
    refine node below (fun same => ?_) (fun same => ?_) (fun same => ?_) notMoved
    · exact parentLow (same ▸ member)
    · exact (middle idx idxMem).1 (same ▸ member)
    · exact (middle next nextMem).1 (same ▸ member)
  have nextPaired := nextOk.paired
  rw [childrenEq, keysEq] at nextPaired
  rw [keysEq] at many
  simp only [List.length_cons] at nextPaired many
  have result := rotated.spec thin.crownAt pair thin.expands ?_ ?_ movedLow
    ⟨next, by simp, nextParents moved List.mem_cons_self⟩ ?_ ?_ ?_
  · exact ⟨tree', returned, result.1, result.2, rfl, rfl⟩
  · exact fun other member => thin.others other (by simp at member ⊢; tauto)
  · exact fun other member => thin.paired_all other (by simp at member ⊢; tauto)
  · refine ⟨?_, ?_, ?_, ?_, fun below isBelow => ?_⟩
    · rw [idxNode]; exact thin.internal
    · rw [idxNode]; simpa using thin.paired
    · rw [idxNode]; simp
    · rw [idxNode]; simpa using few
    · rw [idxNode] at isBelow
      rcases List.mem_append.mp isBelow with isOld | isMoved
      · rw [childNode below (thin.child_mem idxMem isOld), thin.parents below isOld]
        rintro rfl
        have twice := (thin.parents below isOld).symm.trans (nextParents below List.mem_cons_self)
        exact idxNext (Option.some.inj twice)
      · obtain rfl := List.mem_singleton.mp isMoved
        rw [movedNode]
  · refine ⟨?_, ?_, ?_, ?_, fun below isBelow => ?_⟩
    · rw [nextNode]; exact nextOk.internal
    · rw [nextNode]; dsimp only; omega
    · rw [nextNode]; dsimp only; omega
    · have fits := nextOk.fits
      rw [keysEq, List.length_cons] at fits
      rw [nextNode]
      dsimp only
      omega
    · rw [nextNode] at isBelow
      have unique := thin.children_nodup nextMem
      rw [childrenEq] at unique
      rw [childNode below (thin.child_mem nextMem (by rw [childrenEq]; exact List.mem_cons_of_mem _ isBelow)),
        nextParents below (List.mem_cons_of_mem _ isBelow)]
      rintro rfl
      exact (List.nodup_cons.mp unique).1 isBelow
  · have ownRow := @Item.row_append_sep _ _ _ [] _ [moved] key thin.paired (by simp)
    have nonempty : nextChildren ≠ [] := by
      rintro rfl
      simp at nextPaired
    have nextRow := @Item.row_append_sep _ _ [] nextKeys [moved] _ newSep (by simp) nonempty
    simp only [List.nil_append, List.cons_append] at nextRow
    simp only [expand, idxNode, nextNode, keysEq, childrenEq, ownRow, nextRow]
    simp

theorem Thin.stealLeft {upLeft upRight low : List (LevelItem K)} {idx prev : NodeIdx}
    (thin : Thin layout tree root (depth + 1) (upLeft ++ [.node prev, .sep key]) idx upRight low rest)
    (pair : Pair tree.node root depth upLeft prev key idx upRight)
    (few : (tree.node idx).keys.length < layout.internalCap)
    (many : 1 < (tree.node prev).keys.length) :
    ∃ tree', tree.stealInternalLeft idx prev pair.parent pair.before.length = .ok tree' ∧
      CrownAt layout tree' root (depth + 1 + 1) low rest ∧ Kept tree tree' (Item.nodes low) rest ∧
      tree'.height = tree.height ∧ tree'.ledger = tree.ledger := by
  obtain ⟨upper, middle, lower, rowNodup, lowNodup⟩ := thin.crownAt.row_disjoint
  have prevMem : prev ∈ Item.nodes ((upLeft ++ [.node prev, .sep key]) ++ .node idx :: upRight) := by simp
  have idxMem : idx ∈ Item.nodes ((upLeft ++ [.node prev, .sep key]) ++ .node idx :: upRight) := by simp
  have prevOk := thin.others prev (by simp)
  obtain ⟨prevKeys, newSep, keysEq⟩ : ∃ prevKeys newSep, (tree.node prev).keys = prevKeys ++ [newSep] := by
    rcases List.eq_nil_or_concat (tree.node prev).keys with empty | ⟨front, last, same⟩
    · rw [empty] at many; simp at many
    · exact ⟨front, last, by simpa using same⟩
  obtain ⟨prevChildren, moved, childrenEq⟩ : ∃ prevChildren moved,
      (tree.node prev).children = prevChildren ++ [moved] := by
    rcases List.eq_nil_or_concat (tree.node prev).children with empty | ⟨front, last, same⟩
    · have paired := prevOk.paired
      rw [empty] at paired; simp at paired
    · exact ⟨front, last, by simpa using same⟩
  have prevPaired := prevOk.paired
  have prevFits := prevOk.fits
  rw [childrenEq, keysEq] at prevPaired
  rw [keysEq] at many prevFits
  simp only [List.length_append, List.length_cons, List.length_nil, Nat.zero_add] at prevPaired many prevFits
  have movedLow : moved ∈ Item.nodes low := thin.child_mem prevMem (by rw [childrenEq]; simp)
  have parentAbove : pair.parent ∈ above tree.node root (depth + 1) :=
    List.mem_append_right _ pair.place.parent_mem
  have parentRow := (upper _ parentAbove).1
  have parentLow := (upper _ parentAbove).2.1
  have idxPrev : idx ≠ prev := by
    intro same
    subst same
    have split := List.nodup_cons.mp (List.nodup_middle.mp (by simpa using rowNodup))
    exact split.1 (by simp)
  have parentIdx : pair.parent ≠ idx := fun same => parentRow (by rw [same]; exact idxMem)
  have parentPrev : pair.parent ≠ prev := fun same => parentRow (by rw [same]; exact prevMem)
  have parentMoved : pair.parent ≠ moved := fun same => parentLow (same ▸ movedLow)
  have idxMoved : idx ≠ moved := fun same => (middle idx idxMem).1 (same ▸ movedLow)
  have prevMoved : prev ≠ moved := fun same => (middle prev prevMem).1 (same ▸ movedLow)
  have sepFound : (tree.node pair.parent).keys[pair.before.length]? = some key := by
    rw [pair.keys_eq, pair.before_paired]
    simp
  have childrenLength : prevChildren.length = (tree.node prev).keys.length := by
    rw [keysEq]; simp; omega
  have movedFound : (tree.node prev).children[(tree.node prev).keys.length]? = some moved := by
    rw [childrenEq, ← childrenLength]; simp
  have sepIndex : (tree.node prev).keys.length - 1 = prevKeys.length := by rw [keysEq]; simp
  have newSepFound : (tree.node prev).keys[(tree.node prev).keys.length - 1]? = some newSep := by
    rw [sepIndex, keysEq]; simp
  set tree' := (((tree.modify idx fun node =>
      { node with keys := key :: node.keys, children := moved :: node.children }).setParent
        (some idx) moved).modify prev fun node =>
          { node with
            keys := node.keys.take ((tree.node prev).keys.length - 1)
            children := node.children.take (tree.node prev).keys.length }).modify pair.parent fun node =>
              { node with keys := node.keys.set pair.before.length newSep } with treeDef
  have returned : tree.stealInternalLeft idx prev pair.parent pair.before.length = .ok tree' := by
    simp only [RawBTree.stealInternalLeft, readSlot, sepFound, movedFound, newSepFound, bind, Except.bind,
      pure, Except.pure, treeDef]
  have parentNode : tree'.node pair.parent = { tree.node pair.parent with
      keys := (tree.node pair.parent).keys.set pair.before.length newSep } := by
    simp [treeDef, RawBTree.setParent, RawBTree.node_modify, parentPrev, parentMoved, parentIdx]
  have idxNode : tree'.node idx = { tree.node idx with
      keys := key :: (tree.node idx).keys, children := moved :: (tree.node idx).children } := by
    simp [treeDef, RawBTree.setParent, RawBTree.node_modify, idxPrev, idxMoved, parentIdx.symm]
  have prevNode : tree'.node prev = { tree.node prev with keys := prevKeys, children := prevChildren } := by
    simp only [treeDef, RawBTree.setParent, RawBTree.node_modify, idxPrev.symm, prevMoved, parentPrev.symm,
      if_false, if_true, sepIndex]
    rw [keysEq, childrenEq]
    simp only [List.take_left]
    rw [List.take_left' (by simp; omega)]
  have movedNode : tree'.node moved = { tree.node moved with parent := some idx } := by
    simp [treeDef, RawBTree.setParent, RawBTree.node_modify, idxMoved.symm, prevMoved.symm, parentMoved.symm]
  have node : ∀ other, other ≠ pair.parent → other ≠ prev → other ≠ idx → other ≠ moved →
      tree'.node other = tree.node other := by
    intro other notParent notPrev notIdx notMoved
    simp [treeDef, RawBTree.setParent, RawBTree.node_modify, notParent, notIdx, notPrev, notMoved]
  have rotated : Rotated tree tree' prev idx moved pair.parent pair.before.length newSep idx :=
    ⟨⟨rfl, rfl, rfl, rfl, rfl, rfl, rfl, rfl⟩, parentNode, by rw [prevNode], by rw [idxNode], movedNode, node⟩
  have prevParents := prevOk.parents
  rw [childrenEq] at prevParents
  have childNode : ∀ below ∈ Item.nodes low, below ≠ moved → tree'.node below = tree.node below := by
    intro below member notMoved
    refine node below (fun same => ?_) (fun same => ?_) (fun same => ?_) notMoved
    · exact parentLow (same ▸ member)
    · exact (middle prev prevMem).1 (same ▸ member)
    · exact (middle idx idxMem).1 (same ▸ member)
  have crownAt := thin.crownAt
  have expands := thin.expands
  simp only [List.append_assoc, List.cons_append, List.nil_append] at crownAt expands
  have result := rotated.spec crownAt pair expands ?_ ?_ movedLow
    ⟨prev, by simp, prevParents moved (by simp)⟩ ?_ ?_ ?_
  · exact ⟨tree', returned, result.1, result.2, rfl, rfl⟩
  · exact fun other member => thin.others other (by simp at member ⊢; tauto)
  · exact fun other member => thin.paired_all other (by simp at member ⊢; tauto)
  · refine ⟨?_, ?_, ?_, ?_, fun below isBelow => ?_⟩
    · rw [prevNode]; exact prevOk.internal
    · rw [prevNode]; dsimp only; omega
    · rw [prevNode]; dsimp only; omega
    · rw [prevNode]; dsimp only; omega
    · rw [prevNode] at isBelow
      have unique := thin.children_nodup prevMem
      rw [childrenEq] at unique
      rw [childNode below (thin.child_mem prevMem (by rw [childrenEq]; exact List.mem_append_left _ isBelow)),
        prevParents below (List.mem_append_left _ isBelow)]
      rintro rfl
      exact (List.nodup_append.mp unique).2.2 below isBelow below List.mem_cons_self rfl
  · refine ⟨?_, ?_, ?_, ?_, fun below isBelow => ?_⟩
    · rw [idxNode]; exact thin.internal
    · rw [idxNode]; simpa using thin.paired
    · rw [idxNode]; simp
    · rw [idxNode]; simpa using few
    · rw [idxNode] at isBelow
      rcases List.mem_cons.mp isBelow with rfl | isOld
      · rw [movedNode]
      · rw [childNode below (thin.child_mem idxMem isOld), thin.parents below isOld]
        rintro rfl
        have twice := (thin.parents below isOld).symm.trans (prevParents below (by simp))
        exact idxPrev (Option.some.inj twice)
  · have nonempty : (tree.node idx).children ≠ [] := by
      intro empty
      have paired := thin.paired
      rw [empty] at paired
      simp at paired
    have ownRow := @Item.row_append_sep _ _ [] (tree.node idx).keys [moved] _ key (by simp) nonempty
    have prevRow := @Item.row_append_sep _ _ prevKeys [] prevChildren [moved] newSep (by omega) (by simp)
    simp only [List.nil_append, List.cons_append] at ownRow
    simp only [expand, idxNode, prevNode, keysEq, childrenEq, ownRow, prevRow]
    simp

end Optimap.FlatBTree
