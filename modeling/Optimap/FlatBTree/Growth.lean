import Optimap.FlatBTree.Crown

/-!
# Splits on their way up

A node of a level gets a new right neighbour. Whether its parent has room, splits
in turn or is missing, the level ends up with the new separator and node in place,
and everything on it and below it keeps its contents.
-/

set_option autoImplicit false
set_option linter.unusedSectionVars false

namespace Optimap.FlatBTree

open Lib

variable {K V : Type}

/-- A level got a new node and separator behind `child`, somewhere in the process
a new root perhaps. -/
structure Grown (layout : NodeLayout) (tree : RawBTree K V) (depth : Nat)
    (row : List NodeIdx) (items : List (LevelItem K)) (rest : List NodeIdx)
    (tree' : RawBTree K V) (root' : NodeIdx) (depth' : Nat) : Prop where
  crownAt : CrownAt layout tree' root' depth' items rest
  kept : Kept tree tree' row rest
  height : tree'.height + depth = tree.height + depth'
  ledger : tree'.ledger = tree.ledger

section Steps
variable {layout : NodeLayout} {tree : RawBTree K V} {root child sibling : NodeIdx} {depth : Nat}
  {left right : List (LevelItem K)} {rest : List NodeIdx}

theorem installRoot_grown (key : KeyObj K)
    (crownAt : CrownAt layout tree root 0 [.node root] (sibling :: rest)) :
    ∃ root', Grown layout tree 0 [root, sibling] [.node root, .sep key, .node sibling] rest
      (tree.installRoot key root sibling) root' 1 := by
  obtain ⟨allocated, unchanged⟩ := crownAt.alloc
  have distinct := allocated.nodup
  set root' := tree.allocNode.1 with rootDef
  simp only [above, Item.nodes_node, Item.nodes_nil, List.nil_append, List.cons_append,
    List.nodup_cons, List.mem_cons, not_or] at distinct
  obtain ⟨⟨rootFresh, rootSibling, rootRest⟩, ⟨freshSibling, freshRest⟩, siblingRest, restNodup⟩ := distinct
  have node : ∀ idx, (tree.installRoot key root sibling).node idx =
      if idx = root ∨ idx = sibling then { tree.allocNode.2.node idx with parent := some root' }
      else if idx = root' then
        { tree.allocNode.2.node idx with
          isLeaf := false, parent := none, keys := [key], children := [root, sibling] }
      else tree.allocNode.2.node idx := by
    intro idx
    have read : (tree.installRoot key root sibling).node idx =
        ((tree.allocNode.2.modify root' fun node =>
          { node with isLeaf := false, parent := none, keys := [key], children := [root, sibling] }).setParents
            (some root') [root, sibling]).node idx := rfl
    rw [read, RawBTree.node_setParents, RawBTree.node_modify]
    by_cases isRoot : idx = root'
    · subst isRoot
      simp [Ne.symm rootFresh, freshSibling]
    · simp [isRoot]
  have rootNode := node root'
  rw [if_neg (by simp [Ne.symm rootFresh, freshSibling]), if_pos rfl] at rootNode
  have oldNode : ∀ idx, idx ∈ [root, sibling] →
      (tree.installRoot key root sibling).node idx = { tree.node idx with parent := some root' } := by
    intro idx member
    rw [node, if_pos (by simpa using member), (unchanged idx (by simp [above] at member ⊢; tauto)).2]
  have frame : RawBTree.SameFrame (tree.allocNode.2.modify root' fun node =>
      { node with isLeaf := false, parent := none, keys := [key], children := [root, sibling] })
      ((tree.allocNode.2.modify root' fun node =>
        { node with isLeaf := false, parent := none, keys := [key], children := [root, sibling] }).setParents
          (some root') [root, sibling]) := RawBTree.setParents_sameFrame _ _ _
  refine ⟨root', ⟨rfl, ⟨?_, ?_⟩, ?_, ?_⟩, ⟨?_, ?_, rfl, rfl, rfl⟩, ?_, rfl⟩
  · change ((tree.installRoot key root sibling).node root').parent = none
    rw [rootNode]
  · intro idx member
    obtain rfl : idx = root' := by simpa [level] using member
    refine ⟨?_, ?_, ?_, ?_, fun other isChild => ?_⟩
    · rw [rootNode]
    · rw [rootNode]; rfl
    · rw [rootNode]; exact le_rfl
    · rw [rootNode]; exact le_trans (by simp) layout.internalCap_two
    · rw [rootNode] at isChild
      rw [oldNode other isChild]
  · simp [level, expand, rootNode, Item.row, Item.trail]
  · have moved := allocated.owned.perm
      (by simpa [above] using List.Perm.swap _ _ _)
    exact (moved.of_same frame.free frame.arenaLen).perm (by simp [above, level])
  · intro idx member
    rw [oldNode idx member]
    rfl
  · intro idx member
    rw [node, if_neg, if_neg, (unchanged idx (by simp [member])).2]
    · rintro rfl; exact freshRest member
    · rintro (rfl | rfl)
      · exact rootRest member
      · exact siblingRest member
  · rfl

/-- The row of the parent with the new separator and node in place. -/
theorem Place.inserted {heap : Heap K V} (place : Place heap root depth left child right)
    (key : KeyObj K) (sibling : NodeIdx) :
    place.upLeft.flatMap (expand heap) ++
        (Item.row ((heap place.parent).children.take (place.before.length + 1) ++
            sibling :: (heap place.parent).children.drop (place.before.length + 1))
          ((heap place.parent).keys.take place.before.length ++
            key :: (heap place.parent).keys.drop place.before.length) ++
          place.upRight.flatMap (expand heap)) =
      left ++ .node child :: .sep key :: .node sibling :: right := by
  obtain ⟨parent, upLeft, upRight, before, after, keysBefore, keysAfter, levelEq, childrenEq, keysEq,
    beforePaired, afterPaired, rfl, rfl⟩ := place
  dsimp only at childrenEq keysEq beforePaired ⊢
  have children : (heap parent).children.take (before.length + 1) ++
      sibling :: (heap parent).children.drop (before.length + 1) = before ++ child :: sibling :: after := by
    have ahead : before ++ child :: after = (before ++ [child]) ++ after := by simp
    rw [childrenEq, ahead, List.take_left' (by simp), List.drop_left' (by simp)]
    simp
  have keys : (heap parent).keys.take before.length ++ key :: (heap parent).keys.drop before.length =
      keysBefore ++ key :: keysAfter := by
    rw [keysEq, beforePaired, List.take_left, List.drop_left]
  rw [children, keys, Item.row_around child beforePaired]
  simp [Item.trail]

/-- The parent has room. -/
theorem absorb_grown (key : KeyObj K)
    (crownAt : CrownAt layout tree root (depth + 1) (left ++ .node child :: right) (sibling :: rest))
    (place : Place tree.node root depth left child right)
    (room : (tree.node place.parent).keys.length < layout.internalCap) :
    Grown layout tree (depth + 1) (Item.nodes (left ++ .node child :: right) ++ [sibling])
      (left ++ .node child :: .sep key :: .node sibling :: right) rest
      ((tree.internalInsertAt place.parent place.before.length key sibling).setParent
        (some place.parent) sibling) root (depth + 1) := by
  obtain ⟨upper, middle, lower, restNodup⟩ := crownAt.split_disjoint
  have crown := crownAt.crown
  have internal := crown.2 place.parent place.parent_mem
  set parent := place.parent with parentDef
  set tree' := (tree.internalInsertAt parent place.before.length key sibling).setParent
    (some parent) sibling with treeDef
  have parentNotSibling : parent ≠ sibling := fun same =>
    (middle parent place.parent_mem).2 (same ▸ List.mem_cons_self)
  have node : ∀ idx, idx ≠ parent → idx ≠ sibling → tree'.node idx = tree.node idx := by
    intro idx notParent notSibling
    rw [treeDef, RawBTree.setParent, RawBTree.node_modify_of_ne _ notSibling, RawBTree.internalInsertAt,
      RawBTree.node_modify_of_ne _ notParent]
  have siblingNode : tree'.node sibling = { tree.node sibling with parent := some parent } := by
    rw [treeDef, RawBTree.setParent, RawBTree.node_modify_self, RawBTree.internalInsertAt,
      RawBTree.node_modify_of_ne _ (Ne.symm parentNotSibling)]
  have parentNode : tree'.node parent =
      { tree.node parent with
        keys := (tree.node parent).keys.take place.before.length ++
          key :: (tree.node parent).keys.drop place.before.length
        children := (tree.node parent).children.take (place.before.length + 1) ++
          sibling :: (tree.node parent).children.drop (place.before.length + 1) } := by
    rw [treeDef, RawBTree.setParent, RawBTree.node_modify_of_ne _ parentNotSibling,
      RawBTree.internalInsertAt, RawBTree.node_modify_self]
  have upperNode : ∀ idx ∈ above tree.node root depth, tree'.node idx = tree.node idx := by
    intro idx member
    refine node idx (fun same => ?_) fun same => ?_
    · exact (upper idx member).1 (same ▸ place.parent_mem)
    · exact (upper idx member).2.2 (same ▸ List.mem_cons_self)
  have levelParent : ∀ idx ∈ Item.nodes (level tree.node root depth),
      (tree'.node idx).parent = (tree.node idx).parent := by
    intro idx member
    by_cases same : idx = parent
    · rw [same, parentNode]
    · rw [node idx same fun equal => (middle idx member).2 (equal ▸ List.mem_cons_self)]
  have lowerParent : ∀ idx ∈ Item.nodes (left ++ .node child :: right), tree'.node idx = tree.node idx := by
    intro idx member
    refine node idx (fun same => ?_) fun same => ?_
    · exact (middle parent place.parent_mem).1 (same ▸ member)
    · exact lower idx member (same ▸ List.mem_cons_self)
  have base : CrownAt layout tree' root depth (place.upLeft ++ [.node parent] ++ place.upRight)
      (Item.nodes (left ++ .node child :: right) ++ sibling :: rest) := by
    have popped := @CrownAt.update _ _ _ _ tree' _ _ _ _ crownAt.pop rfl rfl rfl upperNode levelParent
    rw [place.level_eq] at popped
    simpa using popped
  have inserted := place.inserted key sibling
  rw [← parentDef] at inserted
  have row : [.node parent].flatMap (expand tree'.node) =
      Item.row ((tree.node parent).children.take (place.before.length + 1) ++
        sibling :: (tree.node parent).children.drop (place.before.length + 1))
      ((tree.node parent).keys.take place.before.length ++
        key :: (tree.node parent).keys.drop place.before.length) := by
    simp [expand, parentNode]
  have goal := @CrownAt.rebuild _ _ _ _ _ _ _ rest _ _ _ tree.node base ?_ ?_ ?_
  · rw [row, List.append_assoc, inserted] at goal
    refine ⟨goal, ⟨fun idx member => ?_, fun idx member => ?_, rfl, rfl, rfl⟩, rfl, rfl⟩
    · rcases List.mem_append.mp member with member | member
      · rw [lowerParent idx member]
      · obtain rfl := List.mem_singleton.mp member
        rw [siblingNode]
        rfl
    · refine node idx (fun same => ?_) fun same => ?_
      · exact (middle parent place.parent_mem).2 (same ▸ List.mem_cons_of_mem _ member)
      · exact (List.nodup_cons.mp restNodup).1 (same ▸ member)
  · intro idx member
    obtain ⟨onLevel, notParent⟩ := place.beside crownAt.pop.nodes_nodup idx member
    refine ⟨crown.2 idx onLevel, ?_, fun other isChild => ?_⟩
    · rw [node idx notParent fun same => (middle idx onLevel).2 (same ▸ List.mem_cons_self)]
    · rw [lowerParent other (crownAt.level_eq ▸ crown.child_mem onLevel isChild)]
  · intro idx member
    obtain rfl : idx = parent := by simpa using member
    have slot : place.before.length ≤ (tree.node parent).keys.length := by
      rw [place.keys_eq, place.before_paired, List.length_append]
      exact Nat.le_add_right _ _
    refine ⟨?_, ?_, ?_, ?_, fun other isChild => ?_⟩
    · rw [parentNode]; exact internal.internal
    · rw [parentNode]
      have paired := internal.paired
      simp
      omega
    · rw [parentNode]
      simp
      omega
    · rw [parentNode]
      simp
      omega
    · rw [parentNode] at isChild
      simp only [List.mem_append, List.mem_cons] at isChild
      have old : other ∈ (tree.node parent).children → (tree'.node other).parent = some parent := by
        intro isOld
        rw [lowerParent other (crownAt.level_eq ▸ crown.child_mem place.parent_mem isOld)]
        exact internal.parents other isOld
      rcases isChild with isOld | rfl | isOld
      · exact old (List.mem_of_mem_take isOld)
      · rw [siblingNode]
      · exact old (List.mem_of_mem_drop isOld)
  · rw [row, List.append_assoc, inserted, List.perm_iff_count]
    intro idx
    simp only [Item.nodes_append, Item.nodes_node, Item.nodes_sep, List.count_append, List.count_cons]
    omega

/-- The new children and keys of a node that takes in a child. -/
theorem Place.inserted_lengths {heap : Heap K V} (place : Place heap root depth left child right)
    (internal : InternalOk heap layout place.parent) (key : KeyObj K) (sibling : NodeIdx) :
    ((heap place.parent).keys.take place.before.length ++
        key :: (heap place.parent).keys.drop place.before.length).length =
      (heap place.parent).keys.length + 1 ∧
    ((heap place.parent).children.take (place.before.length + 1) ++
        sibling :: (heap place.parent).children.drop (place.before.length + 1)).length =
      (heap place.parent).keys.length + 2 := by
  have paired := internal.paired
  have slot : place.before.length ≤ (heap place.parent).keys.length := by
    rw [place.keys_eq, place.before_paired, List.length_append]
    exact Nat.le_add_right _ _
  constructor
  · simp only [List.length_append, List.length_take, List.length_cons, List.length_drop]
    omega
  · simp only [List.length_append, List.length_take, List.length_cons, List.length_drop]
    omega

section Distribute
variable {idx fresh : NodeIdx} {mid : Nat} {allKeys : List (KeyObj K)} {allChildren : List NodeIdx}

theorem distribute_sameFrame (tree : RawBTree K V) (idx fresh : NodeIdx) (mid : Nat)
    (allKeys : List (KeyObj K)) (allChildren : List NodeIdx) :
    RawBTree.SameFrame tree (tree.distribute idx fresh mid allKeys allChildren) :=
  ((RawBTree.SameFrame.modify _ _ _).trans (RawBTree.SameFrame.modify _ _ _)).trans
    (RawBTree.setParents_sameFrame _ _ _)

theorem distribute_node_left (different : idx ≠ fresh) (outside : idx ∉ allChildren) :
    (tree.distribute idx fresh mid allKeys allChildren).node idx =
      { tree.node idx with keys := allKeys.take mid, children := allChildren.take (mid + 1) } := by
  rw [RawBTree.distribute, RawBTree.node_setParents,
    if_neg fun member => outside (List.mem_of_mem_drop member),
    RawBTree.node_modify_of_ne _ different, RawBTree.node_modify_self]

theorem distribute_node_right (outside : fresh ∉ allChildren) :
    ∃ node : Node K V, (tree.distribute idx fresh mid allKeys allChildren).node fresh =
      { node with
        isLeaf := false
        parent := (tree.node idx).parent
        keys := allKeys.drop (mid + 1)
        children := allChildren.drop (mid + 1) } := by
  rw [RawBTree.distribute, RawBTree.node_setParents,
    if_neg fun member => outside (List.mem_of_mem_drop member), RawBTree.node_modify_self]
  exact ⟨_, rfl⟩

theorem distribute_node_other {other : NodeIdx} (notLeft : other ≠ idx) (notRight : other ≠ fresh) :
    (tree.distribute idx fresh mid allKeys allChildren).node other =
      if other ∈ allChildren.drop (mid + 1) then { tree.node other with parent := some fresh }
      else tree.node other := by
  rw [RawBTree.distribute, RawBTree.node_setParents, RawBTree.node_modify_of_ne _ notRight,
    RawBTree.node_modify_of_ne _ notLeft]

end Distribute

/-- A full parent splits. Its level then has a gap to fill between the halves, and
below them the new separator and node are in place. -/
theorem internalSplitAndInsert_spec (key : KeyObj K)
    (crownAt : CrownAt layout tree root (depth + 1) (left ++ .node child :: right) (sibling :: rest))
    (place : Place tree.node root depth left child right)
    (full : ¬ (tree.node place.parent).keys.length < layout.internalCap)
    (adopted : (tree.node sibling).parent = some place.parent) :
    ∃ promoted fresh tree', tree.internalSplitAndInsert layout place.parent place.before.length key
        sibling = .ok (promoted, fresh, tree') ∧
      CrownAt layout tree' root depth (place.upLeft ++ .node place.parent :: place.upRight)
        (fresh :: (Item.nodes (left ++ .node child :: right) ++ sibling :: rest)) ∧
      (tree'.node fresh).parent = (tree'.node place.parent).parent ∧
      (∀ idx ∈ Item.nodes (place.upLeft ++ .node place.parent :: .sep promoted :: .node fresh :: place.upRight),
        InternalOk tree'.node layout idx) ∧
      (place.upLeft ++ .node place.parent :: .sep promoted :: .node fresh :: place.upRight).flatMap
        (expand tree'.node) = left ++ .node child :: .sep key :: .node sibling :: right ∧
      (∀ idx ∈ above tree.node root depth, tree'.node idx = tree.node idx) ∧
      Kept tree tree' (Item.nodes (left ++ .node child :: right) ++ [sibling]) rest ∧
      tree'.height = tree.height ∧ tree'.ledger = tree.ledger := by
  obtain ⟨upper, middle, lower, restNodup⟩ := crownAt.split_disjoint
  have crown := crownAt.crown
  have internal := crown.2 place.parent place.parent_mem
  obtain ⟨allocated, unchanged⟩ := crownAt.pop.alloc
  obtain ⟨keysLength, childrenLength⟩ := place.inserted_lengths internal key sibling
  have inserted := place.inserted key sibling
  set parent := place.parent with parentDef
  set fresh := tree.allocNode.1 with freshDef
  set allKeys := (tree.node parent).keys.take place.before.length ++
    key :: (tree.node parent).keys.drop place.before.length with allKeysDef
  set allChildren := (tree.node parent).children.take (place.before.length + 1) ++
    sibling :: (tree.node parent).children.drop (place.before.length + 1) with allChildrenDef
  set mid := layout.internalCap / 2 with midDef
  have capTwo := layout.internalCap_two
  have fullEq : (tree.node parent).keys.length = layout.internalCap := by
    have := internal.fits
    omega
  have midBound : mid < allKeys.length := by omega
  have found : allKeys[mid]? = some allKeys[mid] := List.getElem?_eq_getElem midBound
  have parentSame : tree.allocNode.2.node parent = tree.node parent :=
    (unchanged parent (List.mem_append_left _ (List.mem_append_right _ place.parent_mem))).2
  have returned : tree.internalSplitAndInsert layout parent place.before.length key sibling =
      .ok (allKeys[mid], fresh, tree.allocNode.2.distribute parent fresh mid allKeys allChildren) := by
    simp only [RawBTree.internalSplitAndInsert, ← freshDef, parentSame, ← allKeysDef, ← allChildrenDef,
      ← midDef, readSlot, found, bind, Except.bind, pure, Except.pure]
  set tree' := tree.allocNode.2.distribute parent fresh mid allKeys allChildren with treeDef
  have childMem : ∀ other ∈ allChildren, other ∈ Item.nodes (left ++ .node child :: right) ++ [sibling] := by
    intro other member
    simp only [allChildrenDef, List.mem_append, List.mem_cons] at member
    have old : other ∈ (tree.node parent).children → other ∈ Item.nodes (left ++ .node child :: right) :=
      fun isOld => crownAt.level_eq ▸ crown.child_mem place.parent_mem isOld
    rcases member with isOld | rfl | isOld
    · exact List.mem_append_left _ (old (List.mem_of_mem_take isOld))
    · simp
    · exact List.mem_append_left _ (old (List.mem_of_mem_drop isOld))
  have lowMem : ∀ other ∈ Item.nodes (left ++ .node child :: right) ++ [sibling],
      other ∈ Item.nodes (left ++ .node child :: right) ++ sibling :: rest := by
    intro other member
    simp only [List.mem_append, List.mem_cons] at member ⊢
    tauto
  have parentFresh : parent ≠ fresh :=
    (unchanged parent (List.mem_append_left _ (List.mem_append_right _ place.parent_mem))).1
  have parentLow : parent ∉ Item.nodes (left ++ .node child :: right) ++ sibling :: rest := by
    rw [List.mem_append]
    exact not_or.mpr (middle parent place.parent_mem)
  have parentOutside : parent ∉ allChildren := fun member => parentLow (lowMem _ (childMem _ member))
  have freshOutside : fresh ∉ allChildren := fun member =>
    (unchanged fresh (List.mem_append_right _ (lowMem _ (childMem _ member)))).1 rfl
  have parentNode := @distribute_node_left _ _ tree.allocNode.2 _ _ mid allKeys _ parentFresh
    parentOutside
  rw [parentSame, ← treeDef] at parentNode
  obtain ⟨source, freshNode⟩ := @distribute_node_right _ _ tree.allocNode.2 parent _ mid allKeys _
    freshOutside
  rw [parentSame, ← treeDef] at freshNode
  have node : ∀ other ∈ above tree.node root depth ++ Item.nodes (level tree.node root depth) ++
      (Item.nodes (left ++ .node child :: right) ++ sibling :: rest), other ≠ parent →
      tree'.node other = if other ∈ allChildren.drop (mid + 1) then
        { tree.node other with parent := some fresh } else tree.node other := by
    intro other member notParent
    obtain ⟨notFresh, same⟩ := unchanged other member
    rw [treeDef, distribute_node_other notParent notFresh, same]
  have moved : ∀ other ∈ allChildren.drop (mid + 1),
      other ∈ Item.nodes (left ++ .node child :: right) ++ sibling :: rest :=
    fun other member => lowMem _ (childMem _ (List.mem_of_mem_drop member))
  have upperNode : ∀ idx ∈ above tree.node root depth, tree'.node idx = tree.node idx := by
    intro idx member
    rw [node idx (by simp [member]) fun same => (upper idx member).1 (same ▸ place.parent_mem), if_neg]
    exact fun inside => not_or.mpr (upper idx member).2 (List.mem_append.mp (moved idx inside))
  have levelNode : ∀ idx ∈ Item.nodes (level tree.node root depth), idx ≠ parent →
      tree'.node idx = tree.node idx := by
    intro idx member notParent
    rw [node idx (List.mem_append_left _ (List.mem_append_right _ member)) notParent, if_neg]
    exact fun inside => not_or.mpr (middle idx member) (List.mem_append.mp (moved idx inside))
  have frame := distribute_sameFrame tree.allocNode.2 parent fresh mid allKeys allChildren
  have levelParent : ∀ idx ∈ Item.nodes (level tree.node root depth),
      (tree'.node idx).parent = (tree.node idx).parent := by
    intro idx member
    by_cases same : idx = parent
    · rw [same, parentNode]
    · rw [levelNode idx member same]
  have allocAbove : ∀ idx ∈ above tree.node root depth, tree.allocNode.2.node idx = tree.node idx :=
    fun idx member => (unchanged idx (by simp [member])).2
  have base : CrownAt layout tree' root depth (place.upLeft ++ .node parent :: place.upRight)
      (fresh :: (Item.nodes (left ++ .node child :: right) ++ sibling :: rest)) := by
    rw [← place.level_eq]
    refine allocated.update frame.root frame.free frame.arenaLen (fun idx member => ?_) fun idx member => ?_
    · rw [(level_above_congr allocAbove).2] at member
      rw [upperNode idx member, allocAbove idx member]
    · rw [levelParent idx member, (unchanged idx (List.mem_append_left _ (List.mem_append_right _ member))).2]
  have childrenNodup : allChildren.Nodup := by
    have moved : allChildren.Perm (sibling :: (tree.node parent).children) := by
      rw [allChildrenDef]
      refine List.perm_middle.trans ?_
      rw [List.take_append_drop]
    refine moved.nodup_iff.mpr (List.nodup_cons.mpr ⟨fun member => ?_, ?_⟩)
    · exact lower sibling (crownAt.level_eq ▸ crown.child_mem place.parent_mem member) List.mem_cons_self
    · rw [parentDef, place.children_eq]
      exact place.siblings_nodup crown crownAt.nodes_nodup
  have childNode : ∀ other ∈ allChildren, tree'.node other =
      if other ∈ allChildren.drop (mid + 1) then { tree.node other with parent := some fresh }
      else tree.node other := by
    intro other member
    exact node other (List.mem_append_right _ (lowMem _ (childMem _ member)))
      fun same => parentOutside (same ▸ member)
  have childParent : ∀ other ∈ allChildren, (tree.node other).parent = some parent := by
    intro other member
    simp only [allChildrenDef, List.mem_append, List.mem_cons] at member
    rcases member with isOld | rfl | isOld
    · exact internal.parents other (List.mem_of_mem_take isOld)
    · exact adopted
    · exact internal.parents other (List.mem_of_mem_drop isOld)
  refine ⟨allKeys[mid], fresh, tree', returned, base, ?_, ?_, ?_, upperNode, ?_, frame.height, frame.ledger⟩
  · rw [freshNode, parentNode]
  · intro idx member
    simp only [Item.nodes_append, Item.nodes_node, Item.nodes_sep, List.mem_append, List.mem_cons] at member
    have beside : idx ∈ Item.nodes place.upLeft ++ Item.nodes place.upRight →
        InternalOk tree'.node layout idx := by
      intro member
      obtain ⟨onLevel, notParent⟩ := place.beside crownAt.pop.nodes_nodup idx member
      have old := crown.2 idx onLevel
      refine old.congr (by rw [levelNode idx onLevel notParent]) fun other isChild => ?_
      have low : other ∈ Item.nodes (left ++ .node child :: right) ++ sibling :: rest :=
        List.mem_append_left _ (crownAt.level_eq ▸ crown.child_mem onLevel isChild)
      rw [node other (List.mem_append_right _ low) fun same => parentLow (same ▸ low), if_neg]
      intro inside
      have two := (old.parents other isChild).symm.trans (childParent other (List.mem_of_mem_drop inside))
      exact notParent (Option.some.inj two)
    rcases member with member | rfl | rfl | member
    · exact beside (List.mem_append_left _ member)
    · refine ⟨?_, ?_, ?_, ?_, fun other isChild => ?_⟩
      · rw [parentNode]; exact internal.internal
      · rw [parentNode]
        simp only [List.length_take]
        omega
      · rw [parentNode]
        simp only [List.length_take]
        omega
      · rw [parentNode]
        simp only [List.length_take]
        omega
      · rw [parentNode] at isChild
        have isOld := List.mem_of_mem_take isChild
        rw [childNode other isOld, if_neg, childParent other isOld]
        intro inside
        rw [← List.take_append_drop (mid + 1) allChildren] at childrenNodup
        exact (List.nodup_append.mp childrenNodup).2.2 other isChild other inside rfl
    · refine ⟨?_, ?_, ?_, ?_, fun other isChild => ?_⟩
      · rw [freshNode]
      · rw [freshNode]
        simp only [List.length_drop]
        omega
      · rw [freshNode]
        simp only [List.length_drop]
        omega
      · rw [freshNode]
        simp only [List.length_drop]
        omega
      · rw [freshNode] at isChild
        rw [childNode other (List.mem_of_mem_drop isChild), if_pos isChild]
    · exact beside (List.mem_append_right _ member)
  · have outer : ∀ idx ∈ Item.nodes place.upLeft ++ Item.nodes place.upRight,
        tree'.node idx = tree.node idx := by
      intro idx member
      obtain ⟨onLevel, notParent⟩ := place.beside crownAt.pop.nodes_nodup idx member
      exact levelNode idx onLevel notParent
    rw [← inserted, Item.row_cut (by omega) found]
    simp only [List.flatMap_append, List.flatMap_cons, expand, parentNode, freshNode, List.append_assoc,
      List.cons_append, List.nil_append]
    rw [flatMap_expand_congr fun idx member => outer idx (List.mem_append_left _ member),
      flatMap_expand_congr fun idx member => outer idx (List.mem_append_right _ member)]
  · refine ⟨fun idx member => ?_, fun idx member => ?_, frame.firstLeaf, frame.lastLeaf, frame.len⟩
    · have low := lowMem idx member
      rw [node idx (List.mem_append_right _ low) fun same => parentLow (same ▸ low)]
      split <;> rfl
    · have low : idx ∈ Item.nodes (left ++ .node child :: right) ++ sibling :: rest := by simp [member]
      rw [node idx (List.mem_append_right _ low) fun same => parentLow (same ▸ low), if_neg]
      intro inside
      rcases List.mem_append.mp (childMem _ (List.mem_of_mem_drop inside)) with inLevel | isSibling
      · exact lower idx inLevel (List.mem_cons_of_mem _ member)
      · obtain rfl := List.mem_singleton.mp isSibling
        exact (List.nodup_cons.mp restNodup).1 member

/-- Above a split parent the same step repeats one level higher. -/
theorem split_grown {key promoted : KeyObj K} {fresh root' : NodeIdx} {tree' tree'' : RawBTree K V}
    {depth' : Nat} (place : Place tree.node root depth left child right)
    (internal : ∀ idx ∈ Item.nodes
      (place.upLeft ++ .node place.parent :: .sep promoted :: .node fresh :: place.upRight),
        InternalOk tree'.node layout idx)
    (expands : (place.upLeft ++ .node place.parent :: .sep promoted :: .node fresh :: place.upRight).flatMap
      (expand tree'.node) = left ++ .node child :: .sep key :: .node sibling :: right)
    (kept : Kept tree tree' (Item.nodes (left ++ .node child :: right) ++ [sibling]) rest)
    (sameHeight : tree'.height = tree.height) (sameLedger : tree'.ledger = tree.ledger)
    (grown : Grown layout tree' depth
      (Item.nodes (place.upLeft ++ .node place.parent :: place.upRight) ++ [fresh])
      (place.upLeft ++ .node place.parent :: .sep promoted :: .node fresh :: place.upRight)
      (Item.nodes (left ++ .node child :: right) ++ sibling :: rest) tree'' root' depth') :
    Grown layout tree (depth + 1) (Item.nodes (left ++ .node child :: right) ++ [sibling])
      (left ++ .node child :: .sep key :: .node sibling :: right) rest tree'' root' (depth' + 1) := by
  have lowered := @CrownAt.lower _ _ _ _ _ _ _ _ _ rest _ grown.crownAt grown.kept ?_ internal ?_
  · rw [expands] at lowered
    refine ⟨lowered, kept.trans grown.kept ?_ ?_, ?_, grown.ledger.trans sameLedger⟩
    · intro idx member
      right
      simp only [List.mem_append, List.mem_cons] at member ⊢
      tauto
    · intro idx member
      simp [member]
    · have height := grown.height
      omega
  · intro idx member
    simp only [Item.nodes_append, Item.nodes_node, Item.nodes_sep, List.mem_append, List.mem_cons] at member ⊢
    tauto
  · rw [expands, List.perm_iff_count]
    intro idx
    simp only [Item.nodes_append, Item.nodes_node, Item.nodes_sep, List.count_append, List.count_cons]
    omega

theorem propagateSplit_grown {path : PathBuf} (key : KeyObj K)
    (crownAt : CrownAt layout tree root depth (left ++ .node child :: right) (sibling :: rest))
    (leads : PathTo tree.node root depth child path)
    (adopted : (tree.node sibling).parent = (tree.node child).parent) :
    ∃ tree' root' depth', RawBTree.propagateSplit layout path key sibling tree = .ok tree' ∧
      Grown layout tree depth (Item.nodes (left ++ .node child :: right) ++ [sibling])
        (left ++ .node child :: .sep key :: .node sibling :: right) rest tree' root' depth' := by
  induction depth generalizing tree child sibling left right rest path key with
  | zero =>
      obtain rfl : path = [] := leads
      obtain ⟨rfl, rfl, rfl⟩ : left = [] ∧ child = root ∧ right = [] := by
        have single := crownAt.level_eq
        cases left with
        | nil => simp_all [level]
        | cons head left => simp [level] at single
      obtain ⟨root', grown⟩ := installRoot_grown key crownAt
      refine ⟨_, root', 1, ?_, by simpa using grown⟩
      simp [RawBTree.propagateSplit, crownAt.root_eq, deref, bind, Except.bind, pure, Except.pure]
  | succ depth ih =>
      obtain ⟨place⟩ := crownAt.crown.locate crownAt.level_eq
      obtain ⟨upper, rfl, leadsUp⟩ := leads.head_eq crownAt.crown crownAt.nodes_nodup place
      rw [place.parent_eq crownAt.crown] at adopted
      by_cases room : (tree.node place.parent).keys.length < layout.internalCap
      · refine ⟨_, root, depth + 1, ?_, absorb_grown key crownAt place room⟩
        simp only [RawBTree.propagateSplit, if_pos room, pure, Except.pure]
      · obtain ⟨promoted, fresh, middle, returned, base, adoptedUp, internal, expands, upperSame, kept,
          sameHeight, sameLedger⟩ := internalSplitAndInsert_spec key crownAt place room adopted
        obtain ⟨tree', root', depth', propagated, grown⟩ :=
          ih promoted base (leadsUp.congr upperSame) adoptedUp
        refine ⟨tree', root', depth' + 1, ?_,
          split_grown place internal expands kept sameHeight sameLedger grown⟩
        simp only [RawBTree.propagateSplit, if_neg room, returned, bind, Except.bind]
        exact propagated

theorem propagateSplitLazy_grown {fuel : Nat} (key : KeyObj K)
    (crownAt : CrownAt layout tree root depth (left ++ .node child :: right) (sibling :: rest))
    (enough : depth ≤ fuel) (adopted : (tree.node sibling).parent = (tree.node child).parent) :
    ∃ tree' root' depth', RawBTree.propagateSplitLazy layout fuel child key sibling tree = .ok tree' ∧
      Grown layout tree depth (Item.nodes (left ++ .node child :: right) ++ [sibling])
        (left ++ .node child :: .sep key :: .node sibling :: right) rest tree' root' depth' := by
  induction depth generalizing tree child sibling left right rest fuel key with
  | zero =>
      obtain ⟨rfl, rfl, rfl⟩ : left = [] ∧ child = root ∧ right = [] := by
        have single := crownAt.level_eq
        cases left with
        | nil => simp_all [level]
        | cons head left => simp [level] at single
      obtain ⟨root', grown⟩ := installRoot_grown key crownAt
      refine ⟨_, root', 1, ?_, by simpa using grown⟩
      have orphan : (tree.node child).parent = none := crownAt.crown
      unfold RawBTree.propagateSplitLazy
      simp [orphan, pure, Except.pure]
  | succ depth ih =>
      obtain ⟨fuel, rfl⟩ : ∃ less, fuel = less + 1 := ⟨fuel - 1, by omega⟩
      obtain ⟨place⟩ := crownAt.crown.locate crownAt.level_eq
      have parentEq := place.parent_eq crownAt.crown
      have slot : tree.childSlot place.parent child ((tree.node place.parent).keys.length + 1) =
          place.before.length :=
        childSlot_place _ place (place.child_notMem crownAt.crown crownAt.nodes_nodup).1
      rw [parentEq] at adopted
      by_cases room : (tree.node place.parent).keys.length < layout.internalCap
      · refine ⟨_, root, depth + 1, ?_, absorb_grown key crownAt place room⟩
        unfold RawBTree.propagateSplitLazy
        simp only [parentEq, slot, if_pos room, pure, Except.pure]
      · obtain ⟨promoted, fresh, middle, returned, base, adoptedUp, internal, expands, upperSame, kept,
          sameHeight, sameLedger⟩ := internalSplitAndInsert_spec key crownAt place room adopted
        obtain ⟨tree', root', depth', propagated, grown⟩ :=
          @ih _ _ _ _ _ _ fuel promoted base (by omega) adoptedUp
        refine ⟨tree', root', depth' + 1, ?_,
          split_grown place internal expands kept sameHeight sameLedger grown⟩
        unfold RawBTree.propagateSplitLazy
        simp only [parentEq, slot, if_neg room, returned, bind, Except.bind]
        exact propagated

/-- The path found by parent pointers. -/
theorem pathToNode_leads {fuel : Nat} {heapRest : List NodeIdx} {items : List (LevelItem K)}
    (crownAt : CrownAt layout tree root depth items heapRest) (onLevel : child ∈ Item.nodes items)
    (enough : depth ≤ fuel) :
    ∃ path, tree.pathToNode fuel child = .ok path ∧ PathTo tree.node root depth child path := by
  induction depth generalizing child items heapRest fuel with
  | zero =>
      obtain rfl : child = root := by simpa [← crownAt.level_eq, level] using onLevel
      have orphan : (tree.node child).parent = none := crownAt.crown
      refine ⟨[], ?_, rfl⟩
      unfold RawBTree.pathToNode
      simp [orphan]
  | succ depth ih =>
      obtain ⟨fuel, rfl⟩ : ∃ less, fuel = less + 1 := ⟨fuel - 1, by omega⟩
      obtain ⟨before, after, split⟩ := List.append_of_mem onLevel
      obtain ⟨left, right, itemsEq, _, _⟩ := Item.nodes_split split
      obtain ⟨place⟩ := crownAt.crown.locate (crownAt.level_eq.trans itemsEq)
      obtain ⟨path, found, leads⟩ := @ih _ fuel _ _ crownAt.pop place.parent_mem (by omega)
      have slot : tree.childSlot place.parent child (tree.node place.parent).keys.length =
          place.before.length :=
        childSlot_place _ place (place.child_notMem crownAt.crown crownAt.nodes_nodup).1
      refine ⟨(place.parent, place.before.length) :: path, ?_, place.parent, _, path, rfl,
        place.parent_mem, by rw [place.children_eq]; simp, leads⟩
      unfold RawBTree.pathToNode
      simp only [place.parent_eq crownAt.crown, slot, found, bind, Except.bind, pure, Except.pure]

end Steps

end Optimap.FlatBTree
