import Optimap.FlatBTree.SubtreeCopy
import Optimap.FlatBTree.Growth

/-!
# Grafting at the right spine

Hanging a copied root behind the last node of its height is a split that happens there: the
copy is the new right neighbour, and what goes up the spine is propagated as after an
insertion.
-/

set_option autoImplicit false
set_option linter.unusedSectionVars false

namespace Optimap.FlatBTree

open Lib

variable {K V : Type} {layout : NodeLayout} {tree tree' : RawBTree K V} {root : NodeIdx} {depth : Nat}

section Adoption

/-- Trees with the same frame and the same nodes. -/
theorem RawBTree.SameFrame.ext (frame : RawBTree.SameFrame tree tree')
    (nodes : ∀ idx, tree'.node idx = tree.node idx) : tree' = tree := by
  obtain ⟨free, arenaLen, root, firstLeaf, lastLeaf, len, height, ledger⟩ := frame
  have nodes' : tree'.arena.nodes = tree.arena.nodes := funext nodes
  obtain ⟨⟨_, _, _⟩, _, _, _, _, _, _⟩ := tree
  obtain ⟨⟨_, _, _⟩, _, _, _, _, _, _⟩ := tree'
  simp_all

theorem modify_comm {idx other : NodeIdx} (different : idx ≠ other) (change change' : Node K V → Node K V) :
    (tree.modify idx change).modify other change' = (tree.modify other change').modify idx change := by
  simp only [RawBTree.modify, Arena.modify, Function.update_of_ne different,
    Function.update_of_ne different.symm, Function.update_comm different]

/-- A parent that is overwritten does not matter. -/
theorem setParents_absorb {first second : Option NodeIdx} {idx : NodeIdx} {idxs : List NodeIdx} (member : idx ∈ idxs) :
    (tree.setParent first idx).setParents second idxs = tree.setParents second idxs := by
  have left := (RawBTree.SameFrame.modify tree idx fun node => { node with parent := first }).trans
    (RawBTree.setParents_sameFrame second idxs (tree.setParent first idx))
  have right := RawBTree.setParents_sameFrame second idxs tree
  refine RawBTree.SameFrame.ext ⟨left.free.trans right.free.symm, left.arenaLen.trans right.arenaLen.symm,
    left.root.trans right.root.symm, left.firstLeaf.trans right.firstLeaf.symm,
    left.lastLeaf.trans right.lastLeaf.symm, left.len.trans right.len.symm, left.height.trans right.height.symm,
    left.ledger.trans right.ledger.symm⟩ fun other => ?_
  rw [RawBTree.node_setParents, RawBTree.node_setParents]
  by_cases same : other = idx
  · subst same
    rw [if_pos member, if_pos member, RawBTree.setParent, RawBTree.node_modify_self]
  · rw [RawBTree.setParent, RawBTree.node_modify_of_ne _ same]

theorem allocNode_setParent {parent : Option NodeIdx} {idx : NodeIdx} (fresh : idx ≠ tree.allocNode.1) :
    (tree.setParent parent idx).allocNode = (tree.allocNode.1, tree.allocNode.2.setParent parent idx) := by
  obtain ⟨⟨nodes, len, free⟩, _, _, _, _, _, _⟩ := tree
  cases free with
  | nil => rfl
  | cons head free =>
      have different : idx ≠ head := fresh
      simp only [RawBTree.setParent, RawBTree.modify, RawBTree.allocNode, Arena.allocNode, Arena.modify,
        Function.update_of_ne different, Function.update_comm different]

variable {cur copy : NodeIdx} {separator : KeyObj K}

/-- The node that takes the copy in, or the new right half of it, overwrites the copy's parent. -/
theorem propagateSplit_adopts {parent : Option NodeIdx} {path : PathBuf} (notCur : copy ≠ cur)
    (fresh : copy ≠ tree.allocNode.1) (curSame : tree.allocNode.2.node cur = tree.node cur)
    (paired : (tree.node cur).children.length = (tree.node cur).keys.length + 1)
    (fits : (tree.node cur).keys.length ≤ layout.internalCap) :
    RawBTree.propagateSplit layout ((cur, (tree.node cur).keys.length) :: path) separator copy
        (tree.setParent parent copy) =
      RawBTree.propagateSplit layout ((cur, (tree.node cur).keys.length) :: path) separator copy tree := by
  have curNode : (tree.setParent parent copy).node cur = tree.node cur :=
    RawBTree.node_modify_of_ne _ notCur.symm
  rw [RawBTree.propagateSplit, RawBTree.propagateSplit, curNode]
  split
  · have taken : ((tree.setParent parent copy).internalInsertAt cur (tree.node cur).keys.length separator copy).setParent
        (some cur) copy =
      (tree.internalInsertAt cur (tree.node cur).keys.length separator copy).setParent (some cur) copy := by
      have absorbed := @setParents_absorb _ _
        (tree.internalInsertAt cur (tree.node cur).keys.length separator copy) parent (some cur) copy [copy]
        List.mem_cons_self
      exact (congrArg (fun tree => RawBTree.setParent tree (some cur) copy)
        (modify_comm notCur _ _)).trans absorbed
    rw [taken]
  · next full =>
      have capped : (tree.node cur).keys.length = layout.internalCap := by omega
      have two := layout.internalCap_two
      have split : (tree.setParent parent copy).internalSplitAndInsert layout cur (tree.node cur).keys.length separator
          copy = tree.internalSplitAndInsert layout cur (tree.node cur).keys.length separator copy := by
        have curNode' : (tree.allocNode.2.setParent parent copy).node cur = tree.node cur := by
          rw [RawBTree.setParent, RawBTree.node_modify_of_ne _ notCur.symm, curSame]
        rw [RawBTree.internalSplitAndInsert, RawBTree.internalSplitAndInsert, allocNode_setParent fresh]
        simp only [curNode', curSame]
        have last : copy ∈ ((tree.node cur).children.take ((tree.node cur).keys.length + 1) ++
            copy :: (tree.node cur).children.drop ((tree.node cur).keys.length + 1)).drop
              (layout.internalCap / 2 + 1) := by
          rw [← paired, List.take_length, List.drop_length, List.drop_append_of_le_length (by omega)]
          exact List.mem_append_right _ List.mem_cons_self
        have same : ∀ keys, (tree.allocNode.2.setParent parent copy).distribute cur tree.allocNode.1
            (layout.internalCap / 2) keys
            ((tree.node cur).children.take ((tree.node cur).keys.length + 1) ++
              copy :: (tree.node cur).children.drop ((tree.node cur).keys.length + 1)) =
          tree.allocNode.2.distribute cur tree.allocNode.1 (layout.internalCap / 2) keys
            ((tree.node cur).children.take ((tree.node cur).keys.length + 1) ++
              copy :: (tree.node cur).children.drop ((tree.node cur).keys.length + 1)) := by
          intro keys
          rw [RawBTree.distribute, RawBTree.distribute, curNode', curSame]
          refine Eq.trans (congrArg (fun tree => RawBTree.setParents tree _ _) ?_) (@setParents_absorb _ _ _ parent _ _ _ last)
          exact (congrArg (fun tree => RawBTree.modify tree _ _) (modify_comm notCur _ _)).trans
            (modify_comm fresh _ _)
        simp only [same]
      rw [split]

theorem setParent_same {parent : Option NodeIdx} (same : (tree.node copy).parent = parent) :
    tree.setParent parent copy = tree := by
  refine (RawBTree.SameFrame.modify tree copy _).ext fun idx => ?_
  by_cases isCopy : idx = copy
  · subst isCopy
    rw [RawBTree.node_modify_self, ← same]
  · exact RawBTree.node_modify_of_ne _ isCopy

end Adoption

section Spine
variable {cur : NodeIdx} {path : PathBuf} {left : List (LevelItem K)} {upper : Nat}

/-- One step down the last children. -/
theorem rightSpine_step (paired : (tree.node cur).children.length = (tree.node cur).keys.length + 1)
    (split : level tree.node root upper = left ++ [.node cur]) (leads : PathTo tree.node root upper cur path) :
    ∃ child left', readSlot (tree.node cur).children (tree.node cur).keys.length = .ok child ∧
      level tree.node root (upper + 1) = left' ++ [.node child] ∧
      PathTo tree.node root (upper + 1) child ((cur, (tree.node cur).keys.length) :: path) := by
  obtain ⟨before, child, childrenEq⟩ : ∃ before child, (tree.node cur).children = before ++ [child] := by
    rcases List.eq_nil_or_concat (tree.node cur).children with empty | ⟨before, child, same⟩
    · rw [empty] at paired
      simp at paired
    · exact ⟨before, child, by simpa using same⟩
  have lengths : before.length = (tree.node cur).keys.length := by
    rw [childrenEq] at paired
    simpa using paired
  have found : (tree.node cur).children[(tree.node cur).keys.length]? = some child := by
    rw [childrenEq, ← lengths]
    simp
  have row : expand tree.node (.node cur) = Item.lead before (tree.node cur).keys ++ [.node child] := by
    have around := @Item.row_around _ _ before [] (tree.node cur).keys [] child lengths
    rw [List.append_nil] at around
    rw [expand, childrenEq, around]
    rfl
  refine ⟨child, left.flatMap (expand tree.node) ++ Item.lead before (tree.node cur).keys, ?_, ?_, ?_⟩
  · rw [readSlot, found]
  · rw [level, split, List.flatMap_append, List.flatMap_singleton, row, List.append_assoc]
  · exact ⟨cur, _, path, rfl, by rw [split]; simp, found, leads⟩

theorem rightSpine_lands (descend : Nat)
    (paired : ∀ between < upper + descend, ∀ idx ∈ Item.nodes (level tree.node root between),
      (tree.node idx).children.length = (tree.node idx).keys.length + 1)
    (split : level tree.node root upper = left ++ [.node cur]) (leads : PathTo tree.node root upper cur path) :
    ∃ last path' left', tree.rightSpine descend cur path = .ok (last, path') ∧
      level tree.node root (upper + descend) = left' ++ [.node last] ∧
      PathTo tree.node root (upper + descend) last path' := by
  induction descend generalizing upper cur path left with
  | zero => exact ⟨cur, path, left, rfl, split, leads⟩
  | succ descend ih =>
      have shift : upper + (descend + 1) = upper + 1 + descend := by omega
      rw [shift] at paired ⊢
      obtain ⟨child, left', read, split', leads'⟩ :=
        rightSpine_step (paired upper (by omega) cur (by rw [split]; simp)) split leads
      obtain ⟨last, path', final, landed, rest⟩ := ih paired split' leads'
      refine ⟨last, path', final, ?_, rest⟩
      rw [RawBTree.rightSpine]
      simp only [read, bind, Except.bind]
      exact landed

/-- Combining the roots propagates a split from the last node of the copy's height. -/
theorem graftCombineRoots_eq {copy : NodeIdx} {separator : KeyObj K} {otherHeight : Nat}
    (rootEq : tree.root = some root) (lower : otherHeight < tree.height)
    (spine : tree.rightSpine (tree.height - otherHeight - 1) root [] = .ok (cur, path)) :
    tree.graftCombineRoots layout copy separator otherHeight =
      RawBTree.propagateSplit layout ((cur, (tree.node cur).keys.length) :: path) separator copy tree := by
  rw [RawBTree.graftCombineRoots, rootEq, RawBTree.propagateSplit]
  simp only [deref, bind, Except.bind, if_neg (Nat.ne_of_gt lower), spine]

end Spine

section Joining
variable {copy child : NodeIdx} {left : List (LevelItem K)} {path : PathBuf} {steps : Nat} {rest : List NodeIdx}

/-- A subtree behind the last node of a level. -/
theorem hang_grown (separator : KeyObj K)
    (crownAt : CrownAt layout tree root depth (left ++ [.node child])
      ((Item.nodes (left ++ [.node child])).flatMap (below tree.node steps) ++ under tree.node steps copy))
    (subs : ∀ idx ∈ Item.nodes (left ++ [.node child]), Subtree layout tree.node steps idx ∧ Keyed tree.node steps idx)
    (sub : Subtree layout tree.node steps copy) (keyed : Keyed tree.node steps copy)
    (leads : PathTo tree.node root depth child path) :
    ∃ tree' root' depth', RawBTree.propagateSplit layout path separator copy
        (tree.setParent (tree.node child).parent copy) = .ok tree' ∧
      CrownAt layout tree' root' (depth' + steps)
        ((left ++ [.node child] : List (LevelItem K)).flatMap (sublevel tree.node steps) ++
          .sep separator :: level tree.node copy steps) [] ∧
      Kept tree tree' (Item.nodes (left ++ [.node child]) ++ [copy])
        ((Item.nodes (left ++ [.node child])).flatMap (below tree.node steps) ++ below tree.node steps copy) ∧
      tree'.height + depth = tree.height + depth' ∧ tree'.ledger = tree.ledger := by
  set row := left ++ [.node child] with rowDef
  set lower := (Item.nodes row).flatMap (below tree.node steps) with lowerDef
  have nodup := crownAt.nodup
  have copyOutside : copy ∉ above tree.node root depth ∧ copy ∉ Item.nodes row ∧ copy ∉ lower ∧
      copy ∉ below tree.node steps copy := by
    rw [under, ← List.append_assoc] at nodup
    have alone := (List.nodup_cons.mp (List.nodup_middle.mp nodup)).1
    simp only [List.mem_append, not_or] at alone
    exact ⟨alone.1.1.1, alone.1.1.2, alone.1.2, alone.2⟩
  set base := tree.setParent (tree.node child).parent copy with baseDef
  have baseNode : ∀ idx, idx ≠ copy → base.node idx = tree.node idx :=
    fun idx different => RawBTree.node_modify_of_ne _ different
  have adopted : (base.node copy).parent = (base.node child).parent := by
    have childOther : child ≠ copy := by
      rintro rfl
      exact copyOutside.2.1 (by simp [rowDef])
    rw [baseNode child childOther, baseDef, RawBTree.setParent, RawBTree.node_modify_self]
  have kept₀ : Kept tree base (Item.nodes row ++ [copy]) (lower ++ below tree.node steps copy) := by
    refine ⟨fun idx member => ?_, fun idx member => ?_, rfl, rfl, rfl⟩
    · by_cases isCopy : idx = copy
      · subst isCopy
        rw [baseDef, RawBTree.setParent, RawBTree.node_modify_self]
        rfl
      · rw [baseNode idx isCopy]
    · refine baseNode idx fun isCopy => ?_
      subst isCopy
      rcases List.mem_append.mp member with inside | inside
      · exact copyOutside.2.2.1 inside
      · exact copyOutside.2.2.2 inside
  have sameAbove : ∀ idx ∈ above tree.node root depth, base.node idx = tree.node idx :=
    fun idx member => baseNode idx fun isCopy => copyOutside.1 (isCopy ▸ member)
  have crownAt₀ : CrownAt layout base root depth (left ++ .node child :: [])
      (copy :: (lower ++ below tree.node steps copy)) := by
    refine CrownAt.perm (crownAt.update rfl rfl rfl sameAbove fun idx member => ?_) List.perm_middle.symm
    rw [baseNode idx fun isCopy => copyOutside.2.1 (isCopy ▸ member)]
  obtain ⟨tree', root', depth', propagated, grown⟩ :=
    propagateSplit_grown separator crownAt₀ (leads.congr sameAbove) adopted
  have kept : Kept tree tree' (Item.nodes row ++ [copy]) (lower ++ below tree.node steps copy) :=
    kept₀.trans grown.kept (fun idx member => .inl member) fun idx member => member
  have rowNodes : Item.nodes (left ++ .node child :: .sep separator :: .node copy :: []) = Item.nodes row ++ [copy] := by
    simp [rowDef]
  have lowered := @CrownAt.lowers _ _ _ _ _ _ _ _ _ [] _ steps grown.crownAt ?_ kept ?_ ?_
  · refine ⟨tree', root', depth', propagated, ?_, kept, grown.height, grown.ledger⟩
    have items : (left ++ .node child :: .sep separator :: .node copy :: [] : List (LevelItem K)).flatMap
        (sublevel tree.node steps) =
        row.flatMap (sublevel tree.node steps) ++ .sep separator :: level tree.node copy steps := by
      simp [rowDef, sublevel]
    rw [items] at lowered
    exact lowered
  · rw [rowNodes, List.flatMap_append, List.append_nil, List.flatMap_singleton]
  · rw [rowNodes]
    exact fun idx member => member
  · rw [rowNodes]
    intro idx member
    rcases List.mem_append.mp member with inRow | isCopy
    · exact subs idx inRow
    · obtain rfl := List.mem_singleton.mp isCopy
      exact ⟨sub, keyed⟩

/-- What combining the roots leaves of the leaves. -/
structure Combined (layout : NodeLayout) (tree tree' : RawBTree K V) (root' : NodeIdx) (items : List (LevelItem K)) :
    Prop where
  crownAt : CrownAt layout tree' root' tree'.height items []
  payload : ∀ leaf ∈ Item.nodes items, (tree'.node leaf).payload = (tree.node leaf).payload
  firstLeaf : tree'.firstLeaf = tree.firstLeaf
  len : tree'.len = tree.len
  ledger : tree'.ledger = tree.ledger

theorem graftCombineRoots_combined [LinearOrder K] {items : List (LevelItem K)} (separator : KeyObj K)
    (crownAt : CrownAt layout tree root tree.height items (under tree.node steps copy))
    (sub : Subtree layout tree.node steps copy) (keyed : Keyed tree.node steps copy)
    (orphan : (tree.node copy).parent = none) (enough : steps ≤ tree.height) :
    ∃ tree' root', tree.graftCombineRoots layout copy separator steps = .ok tree' ∧
      Combined layout tree tree' root' (items ++ .sep separator :: level tree.node copy steps) := by
  obtain ⟨depth, heightEq⟩ : ∃ depth, tree.height = depth + steps := ⟨tree.height - steps, by omega⟩
  rw [heightEq] at crownAt
  obtain ⟨upper, itemsEq, subs⟩ := crownAt.rises steps
  have paired : ∀ between < depth, ∀ idx ∈ Item.nodes (level tree.node root between),
      (tree.node idx).children.length = (tree.node idx).keys.length + 1 :=
    fun between lower idx member => (upper.crown.internal_at lower member).paired
  obtain ⟨child, path, left, split, leads, combined⟩ : ∃ child path left,
      level tree.node root depth = left ++ [.node child] ∧ PathTo tree.node root depth child path ∧
      tree.graftCombineRoots layout copy separator steps = RawBTree.propagateSplit layout path separator copy
        (tree.setParent (tree.node child).parent copy) := by
    cases depth with
    | zero =>
        have rootOrphan : (tree.node root).parent = none := upper.crown
        refine ⟨root, [], [], rfl, rfl, ?_⟩
        rw [rootOrphan, setParent_same orphan, RawBTree.graftCombineRoots, upper.root_eq]
        simp only [deref, bind, Except.bind, heightEq, Nat.zero_add, if_true, RawBTree.propagateSplit, upper.root_eq]
    | succ depth =>
        obtain ⟨cur, path, left, landed, split, leads⟩ :=
          @rightSpine_lands _ _ tree root root [] [] 0 depth
            (fun between lower => paired between (by omega)) rfl rfl
        rw [Nat.zero_add] at split leads
        have onLevel : cur ∈ Item.nodes (level tree.node root depth) := by rw [split]; simp
        have internal := upper.crown.2 cur onLevel
        obtain ⟨child, left', read, split', leads'⟩ := rightSpine_step internal.paired split leads
        have descend : tree.height - steps - 1 = depth := by omega
        have isChild : child ∈ (tree.node cur).children := by
          rw [readSlot] at read
          split at read
          · next found =>
              obtain rfl := Except.ok.inj read
              exact List.mem_of_getElem? found
          · cases read
        refine ⟨child, _, left', split', leads', ?_⟩
        obtain ⟨allocated, unchanged⟩ := upper.alloc
        have curUpper : cur ∈ above tree.node root (depth + 1) := List.mem_append_right _ onLevel
        have copyRest : copy ∈ (Item.nodes (level tree.node root (depth + 1))).flatMap (below tree.node steps) ++
            under tree.node steps copy := List.mem_append_right _ (mem_under_self _ _ _)
        have apart : copy ≠ cur := by
          rintro rfl
          refine (List.nodup_append.mp upper.nodup).2.2 copy (List.mem_append_left _ curUpper) copy copyRest rfl
        rw [internal.parents child isChild, graftCombineRoots_eq upper.root_eq (by omega) (descend.symm ▸ landed)]
        refine (propagateSplit_adopts apart ?_ ?_ internal.paired internal.fits).symm
        · exact (unchanged copy (List.mem_append_right _ copyRest)).1
        · exact (unchanged cur (List.mem_append_left _ (List.mem_append_left _ curUpper))).2
  rw [split] at upper itemsEq subs
  obtain ⟨tree', root', depth', propagated, crownAt', kept, height, ledger⟩ :=
    hang_grown separator upper subs sub keyed leads
  refine ⟨tree', root', combined.trans propagated, ?_⟩
  have height' : tree'.height = depth' + steps := by omega
  rw [← itemsEq, ← height'] at crownAt'
  refine ⟨crownAt', fun leaf member => ?_, kept.firstLeaf, kept.len, ledger⟩
  have inside : leaf ∈ (Item.nodes (left ++ [.node child] : List (LevelItem K)) ++ [copy]) ++
      ((Item.nodes (left ++ [.node child] : List (LevelItem K))).flatMap (below tree.node steps) ++ below tree.node steps copy) := by
    have forest : leaf ∈ (Item.nodes (left ++ [.node child] : List (LevelItem K)) ++ [copy]).flatMap (under tree.node steps) := by
      rw [Item.nodes_append, List.mem_append] at member
      rw [List.flatMap_append, List.mem_append]
      rcases member with inRow | inCopy
      · rw [itemsEq, nodes_sublevels] at inRow
        obtain ⟨top, isTop, inTop⟩ := List.mem_flatMap.mp inRow
        exact .inl (List.mem_flatMap.mpr ⟨top, isTop, (subs top isTop).1.leaves_subset leaf inTop⟩)
      · exact .inr (List.mem_flatMap.mpr ⟨copy, List.mem_singleton_self _, sub.leaves_subset leaf inCopy⟩)
    have moved := (flatMap_under_perm tree.node steps _).mem_iff.mp forest
    rw [List.flatMap_append, List.flatMap_singleton] at moved
    exact moved
  rcases List.mem_append.mp inside with inRow | inRest
  · exact kept.payload leaf inRow
  · rw [kept.rest leaf inRest]

end Joining

end Optimap.FlatBTree
