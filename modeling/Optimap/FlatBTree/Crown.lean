import Optimap.FlatBTree.Heap

/-!
# Crowns of a tree

A crown over a row of nodes, with the nodes it owns. Operations that work their
way up take a crown apart one level at a time and complete it again from above.
-/

set_option autoImplicit false
set_option linter.unusedSectionVars false

namespace Optimap.FlatBTree

open Lib

variable {K V : Type}

/-- A well-formed crown over the row `items`; `rest` are further nodes in use. -/
structure CrownAt (layout : NodeLayout) (tree : RawBTree K V) (root : NodeIdx) (depth : Nat)
    (items : List (LevelItem K)) (rest : List NodeIdx) : Prop where
  root_eq : tree.root = some root
  crown : Crown tree.node root layout depth
  level_eq : level tree.node root depth = items
  owned : Owned tree.arena (above tree.node root depth ++ Item.nodes items ++ rest)

/-- Between two trees, what a level and the nodes below it keep. -/
structure Kept (tree tree' : RawBTree K V) (row rest : List NodeIdx) : Prop where
  payload : ∀ idx ∈ row, (tree'.node idx).payload = (tree.node idx).payload
  rest : ∀ idx ∈ rest, tree'.node idx = tree.node idx
  firstLeaf : tree'.firstLeaf = tree.firstLeaf
  lastLeaf : tree'.lastLeaf = tree.lastLeaf
  len : tree'.len = tree.len

theorem Kept.trans {first second third : RawBTree K V} {row rest row' rest' : List NodeIdx}
    (left : Kept first second row rest) (right : Kept second third row' rest')
    (rowSub : ∀ idx ∈ row, idx ∈ row' ∨ idx ∈ rest') (restSub : ∀ idx ∈ rest, idx ∈ rest') :
    Kept first third row rest := by
  refine ⟨fun idx member => ?_, fun idx member => ?_, right.firstLeaf.trans left.firstLeaf,
    right.lastLeaf.trans left.lastLeaf, right.len.trans left.len⟩
  · rw [← left.payload idx member]
    rcases rowSub idx member with inRow | inRest
    · exact right.payload idx inRow
    · rw [right.rest idx inRest]
  · rw [right.rest idx (restSub idx member), left.rest idx member]

theorem InternalOk.congr {heap heap' : Heap K V} {layout : NodeLayout} {idx : NodeIdx}
    (old : InternalOk heap layout idx) (same : (heap' idx).payload = (heap idx).payload)
    (parents : ∀ child ∈ (heap idx).children, (heap' child).parent = (heap child).parent) :
    InternalOk heap' layout idx := by
  have sameKeys := Node.keys_of_payload same
  have sameChildren := Node.children_of_payload same
  refine ⟨?_, ?_, ?_, ?_, fun child isChild => ?_⟩
  · rw [Node.isLeaf_of_payload same]; exact old.internal
  · rw [sameChildren, sameKeys]; exact old.paired
  · rw [sameKeys]; exact old.nonempty
  · rw [sameKeys]; exact old.fits
  · rw [sameChildren] at isChild
    rw [parents child isChild]
    exact old.parents child isChild

theorem flatMap_expand_payload {heap heap' : Heap K V} {items : List (LevelItem K)}
    (same : ∀ idx ∈ Item.nodes items, (heap' idx).payload = (heap idx).payload) :
    items.flatMap (expand heap') = items.flatMap (expand heap) := by
  refine List.flatMap_congr fun item member => ?_
  cases item with
  | sep key => rfl
  | node idx =>
      have unchanged := same idx (Item.mem_nodes.mpr member)
      rw [expand, expand, Node.keys_of_payload unchanged, Node.children_of_payload unchanged]

namespace Owned

theorem apart {arena : Arena K V} {left right : List NodeIdx} (owned : Owned arena (left ++ right)) :
    ∀ idx ∈ left, idx ∉ right := by
  intro idx inLeft inRight
  exact (List.nodup_append.mp owned.nodup_idxs).2.2 idx inLeft idx inRight rfl

end Owned

namespace CrownAt

variable {layout : NodeLayout} {tree tree' : RawBTree K V} {root : NodeIdx} {depth : Nat}
  {items : List (LevelItem K)} {rest rest' : List NodeIdx}

theorem perm (crownAt : CrownAt layout tree root depth items rest) (same : rest'.Perm rest) :
    CrownAt layout tree root depth items rest' :=
  ⟨crownAt.root_eq, crownAt.crown, crownAt.level_eq, crownAt.owned.perm (same.append_left _)⟩

/-- One level up, the nodes of the row are among the rest. -/
theorem pop (crownAt : CrownAt layout tree root (depth + 1) items rest) :
    CrownAt layout tree root depth (level tree.node root depth) (Item.nodes items ++ rest) := by
  refine ⟨crownAt.root_eq, crownAt.crown.1, rfl, ?_⟩
  simpa [above] using crownAt.owned

/-- One level down, when the nodes of the row are complete. -/
theorem push (crownAt : CrownAt layout tree root depth items rest)
    (internal : ∀ idx ∈ Item.nodes items, InternalOk tree.node layout idx)
    (same : (Item.nodes (items.flatMap (expand tree.node)) ++ rest').Perm rest) :
    CrownAt layout tree root (depth + 1) (items.flatMap (expand tree.node)) rest' := by
  refine ⟨crownAt.root_eq, ⟨crownAt.crown, ?_⟩, ?_, ?_⟩
  · rw [crownAt.level_eq]; exact internal
  · rw [level, crownAt.level_eq]
  · rw [above, crownAt.level_eq]
    have moved := crownAt.owned.perm (same.append_left _)
    simpa using moved

/-- An update below the crown. -/
theorem update (crownAt : CrownAt layout tree root depth items rest)
    (sameRoot : tree'.root = tree.root) (sameFree : tree'.arena.free = tree.arena.free)
    (sameLen : tree'.arena.len = tree.arena.len)
    (same : ∀ idx ∈ above tree.node root depth, tree'.node idx = tree.node idx)
    (parents : ∀ idx ∈ Item.nodes items, (tree'.node idx).parent = (tree.node idx).parent) :
    CrownAt layout tree' root depth items rest := by
  obtain ⟨sameLevel, sameAbove⟩ := level_above_congr same
  refine ⟨sameRoot.trans crownAt.root_eq, crownAt.crown.congr same ?_, sameLevel.trans crownAt.level_eq, ?_⟩
  · rw [crownAt.level_eq]; exact parents
  · rw [sameAbove]
    exact crownAt.owned.of_same sameFree sameLen

/-- A fresh node joins the rest. -/
theorem alloc (crownAt : CrownAt layout tree root depth items rest) :
    CrownAt layout tree.allocNode.2 root depth items (tree.allocNode.1 :: rest) ∧
      ∀ idx ∈ above tree.node root depth ++ Item.nodes items ++ rest,
        idx ≠ tree.allocNode.1 ∧ tree.allocNode.2.node idx = tree.node idx := by
  obtain ⟨owned, unchanged⟩ := crownAt.owned.alloc
  have fresh : ∀ idx ∈ above tree.node root depth ++ Item.nodes items ++ rest,
      idx ≠ tree.allocNode.1 ∧ tree.allocNode.2.node idx = tree.node idx := by
    intro idx member
    have different : idx ≠ tree.allocNode.1 := fun same =>
      (List.nodup_cons.mp owned.nodup_idxs).1 (same ▸ member)
    exact ⟨different, unchanged idx different⟩
  have sameAbove : ∀ idx ∈ above tree.node root depth, tree.allocNode.2.node idx = tree.node idx :=
    fun idx member => (fresh idx (by simp [member])).2
  obtain ⟨sameLevel, sameUpper⟩ := level_above_congr sameAbove
  refine ⟨⟨crownAt.root_eq, crownAt.crown.congr sameAbove ?_, sameLevel.trans crownAt.level_eq, ?_⟩, fresh⟩
  · rw [crownAt.level_eq]
    exact fun idx member => by rw [(fresh idx (by simp [member])).2]
  · rw [sameUpper]
    refine owned.perm ?_
    exact List.perm_middle

/-- Completing a level whose nodes are as before, except for a stretch of it. -/
theorem rebuild {upLeft middle upRight : List (LevelItem K)} {heap : Heap K V}
    (crownAt : CrownAt layout tree root depth (upLeft ++ middle ++ upRight) rest)
    (outer : ∀ idx ∈ Item.nodes upLeft ++ Item.nodes upRight,
      InternalOk heap layout idx ∧ (tree.node idx).payload = (heap idx).payload ∧
        ∀ child ∈ (heap idx).children, (tree.node child).parent = (heap child).parent)
    (inner : ∀ idx ∈ Item.nodes middle, InternalOk tree.node layout idx)
    (same : (Item.nodes (upLeft.flatMap (expand heap) ++ middle.flatMap (expand tree.node) ++
      upRight.flatMap (expand heap)) ++ rest').Perm rest) :
    CrownAt layout tree root (depth + 1) (upLeft.flatMap (expand heap) ++
      middle.flatMap (expand tree.node) ++ upRight.flatMap (expand heap)) rest' := by
  have leftRow : upLeft.flatMap (expand tree.node) = upLeft.flatMap (expand heap) :=
    flatMap_expand_payload fun idx member => (outer idx (List.mem_append_left _ member)).2.1
  have rightRow : upRight.flatMap (expand tree.node) = upRight.flatMap (expand heap) :=
    flatMap_expand_payload fun idx member => (outer idx (List.mem_append_right _ member)).2.1
  rw [← leftRow, ← rightRow, ← List.flatMap_append, ← List.flatMap_append] at same ⊢
  refine crownAt.push (fun idx member => ?_) same
  simp only [Item.nodes_append, List.mem_append] at member
  rcases member with (member | member) | member
  · obtain ⟨old, unchanged, parents⟩ := outer idx (List.mem_append_left _ member)
    exact old.congr unchanged parents
  · exact inner idx member
  · obtain ⟨old, unchanged, parents⟩ := outer idx (List.mem_append_right _ member)
    exact old.congr unchanged parents

/-- Completing a level whose nodes were complete before the crown above them was
worked on. -/
theorem lower {row : List NodeIdx} (crownAt : CrownAt layout tree' root depth items rest)
    (kept : Kept tree tree' row rest) (inRow : ∀ idx ∈ Item.nodes items, idx ∈ row)
    (internal : ∀ idx ∈ Item.nodes items, InternalOk tree.node layout idx)
    (same : (Item.nodes (items.flatMap (expand tree.node)) ++ rest').Perm rest) :
    CrownAt layout tree' root (depth + 1) (items.flatMap (expand tree.node)) rest' := by
  have sameRow : items.flatMap (expand tree'.node) = items.flatMap (expand tree.node) :=
    flatMap_expand_payload fun idx member => kept.payload idx (inRow idx member)
  rw [← sameRow] at same ⊢
  refine crownAt.push (fun idx member => ?_) same
  refine (internal idx member).congr (kept.payload idx (inRow idx member)) fun child isChild => ?_
  rw [kept.rest child]
  refine same.subset (List.mem_append_left _ ?_)
  rw [sameRow, nodes_expand fun idx member => (internal idx member).paired]
  exact List.mem_flatMap.mpr ⟨idx, member, isChild⟩

theorem nodup (crownAt : CrownAt layout tree root depth items rest) :
    (above tree.node root depth ++ Item.nodes items ++ rest).Nodup := crownAt.owned.nodup_idxs

theorem nodes_nodup (crownAt : CrownAt layout tree root depth items rest) :
    (Item.nodes (level tree.node root depth)).Nodup := by
  rw [crownAt.level_eq]
  exact crownAt.nodup.sublist ((List.sublist_append_right _ _).trans (List.sublist_append_left _ _))

end CrownAt

section Places
variable {layout : NodeLayout} {tree : RawBTree K V} {root child : NodeIdx} {depth : Nat}
  {left right : List (LevelItem K)} {rest : List NodeIdx}

theorem CrownAt.split_disjoint {items : List (LevelItem K)}
    (crownAt : CrownAt layout tree root (depth + 1) items rest) :
    (∀ idx ∈ above tree.node root depth, idx ∉ Item.nodes (level tree.node root depth) ∧
      idx ∉ Item.nodes items ∧ idx ∉ rest) ∧
    (∀ idx ∈ Item.nodes (level tree.node root depth), idx ∉ Item.nodes items ∧ idx ∉ rest) ∧
    (∀ idx ∈ Item.nodes items, idx ∉ rest) ∧ rest.Nodup := by
  have nodup := crownAt.nodup
  rw [above] at nodup
  simp only [List.nodup_append, List.mem_append] at nodup
  obtain ⟨⟨⟨_, _, upper⟩, _, lower⟩, restNodup, other⟩ := nodup
  refine ⟨fun idx member => ⟨?_, ?_, ?_⟩, fun idx member => ⟨?_, ?_⟩, ?_, restNodup⟩
  · exact fun inside => upper idx member idx inside rfl
  · exact fun inside => lower idx (.inl member) idx inside rfl
  · exact fun inside => other idx (.inl (.inl member)) idx inside rfl
  · exact fun inside => lower idx (.inr member) idx inside rfl
  · exact fun inside => other idx (.inl (.inr member)) idx inside rfl
  · exact fun idx member inside => other idx (.inr member) idx inside rfl

/-- The nodes beside the parent. -/
theorem Place.beside {heap : Heap K V} (place : Place heap root depth left child right)
    (unique : (Item.nodes (level heap root depth)).Nodup) :
    ∀ idx ∈ Item.nodes place.upLeft ++ Item.nodes place.upRight,
      idx ∈ Item.nodes (level heap root depth) ∧ idx ≠ place.parent := by
  intro idx member
  rw [place.level_eq] at unique ⊢
  simp only [Item.nodes_append, Item.nodes_node] at unique ⊢
  refine ⟨?_, fun same => ?_⟩
  · simp only [List.mem_append, List.mem_cons] at member ⊢
    tauto
  · exact (List.nodup_cons.mp (List.nodup_middle.mp unique)).1 (same ▸ member)

theorem childSlot_place (default : Nat) (place : Place tree.node root depth left child right)
    (notBefore : child ∉ place.before) :
    tree.childSlot place.parent child default = place.before.length := by
  have found : place.before.findIdx? (· == child) = none := by
    rw [List.findIdx?_eq_none_iff]
    intro other member
    simpa using fun same : other = child => notBefore (same ▸ member)
  simp [RawBTree.childSlot, place.children_eq, List.findIdx?_append, found, List.findIdx?_cons]

end Places

end Optimap.FlatBTree
