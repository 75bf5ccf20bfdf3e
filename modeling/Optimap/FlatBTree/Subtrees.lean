import Optimap.FlatBTree.BulkLevels
import Optimap.FlatBTree.Clone

/-!
# Subtrees

A node with everything below it, down to a fixed depth, every path of the same length. A
subtree depends on the keys and children of its nodes and on the parents of those below the
topmost one. The nodes of one level of a tree are the roots of subtrees side by side.
-/

set_option autoImplicit false
set_option linter.unusedSectionVars false

namespace Optimap.FlatBTree

open Lib

variable {K V : Type}

/-- The nodes strictly below a node, each in front of those below it. -/
def below (heap : Heap K V) : Nat → NodeIdx → List NodeIdx
  | 0, _ => []
  | depth + 1, idx => (heap idx).children.flatMap fun child => child :: below heap depth child

/-- The nodes of a subtree. -/
def under (heap : Heap K V) (depth : Nat) (idx : NodeIdx) : List NodeIdx := idx :: below heap depth idx

/-- The internal nodes of a subtree are in place, with a separator or without. -/
def Subtree (layout : NodeLayout) (heap : Heap K V) : Nat → NodeIdx → Prop
  | 0, _ => True
  | depth + 1, idx => LooseOk layout heap idx ∧ ∀ child ∈ (heap idx).children, Subtree layout heap depth child

/-- They all have a separator. -/
def Keyed (heap : Heap K V) : Nat → NodeIdx → Prop
  | 0, _ => True
  | depth + 1, idx => (heap idx).keys ≠ [] ∧ ∀ child ∈ (heap idx).children, Keyed heap depth child

/-- What a subtree reads of its nodes. -/
structure SameShape (heap heap' : Heap K V) (idx : NodeIdx) : Prop where
  isLeaf : (heap' idx).isLeaf = (heap idx).isLeaf
  keys : (heap' idx).keys = (heap idx).keys
  children : (heap' idx).children = (heap idx).children

theorem SameShape.of_payload {heap heap' : Heap K V} {idx : NodeIdx}
    (same : (heap' idx).payload = (heap idx).payload) : SameShape heap heap' idx :=
  ⟨Node.isLeaf_of_payload same, Node.keys_of_payload same, Node.children_of_payload same⟩

theorem SameShape.of_eq {heap heap' : Heap K V} {idx : NodeIdx} (same : heap' idx = heap idx) :
    SameShape heap heap' idx := .of_payload (by rw [same])

section Levels
variable {layout : NodeLayout} {heap heap' : Heap K V} {depth : Nat} {idx : NodeIdx}

theorem below_succ (heap : Heap K V) (depth : Nat) (idx : NodeIdx) :
    below heap (depth + 1) idx = (heap idx).children.flatMap (under heap depth) := rfl

theorem under_zero (heap : Heap K V) (idx : NodeIdx) : under heap 0 idx = [idx] := rfl

theorem under_succ (heap : Heap K V) (depth : Nat) (idx : NodeIdx) :
    under heap (depth + 1) idx = idx :: (heap idx).children.flatMap (under heap depth) := rfl

/-- A level is the row of the topmost node with the subtrees of its children in place. -/
theorem level_below (heap : Heap K V) (idx : NodeIdx) (depth : Nat) :
    level heap idx (depth + 1) =
      (Item.row (heap idx).children (heap idx).keys).flatMap (sublevel heap depth) := by
  rw [Nat.add_comm, level_add]
  simp [level, expand]

theorem sublevel_succ (heap : Heap K V) (depth : Nat) (items : List (LevelItem K)) :
    items.flatMap (sublevel heap (depth + 1)) = (items.flatMap (expand heap)).flatMap (sublevel heap depth) := by
  rw [List.flatMap_assoc]
  refine List.flatMap_congr fun item _ => ?_
  cases item with
  | sep key => rfl
  | node idx => exact level_below heap idx depth

theorem sublevel_zero (heap : Heap K V) (items : List (LevelItem K)) :
    items.flatMap (sublevel heap 0) = items := by
  have single : sublevel heap 0 = fun item => [item] := by
    funext item
    cases item <;> rfl
  rw [single]
  simp

theorem mem_under_self (heap : Heap K V) (depth : Nat) (idx : NodeIdx) : idx ∈ under heap depth idx :=
  List.mem_cons_self

theorem mem_under_child {child other : NodeIdx} (isChild : child ∈ (heap idx).children)
    (member : other ∈ under heap depth child) : other ∈ under heap (depth + 1) idx :=
  List.mem_cons_of_mem _ (List.mem_flatMap.mpr ⟨child, isChild, member⟩)

theorem flatMap_under_perm (heap : Heap K V) (depth : Nat) (tops : List NodeIdx) :
    (tops.flatMap (under heap depth)).Perm (tops ++ tops.flatMap (below heap depth)) := by
  have apart := List.flatMap_append_perm tops (fun top => [top]) (below heap depth)
  rw [List.flatMap_singleton'] at apart
  exact apart.symm

theorem flatMap_sublevel_congr {children : List NodeIdx} {keys : List (KeyObj K)}
    (paired : children.length = keys.length + 1)
    (same : ∀ child ∈ children, level heap' child depth = level heap child depth) :
    (Item.row children keys).flatMap (sublevel heap' depth) =
      (Item.row children keys).flatMap (sublevel heap depth) := by
  refine List.flatMap_congr fun item member => ?_
  cases item with
  | sep key => rfl
  | node child =>
      have isChild := Item.mem_nodes.mpr member
      rw [Item.nodes_row paired] at isChild
      exact same child isChild

theorem under_child_nodup {child : NodeIdx} (isChild : child ∈ (heap idx).children)
    (unique : (under heap (depth + 1) idx).Nodup) : (under heap depth child).Nodup := by
  obtain ⟨before, after, split⟩ := List.append_of_mem isChild
  have rest := (List.nodup_cons.mp unique).2
  rw [below_succ, split, List.flatMap_append, List.flatMap_cons] at rest
  exact rest.sublist ((List.sublist_append_left _ _).trans (List.sublist_append_right _ _))

/-- Below the topmost node no node is that one. -/
theorem ne_top_of_mem {child other : NodeIdx} (isChild : child ∈ (heap idx).children)
    (unique : (under heap (depth + 1) idx).Nodup) (member : other ∈ under heap depth child) : other ≠ idx := by
  rintro rfl
  exact (List.nodup_cons.mp unique).1 (List.mem_flatMap.mpr ⟨child, isChild, member⟩)

namespace Subtree

theorem nodes_level (sub : Subtree layout heap (depth + 1) idx) :
    Item.nodes (level heap idx (depth + 1)) =
      (heap idx).children.flatMap fun child => Item.nodes (level heap child depth) := by
  rw [level_below, nodes_sublevels, Item.nodes_row sub.1.paired]

/-- The nodes of a subtree, level by level. -/
theorem under_perm (sub : Subtree layout heap depth idx) :
    (under heap depth idx).Perm (above heap idx depth ++ Item.nodes (level heap idx depth)) := by
  induction depth generalizing idx with
  | zero => exact List.Perm.refl _
  | succ depth ih =>
      rw [sub.nodes_level, under_succ]
      have perChild : ((heap idx).children.flatMap (under heap depth)).Perm
          ((heap idx).children.flatMap fun child =>
            above heap child depth ++ Item.nodes (level heap child depth)) :=
        List.Perm.flatMap_left _ fun child isChild => ih (sub.2 child isChild)
      have apart := List.flatMap_append_perm (heap idx).children (fun child => above heap child depth)
        fun child => Item.nodes (level heap child depth)
      have upper := (@above_succ_perm _ _ heap idx depth sub.1.paired).append_right
        ((heap idx).children.flatMap fun child => Item.nodes (level heap child depth))
      exact (List.Perm.cons idx (perChild.trans apart.symm)).trans upper

/-- The leaves are among the nodes. -/
theorem leaves_subset (sub : Subtree layout heap depth idx) :
    ∀ leaf ∈ Item.nodes (level heap idx depth), leaf ∈ under heap depth idx :=
  fun _ member => sub.under_perm.mem_iff.mpr (List.mem_append_right _ member)

theorem at_level (sub : Subtree layout heap depth idx) {upper : Nat} (lower : upper < depth) {other : NodeIdx}
    (member : other ∈ Item.nodes (level heap idx upper)) : LooseOk layout heap other := by
  induction depth generalizing idx upper with
  | zero => exact absurd lower (Nat.not_lt_zero _)
  | succ depth ih =>
      obtain ⟨top, children⟩ := sub
      cases upper with
      | zero =>
          obtain rfl : other = idx := by simpa [level] using member
          exact top
      | succ upper =>
          rw [level_below, nodes_sublevels, Item.nodes_row top.paired] at member
          obtain ⟨child, isChild, inside⟩ := List.mem_flatMap.mp member
          exact ih (children child isChild) (Nat.lt_of_succ_lt_succ lower) inside

/-- The rows and the nodes only depend on keys and children. -/
theorem level_congr (sub : Subtree layout heap depth idx)
    (same : ∀ other ∈ under heap depth idx, SameShape heap heap' other) :
    level heap' idx depth = level heap idx depth ∧ under heap' depth idx = under heap depth idx := by
  induction depth generalizing idx with
  | zero => exact ⟨rfl, rfl⟩
  | succ depth ih =>
      obtain ⟨loose, children⟩ := sub
      have top := same idx (mem_under_self _ _ _)
      have perChild : ∀ child ∈ (heap idx).children, level heap' child depth = level heap child depth ∧
          under heap' depth child = under heap depth child :=
        fun child isChild => ih (children child isChild) fun other member => same other (mem_under_child isChild member)
      refine ⟨?_, ?_⟩
      · rw [level_below, level_below, top.keys, top.children]
        exact flatMap_sublevel_congr loose.paired fun child isChild => (perChild child isChild).1
      · rw [under_succ, under_succ, top.children]
        exact congrArg _ (List.flatMap_congr fun child isChild => (perChild child isChild).2)

theorem congr (sub : Subtree layout heap depth idx) (unique : (under heap depth idx).Nodup)
    (same : ∀ other ∈ under heap depth idx, SameShape heap heap' other)
    (parents : ∀ other ∈ below heap depth idx, (heap' other).parent = (heap other).parent) :
    Subtree layout heap' depth idx := by
  induction depth generalizing idx with
  | zero => trivial
  | succ depth ih =>
      obtain ⟨loose, children⟩ := sub
      have top := same idx (mem_under_self _ _ _)
      have inside : ∀ child ∈ (heap idx).children, ∀ other ∈ under heap depth child,
          other ∈ below heap (depth + 1) idx :=
        fun child isChild other member => List.mem_flatMap.mpr ⟨child, isChild, member⟩
      refine ⟨⟨?_, ?_, ?_, fun child isChild => ?_⟩, fun child isChild => ?_⟩
      · rw [top.isLeaf]; exact loose.internal
      · rw [top.children, top.keys]; exact loose.paired
      · rw [top.keys]; exact loose.fits
      · rw [top.children] at isChild
        rw [parents child (inside child isChild child (mem_under_self _ _ _))]
        exact loose.parents child isChild
      · rw [top.children] at isChild
        refine ih (children child isChild) (under_child_nodup isChild unique) ?_ ?_
        · exact fun other member => same other (mem_under_child isChild member)
        · exact fun other member => parents other (inside child isChild other (List.mem_cons_of_mem _ member))

end Subtree

theorem Keyed.congr (keyed : Keyed heap depth idx)
    (same : ∀ other ∈ under heap depth idx, SameShape heap heap' other) : Keyed heap' depth idx := by
  induction depth generalizing idx with
  | zero => trivial
  | succ depth ih =>
      have top := same idx (mem_under_self _ _ _)
      refine ⟨?_, fun child isChild => ?_⟩
      · rw [top.keys]; exact keyed.1
      · rw [top.children] at isChild
        exact ih (keyed.2 child isChild) fun other member => same other (mem_under_child isChild member)

/-- A subtree with separators everywhere consists of well-formed nodes. -/
theorem Subtree.internalOk (sub : Subtree layout heap (depth + 1) idx) (keyed : Keyed heap (depth + 1) idx) :
    InternalOk heap layout idx :=
  ⟨sub.1.internal, sub.1.paired, List.length_pos_iff.mpr keyed.1, sub.1.fits, sub.1.parents⟩

end Levels

section Forests
variable {layout : NodeLayout} {heap heap' : Heap K V} {depth : Nat} {tops : List NodeIdx}

theorem eq_of_mem_under {top other : NodeIdx} (unique : (tops.flatMap (under heap depth)).Nodup)
    (isTop : top ∈ tops) (otherTop : other ∈ tops) (member : other ∈ under heap depth top) : other = top := by
  by_contra different
  have symmetric : Std.Symm (Function.onFun List.Disjoint (under heap depth)) := ⟨fun _ _ separate => separate.symm⟩
  have apart := (List.nodup_flatMap.mp unique).2.forall otherTop isTop different
  exact apart (mem_under_self heap depth other) member

theorem tops_nodup (unique : (tops.flatMap (under heap depth)).Nodup) : tops.Nodup := by
  refine List.nodup_iff_pairwise_ne.mpr (List.Pairwise.imp (fun {a b} separate same => ?_)
    (List.nodup_flatMap.mp unique).2)
  exact separate (mem_under_self heap depth a) (same ▸ mem_under_self heap depth b)

/-- Subtrees side by side, after their topmost nodes got other parents at most. -/
theorem Subtree.forest_congr (unique : (tops.flatMap (under heap depth)).Nodup)
    (subs : ∀ top ∈ tops, Subtree layout heap depth top)
    (same : ∀ other ∈ tops.flatMap (under heap depth), SameShape heap heap' other ∧
      (other ∉ tops → (heap' other).parent = (heap other).parent)) {top : NodeIdx} (isTop : top ∈ tops) :
    Subtree layout heap' depth top ∧ level heap' top depth = level heap top depth ∧
      under heap' depth top = under heap depth top := by
  have inside : ∀ other ∈ under heap depth top, other ∈ tops.flatMap (under heap depth) :=
    fun other member => List.mem_flatMap.mpr ⟨top, isTop, member⟩
  have alike : ∀ other ∈ under heap depth top, SameShape heap heap' other :=
    fun other member => (same other (inside other member)).1
  have distinct := (List.nodup_flatMap.mp unique).1 top isTop
  refine ⟨(subs top isTop).congr distinct alike fun other member => ?_, (subs top isTop).level_congr alike⟩
  have member' : other ∈ under heap depth top := List.mem_cons_of_mem _ member
  refine (same other (inside other member')).2 fun otherTop => ?_
  obtain rfl := eq_of_mem_under unique isTop otherTop member'
  exact (List.nodup_cons.mp distinct).1 member

end Forests

section Crowns
variable {layout : NodeLayout} {tree tree' : RawBTree K V} {root : NodeIdx} {depth : Nat}
  {items : List (LevelItem K)} {row rest rest' : List NodeIdx}

/-- The nodes strictly below a row, its own row of children first. -/
theorem below_row_perm {heap : Heap K V} (steps : Nat)
    (paired : ∀ idx ∈ Item.nodes items, (heap idx).children.length = (heap idx).keys.length + 1) :
    (Item.nodes (items.flatMap (expand heap)) ++
        (Item.nodes (items.flatMap (expand heap))).flatMap (below heap steps)).Perm
      ((Item.nodes items).flatMap (below heap (steps + 1))) := by
  have whole : (Item.nodes items).flatMap (below heap (steps + 1)) =
      (Item.nodes (items.flatMap (expand heap))).flatMap (under heap steps) := by
    rw [nodes_expand paired, List.flatMap_assoc]
    rfl
  rw [whole]
  exact (flatMap_under_perm heap steps _).symm

/-- Further up, the nodes of a level are the roots of subtrees. -/
theorem CrownAt.rises (steps : Nat) (crownAt : CrownAt layout tree root (depth + steps) items rest) :
    CrownAt layout tree root depth (level tree.node root depth)
        ((Item.nodes (level tree.node root depth)).flatMap (below tree.node steps) ++ rest) ∧
      items = (level tree.node root depth).flatMap (sublevel tree.node steps) ∧
      ∀ idx ∈ Item.nodes (level tree.node root depth),
        Subtree layout tree.node steps idx ∧ Keyed tree.node steps idx := by
  induction steps generalizing depth with
  | zero =>
      have levelEq := crownAt.level_eq
      refine ⟨?_, by rw [sublevel_zero, ← levelEq]; rfl, fun idx _ => ⟨trivial, trivial⟩⟩
      have none : (Item.nodes (level tree.node root depth)).flatMap (below tree.node 0) = [] := by
        simp [below]
      rw [none, List.nil_append]
      exact ⟨crownAt.root_eq, crownAt.crown, rfl, by rw [show level tree.node root depth = items from levelEq]; exact crownAt.owned⟩
  | succ steps ih =>
      have shift : depth + (steps + 1) = depth + 1 + steps := by omega
      rw [shift] at crownAt
      obtain ⟨lower, itemsEq, subs⟩ := ih crownAt
      have internal := lower.crown.2
      have paired : ∀ idx ∈ Item.nodes (level tree.node root depth),
          (tree.node idx).children.length = (tree.node idx).keys.length + 1 :=
        fun idx member => (internal idx member).paired
      refine ⟨lower.pop.perm ?_, ?_, fun idx member => ?_⟩
      · rw [← List.append_assoc]
        exact (below_row_perm steps paired).symm.append_right rest
      · rw [itemsEq, sublevel_succ]
        rfl
      · have ok := internal idx member
        have childSubs : ∀ child ∈ (tree.node idx).children,
            Subtree layout tree.node steps child ∧ Keyed tree.node steps child :=
          fun child isChild => subs child (lower.crown.child_mem member isChild)
        exact ⟨⟨⟨ok.internal, ok.paired, ok.fits, ok.parents⟩, fun child isChild => (childSubs child isChild).1⟩,
          List.length_pos_iff.mp ok.nonempty, fun child isChild => (childSubs child isChild).2⟩

/-- Down to the leaves again, when only the crown above the row was worked on. -/
theorem CrownAt.lowers (steps : Nat) (crownAt : CrownAt layout tree' root depth items rest')
    (same : rest'.Perm ((Item.nodes items).flatMap (below tree.node steps) ++ rest))
    (kept : Kept tree tree' row rest') (inRow : ∀ idx ∈ Item.nodes items, idx ∈ row)
    (subs : ∀ idx ∈ Item.nodes items, Subtree layout tree.node steps idx ∧ Keyed tree.node steps idx) :
    CrownAt layout tree' root (depth + steps) (items.flatMap (sublevel tree.node steps)) rest := by
  induction steps generalizing depth items row rest' with
  | zero =>
      have none : (Item.nodes items).flatMap (below tree.node 0) = [] := by simp [below]
      rw [none, List.nil_append] at same
      rw [sublevel_zero]
      exact crownAt.perm same.symm
  | succ steps ih =>
      have internal : ∀ idx ∈ Item.nodes items, InternalOk tree.node layout idx :=
        fun idx member => (subs idx member).1.internalOk (subs idx member).2
      have paired := fun idx member => (internal idx member).paired
      have moved : (Item.nodes (items.flatMap (expand tree.node)) ++
          ((Item.nodes (items.flatMap (expand tree.node))).flatMap (below tree.node steps) ++ rest)).Perm rest' := by
        rw [← List.append_assoc]
        exact ((below_row_perm steps paired).append_right rest).trans same.symm
      have lowered := crownAt.lower kept inRow internal moved
      have shift : depth + (steps + 1) = depth + 1 + steps := by omega
      rw [shift, sublevel_succ]
      refine @ih _ _ (Item.nodes (items.flatMap (expand tree.node))) _ lowered (List.Perm.refl _) ?_
        (fun idx member => member) ?_
      · refine ⟨fun idx member => ?_, fun idx member => ?_, kept.firstLeaf, kept.lastLeaf, kept.len⟩
        · rw [kept.rest idx (moved.subset (List.mem_append_left _ member))]
        · exact kept.rest idx (moved.subset (List.mem_append_right _ member))
      · intro idx member
        rw [nodes_expand paired] at member
        obtain ⟨parent, isParent, isChild⟩ := List.mem_flatMap.mp member
        exact ⟨(subs parent isParent).1.2 idx isChild, (subs parent isParent).2.2 idx isChild⟩

/-- Under an orphaned root, a subtree with separators everywhere is the crown of the tree. -/
theorem Subtree.crownAt (rootEq : tree.root = some root) (orphan : (tree.node root).parent = none)
    (sub : Subtree layout tree.node depth root) (keyed : Keyed tree.node depth root)
    (owned : Owned tree.arena (under tree.node depth root ++ rest)) :
    CrownAt layout tree root depth (level tree.node root depth) rest := by
  have top : CrownAt layout tree root 0 [.node root] (below tree.node depth root ++ rest) :=
    ⟨rootEq, orphan, rfl, owned⟩
  have kept : Kept tree tree [root] (below tree.node depth root ++ rest) :=
    ⟨fun _ _ => rfl, fun _ _ => rfl, rfl, rfl, rfl⟩
  have lowered := @CrownAt.lowers _ _ _ _ _ _ _ _ _ rest _ depth top ?_ kept ?_ ?_
  · simpa [sublevel] using lowered
  · simp
  · simp
  · intro idx member
    obtain rfl : idx = root := by simpa using member
    exact ⟨sub, keyed⟩

end Crowns

end Optimap.FlatBTree
