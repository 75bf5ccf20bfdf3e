import Optimap.FlatBTree.SplitOff
import Optimap.FlatBTree.Subtrees

/-!
# Hollow tops

A cut can leave internal nodes without keys along one edge of a half. Where they are all at
the top, taking them out lowers the root and leaves every path to a leaf of the same length.
-/

set_option autoImplicit false
set_option linter.unusedSectionVars false

namespace Optimap.FlatBTree

open Lib

variable {K V : Type}

section Hollow

/-- Nodes without keys, if any, come first on the way down. -/
def HollowTop (heap : Heap K V) : Nat → NodeIdx → Prop
  | 0, _ => True
  | depth + 1, idx => Keyed heap (depth + 1) idx ∨
      ((heap idx).keys = [] ∧ ∀ child ∈ (heap idx).children, HollowTop heap depth child)

variable {heap heap' : Heap K V} {layout : NodeLayout} {depth : Nat} {idx : NodeIdx}

theorem Keyed.hollowTop (keyed : Keyed heap depth idx) : HollowTop heap depth idx := by
  cases depth with
  | zero => trivial
  | succ depth => exact .inl keyed

theorem HollowTop.congr (hollow : HollowTop heap depth idx)
    (same : ∀ other ∈ under heap depth idx, SameShape heap heap' other) : HollowTop heap' depth idx := by
  induction depth generalizing idx with
  | zero => trivial
  | succ depth ih =>
      rcases hollow with keyed | ⟨bare, children⟩
      · exact .inl (keyed.congr same)
      · have top := same idx (mem_under_self _ _ _)
        refine .inr ⟨by rw [top.keys]; exact bare, fun child isChild => ?_⟩
        rw [top.children] at isChild
        exact ih (children child isChild) fun other member => same other (mem_under_child isChild member)

/-- Counts of keys from the bottom of a path up: above a node without keys there are only such. -/
def Tapers (counts : List Nat) : Prop := counts.Pairwise fun lower upper => lower = 0 → upper = 0

instance (counts : List Nat) : Decidable (Tapers counts) := inferInstanceAs (Decidable (counts.Pairwise _))

theorem Tapers.concat {counts : List Nat} {count : Nat} (tapers : Tapers (counts ++ [count])) :
    Tapers counts ∧ (count ≠ 0 → ∀ lower ∈ counts, lower ≠ 0) := by
  obtain ⟨lower, _, upper⟩ := List.pairwise_append.mp tapers
  exact ⟨lower, fun stored other member none => stored (upper other member count (List.mem_singleton.mpr rfl) none)⟩

/-- What the counts of keys along the cut edge say about the nodes of a half. -/
structure Hollowed (heap : Heap K V) (counts : List Nat) (depth : Nat) (idx : NodeIdx) : Prop where
  keyed : (∀ count ∈ counts, count ≠ 0) → Keyed heap depth idx
  top : Tapers counts → HollowTop heap depth idx

theorem Hollowed.congr {counts : List Nat} (hollowed : Hollowed heap counts depth idx)
    (same : ∀ other ∈ under heap depth idx, SameShape heap heap' other) : Hollowed heap' counts depth idx :=
  ⟨fun stored => (hollowed.keyed stored).congr same, fun tapers => (hollowed.top tapers).congr same⟩

theorem Keyed.hollowed {counts : List Nat} (keyed : Keyed heap depth idx) : Hollowed heap counts depth idx :=
  ⟨fun _ => keyed, fun _ => keyed.hollowTop⟩

/-- One level up along the cut edge. -/
theorem Hollowed.up {counts : List Nat} {below : NodeIdx} (hollowed : Hollowed heap counts depth below)
    (paired : (heap idx).children.length = (heap idx).keys.length + 1) (edge : below ∈ (heap idx).children)
    (others : ∀ child ∈ (heap idx).children, child = below ∨ Keyed heap depth child) :
    Hollowed heap (counts ++ [(heap idx).keys.length]) (depth + 1) idx := by
  have complete : Keyed heap depth below → (heap idx).keys ≠ [] → Keyed heap (depth + 1) idx := by
    intro keyed stored
    refine ⟨stored, fun child isChild => ?_⟩
    rcases others child isChild with rfl | whole
    · exact keyed
    · exact whole
  refine ⟨fun stored => complete (hollowed.keyed fun count member => stored count (List.mem_append_left _ member)) ?_,
    fun tapers => ?_⟩
  · exact List.length_pos_iff.mp (Nat.pos_of_ne_zero (stored _ (by simp)))
  · obtain ⟨lower, above⟩ := tapers.concat
    by_cases bare : (heap idx).keys = []
    · refine .inr ⟨bare, fun child isChild => ?_⟩
      rw [bare, List.length_nil, Nat.zero_add, List.length_eq_one_iff] at paired
      obtain ⟨only, children⟩ := paired
      rw [children, List.mem_singleton] at edge isChild
      rw [isChild, ← edge]
      exact hollowed.top lower
    · exact .inl (complete (hollowed.keyed (above (by simpa using bare))) bare)

end Hollow

section Collapse
variable {layout : NodeLayout} {tree tree' : RawBTree K V} {depth fuel : Nat} {idx : NodeIdx} {edge : CollapseEdge}

theorem readSlot_eq {α : Type} {slots : List α} {slot : Nat} (inside : slot < slots.length) :
    ∃ value, readSlot slots slot = .ok value ∧ value ∈ slots :=
  ⟨slots[slot], by rw [readSlot, List.getElem?_eq_getElem inside], List.getElem_mem inside⟩

theorem leaf_below {child : NodeIdx} (sub : Subtree layout tree.node (depth + 1) idx)
    (isChild : child ∈ (tree.node idx).children)
    (leaf : ∀ leaf ∈ Item.nodes (level tree.node idx (depth + 1)), (tree.node leaf).isLeaf = true) :
    ∀ leaf ∈ Item.nodes (level tree.node child depth), (tree.node leaf).isLeaf = true := by
  intro other member
  refine leaf other ?_
  rw [sub.nodes_level]
  exact List.mem_flatMap.mpr ⟨child, isChild, member⟩

/-- Where every node has keys there is nothing to take out. -/
theorem collapseAlongEdge_keyed {holder : Option (NodeIdx × Nat)} {newRoot : NodeIdx} (enough : depth ≤ fuel)
    (sub : Subtree layout tree.node depth idx) (keyed : Keyed tree.node depth idx)
    (leaf : ∀ leaf ∈ Item.nodes (level tree.node idx depth), (tree.node leaf).isLeaf = true) :
    RawBTree.collapseAlongEdge edge fuel holder newRoot idx tree = .ok (newRoot, tree) := by
  induction depth generalizing fuel holder idx with
  | zero =>
      have isLeaf : (tree.node idx).isLeaf = true := leaf idx (by simp [level])
      unfold RawBTree.collapseAlongEdge
      rw [if_pos isLeaf]
  | succ depth ih =>
      obtain ⟨fuel, rfl⟩ : ∃ less, fuel = less + 1 := ⟨fuel - 1, by omega⟩
      have stored : ¬ (tree.node idx).keys.length = 0 := fun none => keyed.1 (List.length_eq_zero_iff.mp none)
      have inside : edge.slot (tree.node idx).keys.length < (tree.node idx).children.length := by
        rw [sub.1.paired]
        cases edge <;> simp [CollapseEdge.slot]
      obtain ⟨child, read, isChild⟩ := readSlot_eq inside
      unfold RawBTree.collapseAlongEdge
      rw [if_neg (by rw [sub.1.internal]; exact Bool.false_ne_true)]
      simp only [if_neg stored, read, bind, Except.bind]
      exact ih (Nat.le_of_succ_le_succ enough) (sub.2 child isChild) (keyed.2 child isChild) (leaf_below sub isChild leaf)

/-- What is left when the top is taken out. -/
structure Settled (layout : NodeLayout) (tree tree' : RawBTree K V) (depth : Nat) (idx : NodeIdx) (height : Nat)
    (root : NodeIdx) : Prop where
  lower : height ≤ depth
  sub : Subtree layout tree'.node height root
  keyed : Keyed tree'.node height root
  level_eq : level tree'.node root height = level tree.node idx depth
  orphan : (tree'.node root).parent = none
  owned : Owned tree'.arena (under tree'.node height root)
  payload : ∀ other, (tree'.node other).payload = (tree.node other).payload
  frame : tree' = { tree with arena := tree'.arena }

theorem Settled.leaf {height : Nat} {root : NodeIdx} (settled : Settled layout tree tree' depth idx height root)
    (leaf : ∀ leaf ∈ Item.nodes (level tree.node idx depth), (tree.node leaf).isLeaf = true) :
    ∀ leaf ∈ Item.nodes (level tree'.node root height), (tree'.node leaf).isLeaf = true := by
  rw [settled.level_eq]
  intro other member
  rw [Node.isLeaf_of_payload (settled.payload other)]
  exact leaf other member

theorem node_setParent_parent (parent : Option NodeIdx) (idx : NodeIdx) :
    ((tree.setParent parent idx).node idx).parent = parent := by
  rw [RawBTree.setParent, RawBTree.node_modify_self]

theorem node_setParent_payload (parent : Option NodeIdx) (idx other : NodeIdx) :
    ((tree.setParent parent idx).node other).payload = (tree.node other).payload := by
  rw [RawBTree.setParent, RawBTree.node_modify]
  split
  · next same => rw [same]; rfl
  · rfl

/-- Below a node that gets another parent nothing changes. -/
theorem Subtree.reparent (sub : Subtree layout tree.node depth idx) (unique : (under tree.node depth idx).Nodup)
    (parent : Option NodeIdx) :
    Subtree layout (tree.setParent parent idx).node depth idx ∧
      level (tree.setParent parent idx).node idx depth = level tree.node idx depth ∧
      under (tree.setParent parent idx).node depth idx = under tree.node depth idx := by
  have shapes : ∀ other ∈ under tree.node depth idx, SameShape tree.node (tree.setParent parent idx).node other :=
    fun other _ => .of_payload (node_setParent_payload parent idx other)
  refine ⟨sub.congr unique shapes fun other member => ?_, sub.level_congr shapes⟩
  have different : other ≠ idx := fun same => (List.nodup_cons.mp unique).1 (same ▸ member)
  rw [RawBTree.setParent, RawBTree.node_modify_of_ne _ different]

theorem collapseAlongEdge_settles (enough : depth ≤ fuel) (sub : Subtree layout tree.node depth idx)
    (hollow : HollowTop tree.node depth idx)
    (leaf : ∀ leaf ∈ Item.nodes (level tree.node idx depth), (tree.node leaf).isLeaf = true)
    (orphan : (tree.node idx).parent = none) (owned : Owned tree.arena (under tree.node depth idx)) :
    ∃ root height tree', RawBTree.collapseAlongEdge edge fuel none idx idx tree = .ok (root, tree') ∧
      Settled layout tree tree' depth idx height root := by
  induction depth generalizing fuel idx tree with
  | zero =>
      exact ⟨idx, 0, tree, collapseAlongEdge_keyed enough sub trivial leaf,
        ⟨le_rfl, sub, trivial, rfl, orphan, owned, fun _ => rfl, rfl⟩⟩
  | succ depth ih =>
      rcases hollow with keyed | ⟨bare, children⟩
      · exact ⟨idx, depth + 1, tree, collapseAlongEdge_keyed enough sub keyed leaf,
          ⟨le_rfl, sub, keyed, rfl, orphan, owned, fun _ => rfl, rfl⟩⟩
      obtain ⟨fuel, rfl⟩ : ∃ less, fuel = less + 1 := ⟨fuel - 1, by omega⟩
      have paired := sub.1.paired
      rw [bare, List.length_nil, Nat.zero_add, List.length_eq_one_iff] at paired
      obtain ⟨only, childrenEq⟩ := paired
      have isChild : only ∈ (tree.node idx).children := by rw [childrenEq]; exact List.mem_singleton.mpr rfl
      have unique := under_child_nodup isChild owned.nodup_idxs
      obtain ⟨subOnly, levelOnly, underOnly⟩ := (sub.2 only isChild).reparent unique none
      have below : level tree.node idx (depth + 1) = level tree.node only depth := by
        rw [level_below, childrenEq, bare]
        simp [Item.row, Item.trail, sublevel]
      have underEq : under tree.node (depth + 1) idx = idx :: under tree.node depth only := by
        rw [under_succ, childrenEq]
        simp
      have ownedOnly : Owned ((tree.setParent none only).freeNode idx).arena
          (under (tree.setParent none only).node depth only) := by
        rw [underOnly]
        rw [underEq] at owned
        exact (show Owned (tree.setParent none only).arena (idx :: under tree.node depth only) from
          owned.of_same rfl rfl).free
      obtain ⟨root, height, tree', collapsed, settled⟩ := @ih ((tree.setParent none only).freeNode idx) fuel only
        (Nat.le_of_succ_le_succ enough) subOnly
        ((children only isChild).congr fun other _ => .of_payload (node_setParent_payload none only other))
        (fun other member => by
          have inside : other ∈ Item.nodes (level tree.node only depth) := levelOnly ▸ member
          exact (Node.isLeaf_of_payload (node_setParent_payload none only other)).trans
            (leaf_below sub isChild leaf other inside))
        (node_setParent_parent none only) ownedOnly
      refine ⟨root, height, tree', ?_, ⟨settled.lower.trans (Nat.le_succ _), settled.sub, settled.keyed, ?_,
        settled.orphan, settled.owned, fun other => ?_, settled.frame⟩⟩
      · have read : readSlot (tree.node idx).children 0 = .ok only := by rw [childrenEq]; rfl
        unfold RawBTree.collapseAlongEdge
        rw [if_neg (by rw [sub.1.internal]; exact Bool.false_ne_true)]
        simp only [bare, List.length_nil, if_true, read, bind, Except.bind]
        exact collapsed
      · exact settled.level_eq.trans (levelOnly.trans below.symm)
      · exact (settled.payload other).trans (node_setParent_payload none only other)

theorem computeHeight_eq (enough : depth ≤ fuel) (sub : Subtree layout tree.node depth idx)
    (leaf : ∀ leaf ∈ Item.nodes (level tree.node idx depth), (tree.node leaf).isLeaf = true) :
    tree.computeHeight fuel idx = .ok depth := by
  induction depth generalizing fuel idx with
  | zero =>
      have isLeaf : (tree.node idx).isLeaf = true := leaf idx (by simp [level])
      unfold RawBTree.computeHeight
      rw [if_pos isLeaf]
  | succ depth ih =>
      obtain ⟨fuel, rfl⟩ : ∃ less, fuel = less + 1 := ⟨fuel - 1, by omega⟩
      obtain ⟨child, read, isChild⟩ := readSlot_eq (show 0 < (tree.node idx).children.length by rw [sub.1.paired]; omega)
      unfold RawBTree.computeHeight
      rw [if_neg (by rw [sub.1.internal]; exact Bool.false_ne_true)]
      simp only [read, bind, Except.bind,
        ih (Nat.le_of_succ_le_succ enough) (sub.2 child isChild) (leaf_below sub isChild leaf)]
      rfl

/-- A half whose hollow nodes are at its top becomes a tree of even depth. -/
theorem settleRoot_settles (enough : depth ≤ fuel) (sub : Subtree layout tree.node depth idx)
    (hollow : HollowTop tree.node depth idx)
    (leaf : ∀ leaf ∈ Item.nodes (level tree.node idx depth), (tree.node leaf).isLeaf = true)
    (owned : Owned tree.arena (under tree.node depth idx)) :
    ∃ root height tree', tree.settleRoot edge fuel (some idx) = .ok (some root, height, tree') ∧
      Settled layout tree tree' depth idx height root := by
  obtain ⟨subTop, levelTop, underTop⟩ := sub.reparent owned.nodup_idxs none
  have leafTop : ∀ leaf ∈ Item.nodes (level (tree.setParent none idx).node idx depth),
      ((tree.setParent none idx).node leaf).isLeaf = true := by
    intro other member
    rw [levelTop] at member
    rw [Node.isLeaf_of_payload (node_setParent_payload none idx other)]
    exact leaf other member
  obtain ⟨root, height, tree', collapsed, settled⟩ := @collapseAlongEdge_settles _ _ layout (tree.setParent none idx) depth
    fuel idx edge enough subTop
    (hollow.congr fun other _ => .of_payload (node_setParent_payload none idx other)) leafTop
    (node_setParent_parent none idx) (by rw [underTop]; exact owned.of_same rfl rfl)
  refine ⟨root, height, tree', ?_, ⟨settled.lower, settled.sub, settled.keyed, settled.level_eq.trans levelTop,
    settled.orphan, settled.owned, fun other => ?_, settled.frame⟩⟩
  · simp only [RawBTree.settleRoot, collapsed, bind, Except.bind,
      computeHeight_eq (settled.lower.trans enough) settled.sub (settled.leaf leafTop)]
    rfl
  · exact (settled.payload other).trans (node_setParent_payload none idx other)

end Collapse

end Optimap.FlatBTree
