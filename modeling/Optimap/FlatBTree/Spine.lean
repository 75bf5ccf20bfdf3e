import Optimap.FlatBTree.Collapse
import Optimap.FlatBTree.Grafts

/-!
# The path of a cut

What stands on both sides of the path on every level: the children in front of it, those
behind it and the separators between them. A cut keeps its halves even when on neither side a
node without keys is left under one with keys.
-/

set_option autoImplicit false
set_option linter.unusedSectionVars false

namespace Optimap.FlatBTree

open Lib

variable {K V : Type}

section Joins
variable {heap : Heap K V} {steps : Nat} {idx parent : NodeIdx} {before after : List NodeIdx}
  {keysBefore keysAfter keys : List (KeyObj K)}

/-- The row below a node around one of its children. -/
theorem level_around (children : (heap parent).children = before ++ idx :: after)
    (keysEq : (heap parent).keys = keysBefore ++ keysAfter) (paired : before.length = keysBefore.length) :
    level heap parent (steps + 1) = (Item.lead before keysBefore).flatMap (sublevel heap steps) ++
      (level heap idx steps ++ (Item.trail keysAfter after).flatMap (sublevel heap steps)) := by
  rw [level_below, children, keysEq, Item.row_around idx paired, List.flatMap_append, List.flatMap_cons]
  rfl

/-- The children in front of a separator, with it. -/
theorem lead_row (key : KeyObj K) (paired : before.length = keys.length + 1) :
    Item.lead before (keys ++ [key]) = Item.row before keys ++ [.sep key] := by
  rcases List.eq_nil_or_concat before with rfl | ⟨front, last, rfl⟩
  · simp at paired
  · rw [List.concat_eq_append] at paired ⊢
    have frontPaired : front.length = keys.length := by simpa using paired
    have around := @Item.row_around _ _ front [] keys [] last frontPaired
    rw [List.append_nil] at around
    rw [Item.lead_concat last key frontPaired, around]
    simp [Item.trail]

theorem nodes_lead (paired : before.length = keysBefore.length) : Item.nodes (Item.lead before keysBefore) = before := by
  induction before generalizing keysBefore with
  | nil => cases keysBefore <;> rfl
  | cons child before ih =>
      cases keysBefore with
      | nil => simp at paired
      | cons key keysBefore =>
          rw [Item.lead, Item.nodes_node, Item.nodes_sep, ih (by simpa using paired)]

theorem filled_lead {heap' : Heap K V} {children copies : List NodeIdx} (keys : List (KeyObj K))
    (same : List.Forall₂ (fun child copy =>
      (level heap' copy steps).map (filled heap') = (level heap child steps).map (filled heap)) children copies) :
    ((Item.lead copies keys).flatMap (sublevel heap' steps)).map (filled heap') =
      ((Item.lead children keys).flatMap (sublevel heap steps)).map (filled heap) := by
  induction same generalizing keys with
  | nil => rfl
  | cons first _ ih =>
      cases keys with
      | nil => rfl
      | cons key keys =>
          simp only [Item.lead, List.flatMap_cons, List.map_append, sublevel, first, ih keys]
          rfl

end Joins

section Counts

theorem PathTo.length_eq {heap : Heap K V} {root idx : NodeIdx} {depth : Nat} {path : PathBuf}
    (leads : PathTo heap root depth idx path) : path.length = depth := by
  induction depth generalizing idx path with
  | zero =>
      obtain rfl : path = [] := leads
      rfl
  | succ depth ih =>
      obtain ⟨parent, slot, rest, rfl, _, _, leads⟩ := leads
      exact congrArg Nat.succ (ih leads)

/-- The numbers of keys the nodes of a path keep on the left of a cut, from the bottom up.
`present` tells whether anything is left below. -/
def leftCounts : Bool → PathBuf → List Nat
  | _, [] => []
  | true, (_, childPos) :: path => childPos :: leftCounts true path
  | false, (_, 0) :: path => leftCounts false path
  | false, (_, pos + 1) :: path => pos :: leftCounts true path

/-- Those on the right of it. -/
def rightCounts (heap : Heap K V) (path : PathBuf) : List Nat :=
  path.map fun entry => (heap entry.1).keys.length - entry.2

end Counts

section Rungs
variable [LinearOrder K] {layout : NodeLayout} {tree : RawBTree K V} {root : NodeIdx} {items : List (LevelItem K)}
  {depth steps : Nat} {idx parent childPos : Nat} {path : PathBuf} {outside : List NodeIdx}

/-- A node on the path and everything around it. -/
structure Rung (layout : NodeLayout) (tree : RawBTree K V) (root : NodeIdx) (steps : Nat) (idx parent childPos : Nat)
    (outside : List NodeIdx) (before after : List NodeIdx) (keysBefore keysAfter : List (KeyObj K))
    (outside' : List NodeIdx) : Prop where
  children_eq : (tree.node parent).children = before ++ idx :: after
  keys_eq : (tree.node parent).keys = keysBefore ++ keysAfter
  before_length : before.length = childPos
  before_paired : before.length = keysBefore.length
  after_paired : after.length = keysAfter.length
  sub : Subtree layout tree.node (steps + 1) parent
  keyed : Keyed tree.node (steps + 1) parent
  leaf : ∀ leaf ∈ leavesUnder tree.node (steps + 1) parent, (tree.node leaf).isLeaf = true
  unique : (under tree.node (steps + 1) parent).Nodup
  outside_perm : outside.Perm (parent :: (before ++ after).flatMap (under tree.node steps) ++ outside')
  whole : (under tree.node (steps + 1) parent ++ outside').Perm (under tree.node tree.height root)

theorem Rooted.at_depth (rooted : Rooted layout tree root items) (deep : depth + steps = tree.height)
    (member : idx ∈ Item.nodes (level tree.node root depth)) :
    Subtree layout tree.node steps idx ∧ Keyed tree.node steps idx ∧
      ∀ leaf ∈ leavesUnder tree.node steps idx, (tree.node leaf).isLeaf = true := by
  have crownAt := rooted.crownAt
  rw [← deep] at crownAt
  obtain ⟨_, itemsEq, subs⟩ := crownAt.rises steps
  refine ⟨(subs idx member).1, (subs idx member).2, fun leaf inside => rooted.row.leaf leaf ?_⟩
  rw [itemsEq, nodes_sublevels]
  exact List.mem_flatMap.mpr ⟨idx, member, inside⟩

/-- What is not below a node of the tree. -/
theorem Rooted.elsewhere (rooted : Rooted layout tree root items) (deep : depth + steps = tree.height)
    (member : idx ∈ Item.nodes (level tree.node root depth)) :
    ∃ outside, (under tree.node steps idx ++ outside).Perm (under tree.node tree.height root) := by
  induction depth generalizing steps idx with
  | zero =>
      obtain rfl : idx = root := by simpa [level] using member
      obtain rfl : steps = tree.height := by omega
      exact ⟨[], by rw [List.append_nil]⟩
  | succ depth ih =>
      have crownAt := rooted.crownAt
      rw [← deep] at crownAt
      have crown : Crown tree.node root layout (depth + 1) := (crownAt.rises steps).1.crown
      rw [crown.nodes_level_succ] at member
      obtain ⟨parent, isParent, isChild⟩ := List.mem_flatMap.mp member
      obtain ⟨outside, whole⟩ := @ih (steps + 1) parent (by omega) isParent
      obtain ⟨before, after, split⟩ := List.append_of_mem isChild
      refine ⟨parent :: (before ++ after).flatMap (under tree.node steps) ++ outside, List.Perm.trans ?_ whole⟩
      rw [under_succ, split, List.flatMap_append, List.flatMap_append, List.flatMap_cons, ← List.append_assoc]
      refine List.Perm.append_right _ ?_
      exact List.perm_middle.trans (List.Perm.cons _ (List.perm_append_comm_assoc _ _ _))

theorem getElem?_split {α : Type} {slots : List α} {slot : Nat} {value : α} (found : slots[slot]? = some value) :
    slots = slots.take slot ++ value :: slots.drop (slot + 1) ∧ (slots.take slot).length = slot := by
  obtain ⟨inside, rfl⟩ := List.getElem?_eq_some_iff.mp found
  refine ⟨?_, by rw [List.length_take]; omega⟩
  rw [← List.drop_eq_getElem_cons inside, List.take_append_drop]

/-- The first node of a path. -/
theorem Rooted.rung (rooted : Rooted layout tree root items) (deep : depth + 1 + steps = tree.height)
    (leads : PathTo tree.node root (depth + 1) idx ((parent, childPos) :: path))
    (whole : (under tree.node steps idx ++ outside).Perm (under tree.node tree.height root)) :
    parent ∈ Item.nodes (level tree.node root depth) ∧ PathTo tree.node root depth parent path ∧
      ∃ before after keysBefore keysAfter outside',
        Rung layout tree root steps idx parent childPos outside before after keysBefore keysAfter outside' := by
  obtain ⟨_, _, _, pathEq, isParent, isChild, leads⟩ := leads
  obtain ⟨⟨rfl, rfl⟩, rfl⟩ := List.cons.inj pathEq |>.imp Prod.mk.inj id
  obtain ⟨sub, keyed, leaf⟩ := rooted.at_depth (show depth + (steps + 1) = tree.height by omega) isParent
  obtain ⟨split, length⟩ := getElem?_split isChild
  obtain ⟨outside', whole'⟩ := rooted.elsewhere (show depth + (steps + 1) = tree.height by omega) isParent
  have paired := sub.1.paired
  have childrenLength := congrArg List.length split
  rw [List.length_append, List.length_cons, length, List.length_drop] at childrenLength
  have keysLength : ((tree.node parent).keys.take childPos).length = childPos := by rw [List.length_take]; omega
  refine ⟨isParent, leads, _, _, (tree.node parent).keys.take childPos, (tree.node parent).keys.drop childPos, outside',
    split, (List.take_append_drop _ _).symm, length, length.trans keysLength.symm, ?_, sub, keyed, leaf, ?_, ?_, whole'⟩
  · rw [List.length_drop, List.length_drop]
    omega
  · have owned := rooted.crownAt.owned
    rw [List.append_nil, ← rooted.crownAt.level_eq] at owned
    have unique := rooted.subtree.1.under_perm.nodup_iff.mpr owned.nodup_idxs
    exact (whole'.nodup_iff.mpr unique).sublist (List.sublist_append_left _ _)
  · have both := whole.trans whole'.symm
    rw [under_succ, split, List.flatMap_append, List.flatMap_cons] at both
    refine (List.perm_append_left_iff (under tree.node steps idx)).mp (both.trans ?_)
    rw [List.flatMap_append, List.cons_append, List.cons_append, List.append_assoc, List.append_assoc, List.append_assoc]
    refine List.Perm.trans (List.Perm.cons _ (List.perm_append_comm_assoc _ _ _)) List.perm_middle.symm

namespace Rung

variable {before after outside' : List NodeIdx} {keysBefore keysAfter : List (KeyObj K)}
  (rung : Rung layout tree root steps idx parent childPos outside before after keysBefore keysAfter outside')
include rung

theorem keys_length : (tree.node parent).keys.length = childPos + keysAfter.length := by
  rw [rung.keys_eq, List.length_append, ← rung.before_paired, rung.before_length]

theorem child_mem : idx ∈ (tree.node parent).children := by rw [rung.children_eq]; simp

theorem beside_mem {child : NodeIdx} (beside : child ∈ before ++ after) : child ∈ (tree.node parent).children := by
  rw [rung.children_eq]
  exact (List.mem_append.mp beside).elim (fun member => List.mem_append_left _ member)
    fun member => List.mem_append_right _ (List.mem_cons_of_mem _ member)

/-- A child beside the path, where nothing below it is touched. -/
theorem sibling {heap : Heap K V} {child : NodeIdx} (beside : child ∈ before ++ after)
    (same : ∀ other ∈ under tree.node steps child, heap other = tree.node other) :
    Subtree layout heap steps child ∧ Keyed heap steps child ∧
      level heap child steps = level tree.node child steps ∧ under heap steps child = under tree.node steps child ∧
      (heap child).parent = some parent := by
  have isChild := rung.beside_mem beside
  have shapes : ∀ other ∈ under tree.node steps child, SameShape tree.node heap other :=
    fun other member => .of_eq (same other member)
  obtain ⟨sameLevel, sameUnder⟩ := (rung.sub.2 child isChild).level_congr shapes
  refine ⟨(rung.sub.2 child isChild).congr (under_child_nodup isChild rung.unique) shapes fun other member => ?_,
    (rung.keyed.2 child isChild).congr shapes, sameLevel, sameUnder, ?_⟩
  · rw [same other (List.mem_cons_of_mem _ member)]
  · rw [same child (mem_under_self _ _ _)]
    exact rung.sub.1.parents child isChild

theorem beside_leaf : ∀ leaf ∈ (before ++ after).flatMap (leavesUnder tree.node steps), (tree.node leaf).isLeaf = true := by
  intro leaf member
  obtain ⟨child, beside, inside⟩ := List.mem_flatMap.mp member
  refine rung.leaf leaf ?_
  rw [leavesUnder, rung.sub.nodes_level]
  exact List.mem_flatMap.mpr ⟨child, rung.beside_mem beside, inside⟩

theorem level_eq : level tree.node parent (steps + 1) =
    (Item.lead before keysBefore).flatMap (sublevel tree.node steps) ++
      (level tree.node idx steps ++ (Item.trail keysAfter after).flatMap (sublevel tree.node steps)) :=
  level_around rung.children_eq rung.keys_eq rung.before_paired

end Rung

end Rungs

end Optimap.FlatBTree
