import Optimap.FlatBTree.Moving
import Optimap.FlatBTree.Spine

/-!
# The half that stays

On the way up the path, the node reached is the top of what stays below it. The nodes beside
the path are as they were until the walk comes to their parent.
-/

set_option autoImplicit false
set_option linter.unusedSectionVars false

namespace Optimap.FlatBTree

open Lib

variable {K V : Type} [LinearOrder K] {layout : NodeLayout} {tree t t' : RawBTree K V} {root : NodeIdx}
  {items row : List (LevelItem K)} {steps leaf idx parent childPos : Nat} {leafNode : Node K V}
  {outside outside' before after : List NodeIdx} {keysBefore keysAfter : List (KeyObj K)} {counts : List Nat}

/-- `idx` is the top of the half of `tree` that stays in `t`, whose leaf at the cut is `leafNode`.
What is outside has not been touched. -/
structure Stays (layout : NodeLayout) (tree : RawBTree K V) (leaf : NodeIdx) (leafNode : Node K V) (t : RawBTree K V)
    (steps : Nat) (idx : NodeIdx) (row : List (LevelItem K)) (outside : List NodeIdx) (counts : List Nat) : Prop where
  sub : Subtree layout t.node steps idx
  hollowed : Hollowed t.node counts steps idx
  level_eq : level t.node idx steps = row
  owned : Owned t.arena (under t.node steps idx ++ outside)
  inside : ∀ other ∈ Item.nodes row,
    (t.node other).payload = (if other = leaf then leafNode else tree.node other).payload
  apart : leaf ∉ outside
  untouched : ∀ other ∈ outside, t.node other = tree.node other

/-- Nothing but the arena matters. -/
theorem Stays.of_arena (stays : Stays layout tree leaf leafNode t steps idx row outside counts)
    (same : t'.arena = t.arena) : Stays layout tree leaf leafNode t' steps idx row outside counts := by
  have nodes : t'.node = t.node := congrArg Arena.nodes same
  exact ⟨nodes ▸ stays.sub, nodes ▸ stays.hollowed, nodes ▸ stays.level_eq, by rw [nodes, same]; exact stays.owned,
    nodes ▸ stays.inside, stays.apart, nodes ▸ stays.untouched⟩

/-- Freeing nodes outside. -/
theorem Stays.vacate {gone : List NodeIdx} (stays : Stays layout tree leaf leafNode t steps idx row outside counts)
    (same : outside.Perm (gone ++ outside')) :
    Stays layout tree leaf leafNode (t.vacateAll gone) steps idx row outside' counts := by
  have owned : Owned t.arena (gone ++ (under t.node steps idx ++ outside')) :=
    stays.owned.perm ((List.perm_append_comm_assoc _ _ _).trans (same.symm.append_left _))
  have kept : ∀ other ∈ under t.node steps idx ++ outside', (t.vacateAll gone).node other = t.node other :=
    fun other member => node_vacateAll fun inside => owned.apart other inside member
  have shapes : ∀ other ∈ under t.node steps idx, SameShape t.node (t.vacateAll gone).node other :=
    fun other member => .of_eq (kept other (List.mem_append_left _ member))
  obtain ⟨sameLevel, sameUnder⟩ := stays.sub.level_congr shapes
  refine ⟨stays.sub.congr (stays.owned.nodup_idxs.sublist (List.sublist_append_left _ _)) shapes ?_,
    stays.hollowed.congr shapes, sameLevel.trans stays.level_eq, ?_, ?_, ?_, ?_⟩
  · intro other member
    rw [kept other (List.mem_append_left _ (List.mem_cons_of_mem _ member))]
  · rw [sameUnder]
    exact owned.vacateAll
  · intro other member
    rw [kept other (List.mem_append_left _ (stays.sub.leaves_subset other (by rw [stays.level_eq]; exact member)))]
    exact stays.inside other member
  · exact fun member => stays.apart (same.symm.subset (List.mem_append_right _ member))
  · intro other member
    rw [kept other (List.mem_append_right _ member)]
    exact stays.untouched other (same.symm.subset (List.mem_append_right _ member))

/-- What the two walks write to: the node on the path, which keeps some of its keys and
children, and the parent of the node below. -/
structure Rehung (t t' : RawBTree K V) (idx parent : NodeIdx) (keys : List (KeyObj K)) (children : List NodeIdx) :
    Prop where
  top : t'.node parent = { t.node parent with keys := keys, children := children }
  below : t'.node idx = { t.node idx with parent := some parent }
  others : ∀ other, other ≠ parent → other ≠ idx → t'.node other = t.node other
  free : t'.arena.free = t.arena.free
  arenaLen : t'.arena.len = t.arena.len

theorem rehung {change : Node K V → Node K V} {keys : List (KeyObj K)} {children : List NodeIdx}
    (different : idx ≠ parent) (changes : change (t.node parent) = { t.node parent with keys := keys, children := children }) :
    Rehung t ((t.modify parent change).setParent (some parent) idx) idx parent keys children := by
  refine ⟨?_, ?_, fun other notTop notBelow => ?_, rfl, rfl⟩
  · rw [RawBTree.setParent, RawBTree.node_modify_of_ne _ different.symm, RawBTree.node_modify_self, changes]
  · rw [RawBTree.setParent, RawBTree.node_modify_self, RawBTree.node_modify_of_ne _ different]
  · rw [RawBTree.setParent, RawBTree.node_modify_of_ne _ notBelow, RawBTree.node_modify_of_ne _ notTop]

section Above
variable {kept : List NodeIdx} {keys : List (KeyObj K)}
  (rung : Rung layout tree root steps idx parent childPos outside before after keysBefore keysAfter outside')
  (stays : Stays layout tree leaf leafNode t steps idx row (parent :: kept.flatMap (under tree.node steps) ++ outside')
    counts)
include rung stays

/-- The top of the half is not a node outside. -/
theorem Stays.ne_outside {other : NodeIdx}
    (member : other ∈ parent :: kept.flatMap (under tree.node steps) ++ outside') : idx ≠ other :=
  fun same => stays.owned.apart idx (mem_under_self _ _ _) (same ▸ member)

theorem Stays.parent_node : t.node parent = tree.node parent := stays.untouched parent List.mem_cons_self

theorem Stays.parent_notMem : parent ∉ kept.flatMap (under tree.node steps) ++ outside' :=
  (List.nodup_cons.mp (stays.owned.nodup_idxs.sublist (List.sublist_append_right _ _))).1

/-- The children beside the path that stay are those of the tree. -/
theorem Stays.siblings {children : List NodeIdx} (rehung : Rehung t t' idx parent keys children)
    (beside : ∀ child ∈ kept, child ∈ before ++ after) :
    (∀ child ∈ kept, Subtree layout t'.node steps child ∧ Keyed t'.node steps child ∧
      level t'.node child steps = level tree.node child steps ∧
      under t'.node steps child = under tree.node steps child ∧ (t'.node child).parent = some parent) ∧
    (∀ other ∈ kept.flatMap (under tree.node steps) ++ outside', t'.node other = tree.node other) := by
  have same : ∀ other ∈ kept.flatMap (under tree.node steps) ++ outside', t'.node other = tree.node other := by
    intro other member
    rw [rehung.others other (fun same => stays.parent_notMem rung (same ▸ member))
      (fun same => stays.ne_outside rung (List.mem_cons_of_mem _ member) same.symm)]
    exact stays.untouched other (List.mem_cons_of_mem _ member)
  refine ⟨fun child isKept => rung.sibling (beside child isKept) fun other member => same other ?_, same⟩
  exact List.mem_append_left _ (List.mem_flatMap.mpr ⟨child, isKept, member⟩)

/-- The half below, which got a parent. -/
theorem Stays.hung {children : List NodeIdx} (rehung : Rehung t t' idx parent keys children) :
    Subtree layout t'.node steps idx ∧ Hollowed t'.node counts steps idx ∧ level t'.node idx steps = row ∧
      under t'.node steps idx = under t.node steps idx ∧ (t'.node idx).parent = some parent ∧
      ∀ other ∈ under t.node steps idx, (t'.node other).payload = (t.node other).payload := by
  have payload : ∀ other ∈ under t.node steps idx, (t'.node other).payload = (t.node other).payload := by
    intro other member
    by_cases top : other = idx
    · rw [top, rehung.below]
      rfl
    · rw [rehung.others other (fun same => ?_) top]
      exact stays.owned.apart other member (same ▸ List.mem_cons_self)
  have shapes : ∀ other ∈ under t.node steps idx, SameShape t.node t'.node other :=
    fun other member => .of_payload (payload other member)
  have unique : (under t.node steps idx).Nodup := stays.owned.nodup_idxs.sublist (List.sublist_append_left _ _)
  obtain ⟨sameLevel, sameUnder⟩ := stays.sub.level_congr shapes
  refine ⟨stays.sub.congr unique shapes fun other member => ?_, stays.hollowed.congr shapes,
    sameLevel.trans stays.level_eq, sameUnder, by rw [rehung.below], payload⟩
  rw [rehung.others other (fun same => ?_) fun same => (List.nodup_cons.mp unique).1 (same ▸ member)]
  exact stays.owned.apart other (List.mem_cons_of_mem _ member) (same ▸ List.mem_cons_self)

end Above

/-- One level up, with the children on one side of the path. -/
theorem Stays.up {kept children : List NodeIdx} {keys : List (KeyObj K)} {row' : List (LevelItem K)}
    (rung : Rung layout tree root steps idx parent childPos outside before after keysBefore keysAfter outside')
    (stays : Stays layout tree leaf leafNode t steps idx row (parent :: kept.flatMap (under tree.node steps) ++ outside')
      counts)
    (rehung : Rehung t t' idx parent keys children) (beside : ∀ child ∈ kept, child ∈ before ++ after)
    (sides : children.Perm (idx :: kept)) (paired : kept.length = keys.length)
    (fewer : keys.length ≤ (tree.node parent).keys.length)
    (level_eq : level t'.node parent (steps + 1) = row')
    (rowNodes : ∀ other ∈ Item.nodes row', other ∈ Item.nodes row ∨
      other ∈ kept.flatMap fun child => Item.nodes (level tree.node child steps)) :
    Stays layout tree leaf leafNode t' (steps + 1) parent row' outside' (counts ++ [keys.length]) := by
  obtain ⟨siblings, untouched⟩ := stays.siblings rung rehung beside
  obtain ⟨subIdx, hollowed, _, underIdx, parentIdx, payload⟩ := stays.hung rung rehung
  have topChildren : (t'.node parent).children = children := by rw [rehung.top]
  have topKeys : (t'.node parent).keys = keys := by rw [rehung.top]
  have each : ∀ child ∈ children, child = idx ∨ child ∈ kept := fun child member =>
    List.mem_cons.mp (sides.subset member)
  have topPaired : (t'.node parent).children.length = (t'.node parent).keys.length + 1 := by
    rw [topChildren, topKeys, sides.length_eq, List.length_cons, paired]
  refine ⟨⟨⟨?_, topPaired, ?_, ?_⟩, ?_⟩, ?_, level_eq, ?_, ?_, ?_, ?_⟩
  · rw [rehung.top, stays.parent_node rung]
    exact rung.sub.1.internal
  · rw [topKeys]
    exact fewer.trans rung.sub.1.fits
  · rw [topChildren]
    intro child isChild
    rcases each child isChild with rfl | isKept
    · exact parentIdx
    · exact (siblings child isKept).2.2.2.2
  · rw [topChildren]
    intro child isChild
    rcases each child isChild with rfl | isKept
    · exact subIdx
    · exact (siblings child isKept).1
  · have up := @Hollowed.up _ _ t'.node steps parent counts idx hollowed topPaired
      (by rw [topChildren]; exact sides.symm.subset List.mem_cons_self) fun child isChild => ?_
    · rw [topKeys] at up
      exact up
    · rw [topChildren] at isChild
      exact (each child isChild).imp id fun isKept => (siblings child isKept).2.1
  · have keptUnder : kept.flatMap (under t'.node steps) = kept.flatMap (under tree.node steps) :=
      List.flatMap_congr fun child isKept => (siblings child isKept).2.2.2.1
    have below : (children.flatMap (under t'.node steps)).Perm
        (under t.node steps idx ++ kept.flatMap (under tree.node steps)) := by
      refine (sides.flatMap_right _).trans ?_
      rw [List.flatMap_cons, underIdx, keptUnder]
    rw [under_succ, topChildren]
    refine (stays.owned.of_same rehung.free rehung.arenaLen).perm ?_
    refine ((List.Perm.cons _ below).append_right _).trans ?_
    rw [List.cons_append, List.cons_append, List.append_assoc]
    exact List.perm_middle.symm
  · intro other member
    rcases rowNodes other member with below | isSibling
    · have inside : other ∈ under t.node steps idx :=
        stays.sub.leaves_subset other (by rw [stays.level_eq]; exact below)
      rw [payload other inside]
      exact stays.inside other below
    · obtain ⟨child, isKept, isLeaf⟩ := List.mem_flatMap.mp isSibling
      have isOutside : other ∈ kept.flatMap (under tree.node steps) ++ outside' :=
        List.mem_append_left _ (List.mem_flatMap.mpr ⟨child, isKept,
          (rung.sub.2 child (rung.beside_mem (beside child isKept))).leaves_subset other isLeaf⟩)
      rw [untouched other isOutside, if_neg]
      exact fun same => stays.apart (List.mem_cons_of_mem _ (same ▸ isOutside))
  · exact fun member => stays.apart (List.mem_append_right _ member)
  · exact fun other member => untouched other (List.mem_append_right _ member)

theorem mem_sublevels {heap : Heap K V} {part : List (LevelItem K)} {kept : List NodeIdx} {other : NodeIdx}
    (inside : ∀ child ∈ Item.nodes part, child ∈ kept) (member : other ∈ Item.nodes (part.flatMap (sublevel heap steps))) :
    other ∈ kept.flatMap fun child => Item.nodes (level heap child steps) := by
  rw [nodes_sublevels] at member
  obtain ⟨child, isChild, isLeaf⟩ := List.mem_flatMap.mp member
  exact List.mem_flatMap.mpr ⟨child, inside child isChild, isLeaf⟩

theorem flatMap_sublevel_same {heap heap' : Heap K V} {part : List (LevelItem K)}
    (same : ∀ child ∈ Item.nodes part, level heap' child steps = level heap child steps) :
    part.flatMap (sublevel heap' steps) = part.flatMap (sublevel heap steps) := by
  refine List.flatMap_congr fun item member => ?_
  cases item with
  | sep key => rfl
  | node child => exact same child (Item.mem_nodes.mpr member)

/-- The right half of a node on the path stays. -/
theorem Stays.keepRight {s : Surgery K V}
    (rung : Rung layout tree root steps idx parent childPos outside before after keysBefore keysAfter outside')
    (stays : Stays layout tree leaf leafNode s.tree steps idx row
      (parent :: after.flatMap (under tree.node steps) ++ outside') counts) :
    ∃ t', Surgery.keepRight parent childPos (some idx) s = .ok (some parent, { s with tree := t' }) ∧
      t' = { s.tree with arena := t'.arena } ∧
      Stays layout tree leaf leafNode t' (steps + 1) parent
        (row ++ (Item.trail keysAfter after).flatMap (sublevel tree.node steps)) outside'
        (counts ++ [(tree.node parent).keys.length - childPos]) := by
  have different := stays.ne_outside rung List.mem_cons_self
  have parentNode := stays.parent_node rung
  have keysDrop : (tree.node parent).keys.drop childPos = keysAfter := by
    rw [rung.keys_eq, ← rung.before_length, rung.before_paired, List.drop_left]
  have childrenDrop : (tree.node parent).children.drop (childPos + 1) = after := by
    rw [rung.children_eq, ← rung.before_length, ← List.drop_drop, List.drop_left]
    rfl
  have count : (tree.node parent).keys.length - childPos = keysAfter.length := by rw [rung.keys_length]; omega
  have rehung := @rehung _ _ _ s.tree idx parent (fun node => { node with
      keys := node.keys.drop childPos, children := idx :: node.children.drop (childPos + 1) }) keysAfter (idx :: after)
    different (by rw [parentNode, keysDrop, childrenDrop])
  refine ⟨_, rfl, rfl, ?_⟩
  obtain ⟨siblings, _⟩ := stays.siblings rung rehung fun child member => List.mem_append_right _ member
  obtain ⟨_, _, levelIdx, _⟩ := stays.hung rung rehung
  rw [count]
  refine stays.up rung rehung (fun child member => List.mem_append_right _ member) (List.Perm.refl _) rung.after_paired ?_ ?_ ?_
  · rw [rung.keys_length]; omega
  · rw [level_below, rehung.top, Item.row, List.flatMap_cons, sublevel, levelIdx]
    refine congrArg _ (flatMap_sublevel_same fun child isChild => (siblings child ?_).2.2.1)
    rwa [Item.nodes_trail rung.after_paired.symm] at isChild
  · intro other member
    rw [Item.nodes_append] at member
    refine (List.mem_append.mp member).imp id (mem_sublevels fun child isChild => ?_)
    rwa [Item.nodes_trail rung.after_paired.symm] at isChild

/-- The left half of a node on the path stays. -/
theorem Stays.keepLeft {s : Surgery K V}
    (rung : Rung layout tree root steps idx parent childPos outside before after keysBefore keysAfter outside')
    (stays : Stays layout tree leaf leafNode s.tree steps idx row
      (parent :: before.flatMap (under tree.node steps) ++ outside') counts) :
    ∃ t', Surgery.keepLeft parent childPos (some idx) s = .ok (some parent, { s with tree := t' }) ∧
      t' = { s.tree with arena := t'.arena } ∧
      Stays layout tree leaf leafNode t' (steps + 1) parent
        ((Item.lead before keysBefore).flatMap (sublevel tree.node steps) ++ row) outside' (counts ++ [childPos]) := by
  have different := stays.ne_outside rung List.mem_cons_self
  have parentNode := stays.parent_node rung
  have keysTake : (tree.node parent).keys.take childPos = keysBefore := by
    rw [rung.keys_eq, ← rung.before_length, rung.before_paired, List.take_left]
  have childrenTake : ((tree.node parent).children.set childPos idx).take (childPos + 1) = before ++ [idx] := by
    rw [rung.children_eq, ← rung.before_length]
    simp [List.take_append]
  have count : childPos = keysBefore.length := by rw [← rung.before_paired, rung.before_length]
  have rehung := @rehung _ _ _ s.tree idx parent (fun node => { node with
      keys := node.keys.take childPos, children := (node.children.set childPos idx).take (childPos + 1) }) keysBefore
    (before ++ [idx]) different (by rw [parentNode, keysTake, childrenTake])
  refine ⟨_, rfl, rfl, ?_⟩
  obtain ⟨siblings, _⟩ := stays.siblings rung rehung fun child member => List.mem_append_left _ member
  obtain ⟨_, _, levelIdx, _⟩ := stays.hung rung rehung
  rw [show counts ++ [childPos] = counts ++ [keysBefore.length] by rw [← count]]
  refine stays.up rung rehung (fun child member => List.mem_append_left _ member) (List.perm_append_singleton _ _)
    rung.before_paired ?_ ?_ ?_
  · rw [rung.keys_length]; omega
  · have around := @level_around _ _ _ steps idx parent before [] keysBefore []
      (congrArg Node.children rehung.top) ((congrArg Node.keys rehung.top).trans (List.append_nil _).symm)
      rung.before_paired
    rw [around, levelIdx]
    refine congrArg₂ _ (flatMap_sublevel_same fun child isChild => (siblings child (nodes_lead rung.before_paired ▸ isChild)).2.2.1) ?_
    simp [Item.trail]
  · intro other member
    rw [Item.nodes_append] at member
    exact (List.mem_append.mp member).symm.imp id (mem_sublevels fun child isChild => nodes_lead rung.before_paired ▸ isChild)

section Emptied

/-- Below the path, nothing stays. -/
structure Emptied (tree : RawBTree K V) (leaf : NodeIdx) (t : RawBTree K V) (outside : List NodeIdx) : Prop where
  owned : Owned t.arena outside
  apart : leaf ∉ outside
  untouched : ∀ other ∈ outside, t.node other = tree.node other

theorem Emptied.vacate {gone : List NodeIdx} (emptied : Emptied tree leaf t outside)
    (same : outside.Perm (gone ++ outside')) : Emptied tree leaf (t.vacateAll gone) outside' := by
  have owned : Owned t.arena (gone ++ outside') := emptied.owned.perm same.symm
  refine ⟨owned.vacateAll, fun member => emptied.apart (same.symm.subset (List.mem_append_right _ member)),
    fun other member => ?_⟩
  rw [node_vacateAll fun inside => owned.apart other inside member]
  exact emptied.untouched other (same.symm.subset (List.mem_append_right _ member))

/-- A node on the path that has no child in front of the path goes too. -/
theorem Emptied.keepLeft_first {s : Surgery K V} (emptied : Emptied tree leaf s.tree (parent :: outside')) :
    Surgery.keepLeft parent 0 none s = .ok (none, { s with tree := s.tree.freeNode parent }) ∧
      Emptied tree leaf (s.tree.freeNode parent) outside' :=
  ⟨rfl, emptied.owned.free, fun member => emptied.apart (List.mem_cons_of_mem _ member),
    fun other member => emptied.untouched other (List.mem_cons_of_mem _ member)⟩

/-- The first node on the path with children in front of it keeps them. The separator behind them
is dropped. -/
theorem Emptied.keepLeft {s : Surgery K V} {key : KeyObj K}
    (rung : Rung layout tree root steps idx parent (childPos + 1) outside before after (keysBefore ++ [key]) keysAfter
      outside')
    (emptied : Emptied tree leaf s.tree (parent :: before.flatMap (under tree.node steps) ++ outside')) :
    ∃ t', Surgery.keepLeft parent (childPos + 1) none s = .ok (some parent, { s with tree := t' }) ∧
      t' = { s.tree.drop key with arena := t'.arena } ∧
      Stays layout tree leaf leafNode t' (steps + 1) parent
        ((Item.row before keysBefore).flatMap (sublevel tree.node steps)) outside' [childPos] := by
  have parentNode : s.tree.node parent = tree.node parent := emptied.untouched parent List.mem_cons_self
  have beforePaired := rung.before_paired
  rw [List.length_append, List.length_singleton] at beforePaired
  have count : childPos = keysBefore.length := by
    have length := rung.before_length
    omega
  have keysEq := rung.keys_eq
  rw [List.append_assoc] at keysEq
  have keysTake : (tree.node parent).keys.take childPos = keysBefore := by
    rw [keysEq, count, List.take_left]
  have childrenTake : (tree.node parent).children.take (childPos + 1) = before := by
    rw [rung.children_eq, ← rung.before_length, List.take_left]
  have read : readSlot (s.tree.node parent).keys childPos = .ok key := by
    rw [readSlot, parentNode, keysEq, count]
    simp
  set t' := (s.tree.drop key).modify parent fun node =>
    { node with keys := node.keys.take childPos, children := node.children.take (childPos + 1) } with t'Def
  have top : t'.node parent = { tree.node parent with keys := keysBefore, children := before } := by
    have node : t'.node parent = { s.tree.node parent with
        keys := (s.tree.node parent).keys.take childPos, children := (s.tree.node parent).children.take (childPos + 1) } :=
      RawBTree.node_modify_self _
    rw [node, parentNode, keysTake, childrenTake]
  have notTop : parent ∉ before.flatMap (under tree.node steps) ++ outside' := (List.nodup_cons.mp emptied.owned.nodup_idxs).1
  have same : ∀ other ∈ before.flatMap (under tree.node steps) ++ outside', t'.node other = tree.node other := by
    intro other member
    have different : other ≠ parent := fun isTop => notTop (isTop ▸ member)
    exact (RawBTree.node_modify_of_ne _ different).trans (emptied.untouched other (List.mem_cons_of_mem _ member))
  have siblings : ∀ child ∈ before, Subtree layout t'.node steps child ∧ Keyed t'.node steps child ∧
      level t'.node child steps = level tree.node child steps ∧
      under t'.node steps child = under tree.node steps child ∧ (t'.node child).parent = some parent :=
    fun child isBefore => rung.sibling (List.mem_append_left _ isBefore) fun other member =>
      same other (List.mem_append_left _ (List.mem_flatMap.mpr ⟨child, isBefore, member⟩))
  have topChildren : (t'.node parent).children = before := by rw [top]
  have topKeys : (t'.node parent).keys = keysBefore := by rw [top]
  have topPaired : (t'.node parent).children.length = (t'.node parent).keys.length + 1 := by rw [top]; exact beforePaired
  have rowNodes : Item.nodes (Item.row before keysBefore) = before := Item.nodes_row beforePaired
  refine ⟨t', ?_, rfl, ⟨⟨?_, topPaired, ?_, ?_⟩, ?_⟩, ?_, ?_, ?_, ?_, ?_, ?_⟩
  · simp only [Surgery.keepLeft, read, bind, Except.bind]
    rfl
  · rw [top]
    exact rung.sub.1.internal
  · have fits := rung.sub.1.fits
    rw [rung.keys_length] at fits
    rw [topKeys]
    omega
  · rw [topChildren]
    exact fun child isBefore => (siblings child isBefore).2.2.2.2
  · rw [topChildren]
    exact fun child isBefore => (siblings child isBefore).1
  · obtain ⟨first, isFirst⟩ := List.exists_mem_of_length_pos (show 0 < before.length by omega)
    have up := @Hollowed.up _ _ t'.node steps parent [] first (siblings first isFirst).2.1.hollowed topPaired
      (by rw [topChildren]; exact isFirst) fun child isChild => .inr (siblings child (topChildren ▸ isChild)).2.1
    rw [topKeys, ← count] at up
    exact up
  · rw [level_below, topChildren, topKeys]
    exact flatMap_sublevel_same fun child isChild => (siblings child (rowNodes ▸ isChild)).2.2.1
  · have keptUnder : before.flatMap (under t'.node steps) = before.flatMap (under tree.node steps) :=
      List.flatMap_congr fun child isBefore => (siblings child isBefore).2.2.2.1
    rw [under_succ, topChildren, keptUnder]
    exact emptied.owned.of_same rfl rfl
  · intro other member
    rw [nodes_sublevels, rowNodes] at member
    obtain ⟨child, isBefore, isLeaf⟩ := List.mem_flatMap.mp member
    have inside : other ∈ before.flatMap (under tree.node steps) ++ outside' :=
      List.mem_append_left _ (List.mem_flatMap.mpr ⟨child, isBefore,
        (rung.sub.2 child (rung.beside_mem (List.mem_append_left _ isBefore))).leaves_subset other isLeaf⟩)
    rw [same other inside, if_neg]
    exact fun isLeaf => emptied.apart (List.mem_cons_of_mem _ (isLeaf ▸ inside))
  · exact fun member => emptied.apart (List.mem_append_right _ member)
  · exact fun other member => same other (List.mem_append_right _ member)

end Emptied

namespace Rung

variable (rung : Rung layout tree root steps idx parent childPos outside before after keysBefore keysAfter outside')
include rung

/-- What is left outside when the children behind the path have gone. -/
theorem outside_before : outside.Perm (after.flatMap (postorder tree.node steps) ++
    (parent :: before.flatMap (under tree.node steps) ++ outside')) := by
  refine rung.outside_perm.trans ?_
  rw [List.flatMap_append]
  refine List.Perm.trans ?_ ((flatMap_postorder_perm _ _ _).symm.append_right _)
  rw [List.cons_append, List.cons_append, List.append_assoc]
  exact (List.Perm.cons _ (List.perm_append_comm_assoc _ _ _)).trans List.perm_middle.symm

/-- What is left outside when the children in front of the path have gone. -/
theorem outside_after : outside.Perm (before.flatMap (postorder tree.node steps) ++
    (parent :: after.flatMap (under tree.node steps) ++ outside')) := by
  refine rung.outside_perm.trans ?_
  rw [List.flatMap_append]
  refine List.Perm.trans ?_ ((flatMap_postorder_perm _ _ _).symm.append_right _)
  rw [List.cons_append, List.cons_append, List.append_assoc]
  exact List.perm_middle.symm

end Rung

end Optimap.FlatBTree
