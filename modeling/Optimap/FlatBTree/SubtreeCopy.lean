import Optimap.FlatBTree.Append
import Optimap.FlatBTree.Subtrees

/-!
# The copy of a subtree

`clone_subtree_into` puts fresh nodes next to those in use. The copy has the shape and the
entries of the original, its leaves continue the chain, and of the nodes in use only the
former end of the chain is written to.
-/

set_option autoImplicit false
set_option linter.unusedSectionVars false

namespace Optimap.FlatBTree

open Lib

variable {K V : Type}

/-- Whatever keeps the frame changes the arena alone. -/
theorem RawBTree.SameFrame.eq_arena {tree tree' : RawBTree K V} (frame : RawBTree.SameFrame tree tree') :
    tree' = { tree with arena := tree'.arena } := by
  obtain ⟨_, _, root, firstLeaf, lastLeaf, len, height, ledger⟩ := frame
  cases tree'
  simp_all

section Filling

/-- An item with what its leaf holds. -/
def filled (heap : Heap K V) : LevelItem K → Item (List (KeyObj K × V)) (KeyObj K) :=
  Item.map (fun idx => (heap idx).entries) id

/-- The marks of an item: one for each entry of a leaf. -/
def spread : Item (List (KeyObj K × V)) (KeyObj K) → List (Mark K V)
  | .node entries => entries.map .node
  | .sep key => [.sep key]

/-- The marks of a row are those of its fillings. -/
theorem marks_filled (heap : Heap K V) (items : List (LevelItem K)) :
    marks heap items = (items.map (filled heap)).flatMap spread := by
  rw [List.flatMap_map, marks]
  refine List.flatMap_congr fun item _ => ?_
  cases item <;> rfl

theorem filled_congr {heap heap' : Heap K V} {items : List (LevelItem K)}
    (same : ∀ idx ∈ Item.nodes items, (heap' idx).entries = (heap idx).entries) :
    items.map (filled heap') = items.map (filled heap) := by
  refine List.map_congr_left fun item member => ?_
  cases item with
  | sep key => rfl
  | node idx => rw [filled, filled, Item.map, Item.map, same idx (Item.mem_nodes.mpr member)]

theorem entries_of_filled {heap heap' : Heap K V} {items items' : List (LevelItem K)}
    (same : items'.map (filled heap') = items.map (filled heap)) :
    (Item.nodes items').map (fun idx => (heap' idx).entries) =
      (Item.nodes items).map fun idx => (heap idx).entries := by
  have nodes := congrArg Item.nodes same
  rw [filled, filled, Item.nodes_map, Item.nodes_map] at nodes
  exact nodes

/-- The fillings below children, one by one. -/
theorem filled_trail {heap heap' : Heap K V} {depth : Nat} {children copies : List NodeIdx} (keys : List (KeyObj K))
    (same : List.Forall₂ (fun child copy =>
      (level heap' copy depth).map (filled heap') = (level heap child depth).map (filled heap)) children copies) :
    ((Item.trail keys copies).flatMap (sublevel heap' depth)).map (filled heap') =
      ((Item.trail keys children).flatMap (sublevel heap depth)).map (filled heap) := by
  induction same generalizing keys with
  | nil => cases keys <;> rfl
  | cons first _ ih =>
      cases keys with
      | nil => rfl
      | cons key keys =>
          simp only [Item.trail, List.flatMap_cons, List.map_append, sublevel, first, ih keys]
          rfl

theorem filled_row {heap heap' : Heap K V} {depth : Nat} {children copies : List NodeIdx} (keys : List (KeyObj K))
    (same : List.Forall₂ (fun child copy =>
      (level heap' copy depth).map (filled heap') = (level heap child depth).map (filled heap)) children copies) :
    ((Item.row copies keys).flatMap (sublevel heap' depth)).map (filled heap') =
      ((Item.row children keys).flatMap (sublevel heap depth)).map (filled heap) := by
  cases same with
  | nil => rfl
  | cons first rest =>
      simp only [Item.row, List.flatMap_cons, List.map_append, sublevel, first]
      exact congrArg _ (filled_trail keys rest)

end Filling

section Extending

/-- The leaves below a node. -/
def leavesUnder (heap : Heap K V) (depth : Nat) (idx : NodeIdx) : List NodeIdx := Item.nodes (level heap idx depth)

/-- The ends of the chain when leaves have been appended. -/
def ChainEnds.after (ends : ChainEnds) (leaves : List NodeIdx) : ChainEnds :=
  ⟨ends.firstLeaf.or leaves.head?, leaves.getLast?.or ends.chainTail⟩

theorem ChainEnds.after_append (ends : ChainEnds) (left right : List NodeIdx) :
    (ends.after left).after right = ends.after (left ++ right) := by
  rw [after, after, after, List.head?_append, List.getLast?_append, Option.or_assoc, Option.or_assoc]

/-- Only the end of the chain is written to, which gets a successor. -/
structure Extends (tree tree' : RawBTree K V) (used : List NodeIdx) (tail : Option NodeIdx)
    (leaves : List NodeIdx) : Prop where
  others : ∀ idx ∈ used, tail ≠ some idx → tree'.node idx = tree.node idx
  tail : ∀ idx ∈ used, tail = some idx →
    tree'.node idx = { tree.node idx with next := leaves.head?.or (tree.node idx).next }
  frame : tree' = { tree with arena := tree'.arena }

variable {tree middle tree' : RawBTree K V} {used : List NodeIdx} {tail : Option NodeIdx}
  {leaves more : List NodeIdx}

theorem Extends.refl (tree : RawBTree K V) (used : List NodeIdx) (tail : Option NodeIdx) :
    Extends tree tree used tail [] := ⟨fun _ _ _ => rfl, fun _ _ _ => rfl, rfl⟩

theorem Extends.mono {others : List NodeIdx} (extended : Extends tree tree' used tail leaves)
    (fewer : ∀ idx ∈ others, idx ∈ used) : Extends tree tree' others tail leaves :=
  ⟨fun idx member => extended.others idx (fewer idx member), fun idx member => extended.tail idx (fewer idx member),
    extended.frame⟩

theorem Extends.trans (first : Extends tree middle used tail leaves)
    (second : Extends middle tree' used (leaves.getLast?.or tail) more)
    (fresh : ∀ leaf ∈ leaves, leaf ∉ used) : Extends tree tree' used tail (leaves ++ more) := by
  cases leaves with
  | nil =>
      refine ⟨fun idx member other => ?_, fun idx member isTail => ?_, ?_⟩
      · rw [second.others idx member other, first.others idx member other]
      · rw [second.tail idx member isTail, first.tail idx member isTail]
        rfl
      · rw [second.frame, first.frame]
  | cons head rest =>
      have elsewhere : ∀ idx ∈ used, (head :: rest).getLast?.or tail ≠ some idx := by
        intro idx member isLast
        rw [List.getLast?_eq_some_getLast (List.cons_ne_nil _ _), Option.some_or] at isLast
        obtain rfl := Option.some.inj isLast
        exact fresh _ (List.getLast_mem _) member
      refine ⟨fun idx member other => ?_, fun idx member isTail => ?_, ?_⟩
      · rw [second.others idx member (elsewhere idx member), first.others idx member other]
      · rw [second.others idx member (elsewhere idx member), first.tail idx member isTail]
        rfl
      · rw [second.frame, first.frame]

/-- What a subtree reads of its nodes is kept. -/
theorem Extends.alike (extended : Extends tree tree' used tail leaves) {idx : NodeIdx} (member : idx ∈ used) :
    SameShape tree.node tree'.node idx ∧ (tree'.node idx).parent = (tree.node idx).parent ∧
      (tree'.node idx).entries = (tree.node idx).entries ∧ (tree'.node idx).prev = (tree.node idx).prev := by
  by_cases isTail : tail = some idx
  · have same := extended.tail idx member isTail
    exact ⟨⟨by rw [same], by rw [same], by rw [same]⟩, by rw [same], by rw [same], by rw [same]⟩
  · have same := extended.others idx member isTail
    exact ⟨.of_eq same, by rw [same], by rw [same], by rw [same]⟩

/-- The chain goes on behind its former end. -/
theorem Extends.linked {before : Option NodeIdx} (extended : Extends tree tree' used (leaves.getLast?.or before) more)
    (linked : Linked (fun idx => (tree.node idx).prev) (fun idx => (tree.node idx).next) before leaves none)
    (unique : leaves.Nodup) (subset : ∀ leaf ∈ leaves, leaf ∈ used)
    (rest : Linked (fun idx => (tree'.node idx).prev) (fun idx => (tree'.node idx).next) (leaves.getLast?.or before)
      more none) :
    Linked (fun idx => (tree'.node idx).prev) (fun idx => (tree'.node idx).next) before (leaves ++ more) none := by
  rw [Linked.append_iff, Option.or_none]
  refine ⟨linked.retarget unique ?_ ?_ ?_, rest⟩
  · intro leaf isLast
    have member := List.mem_of_getLast? isLast
    obtain ⟨front, split⟩ := List.getLast?_eq_some_iff.mp isLast
    rw [split] at linked
    have last := linked.around.2
    simp only [List.head?_nil, Option.none_or] at last
    rw [extended.tail leaf (subset leaf member) (by rw [isLast, Option.some_or]), last, Option.or_none]
  · exact fun leaf member => (extended.alike (subset leaf member)).2.2.2
  · intro leaf member notLast
    rw [extended.others leaf (subset leaf member)]
    intro isTail
    cases final : leaves.getLast? with
    | none =>
        rw [List.getLast?_eq_none_iff] at final
        rw [final] at member
        cases member
    | some last =>
        rw [final, Option.some_or] at isTail
        exact notLast (final.trans isTail)

theorem Extends.update (extended : Extends tree middle used tail leaves)
    (same : ∀ idx ∈ used, tree'.node idx = middle.node idx) (frame : tree' = { middle with arena := tree'.arena }) :
    Extends tree tree' used tail leaves := by
  refine ⟨fun idx member other => ?_, fun idx member isTail => ?_, ?_⟩
  · rw [same idx member, extended.others idx member other]
  · rw [same idx member, extended.tail idx member isTail]
  · rw [frame, extended.frame]

end Extending

section Copying
variable {layout : NodeLayout} {source : RawBTree K V} {depth : Nat}

/-- The same form, separators and entries below a node of the source and a node of the heap. -/
def Replica (source heap : Heap K V) : Nat → NodeIdx → NodeIdx → Prop
  | 0, idx, copy => (heap copy).entries = (source idx).entries ∧ (heap copy).isLeaf = true
  | depth + 1, idx, copy => (heap copy).keys = (source idx).keys ∧
      List.Forall₂ (Replica source heap depth) (source idx).children (heap copy).children

theorem exists_of_forall₂ {α β : Type} {relation : α → β → Prop} {left : List α} {right : List β}
    (related : List.Forall₂ relation left right) {b : β} (member : b ∈ right) : ∃ a ∈ left, relation a b := by
  induction related with
  | nil => cases member
  | cons first _ ih =>
      rcases List.mem_cons.mp member with rfl | later
      · exact ⟨_, List.mem_cons_self, first⟩
      · obtain ⟨a, isLeft, found⟩ := ih later
        exact ⟨a, List.mem_cons_of_mem _ isLeft, found⟩

theorem forall₂_imp_mem {α β : Type} {relation relation' : α → β → Prop} {left : List α} {right : List β}
    (related : List.Forall₂ relation left right)
    (weaker : ∀ a ∈ left, ∀ b ∈ right, relation a b → relation' a b) : List.Forall₂ relation' left right := by
  induction related with
  | nil => exact .nil
  | cons first _ ih =>
      refine .cons (weaker _ List.mem_cons_self _ List.mem_cons_self first) (ih fun a isLeft b isRight => ?_)
      exact weaker a (List.mem_cons_of_mem _ isLeft) b (List.mem_cons_of_mem _ isRight)

namespace Replica

variable {source heap heap' : Heap K V} {idx copy : NodeIdx}

theorem filled (replica : Replica source heap depth idx copy) :
    (level heap copy depth).map (filled heap) = (level source idx depth).map (filled source) := by
  induction depth generalizing idx copy with
  | zero =>
      have entries := replica.1
      simp [level, FlatBTree.filled, Item.map, entries]
  | succ depth ih =>
      obtain ⟨keys, children⟩ := replica
      rw [level_below, level_below, keys]
      exact filled_row _ (children.imp fun _ _ below => ih below)

theorem keyed (replica : Replica source heap depth idx copy) (keyed : Keyed source depth idx) :
    Keyed heap depth copy := by
  induction depth generalizing idx copy with
  | zero => trivial
  | succ depth ih =>
      obtain ⟨keys, children⟩ := replica
      refine ⟨by rw [keys]; exact keyed.1, fun child isChild => ?_⟩
      obtain ⟨original, isOriginal, below⟩ := exists_of_forall₂ children isChild
      exact ih below (keyed.2 original isOriginal)

theorem leaf (replica : Replica source heap depth idx copy) (sub : Subtree layout heap depth copy) :
    ∀ leaf ∈ leavesUnder heap depth copy, (heap leaf).isLeaf = true := by
  induction depth generalizing idx copy with
  | zero =>
      intro leaf member
      obtain rfl : leaf = copy := by simpa [leavesUnder, level] using member
      exact replica.2
  | succ depth ih =>
      intro leaf member
      rw [leavesUnder, sub.nodes_level] at member
      obtain ⟨child, isChild, inside⟩ := List.mem_flatMap.mp member
      obtain ⟨original, _, below⟩ := exists_of_forall₂ replica.2 isChild
      exact ih below (sub.2 child isChild) leaf inside

theorem congr (replica : Replica source heap depth idx copy)
    (same : ∀ other ∈ under heap depth copy, SameShape heap heap' other ∧ (heap' other).entries = (heap other).entries) :
    Replica source heap' depth idx copy := by
  induction depth generalizing idx copy with
  | zero =>
      obtain ⟨shape, entries⟩ := same copy (mem_under_self _ _ _)
      exact ⟨entries.trans replica.1, shape.isLeaf.trans replica.2⟩
  | succ depth ih =>
      obtain ⟨shape, _⟩ := same copy (mem_under_self _ _ _)
      refine ⟨shape.keys.trans replica.1, ?_⟩
      rw [shape.children]
      exact forall₂_imp_mem replica.2 fun _ _ child isChild below =>
        ih below fun other member => same other (mem_under_child isChild member)

end Replica

/-- A node of the heap is the top of a copy of what is below a node of the source. -/
structure CopyOf (layout : NodeLayout) (source heap : Heap K V) (depth : Nat) (idx copy : NodeIdx) : Prop where
  sub : Subtree layout heap depth copy
  replica : Replica source heap depth idx copy

theorem CopyOf.congr {heap heap' : Heap K V} {source : Heap K V} {idx copy : NodeIdx}
    (copyOf : CopyOf layout source heap depth idx copy) (unique : (under heap depth copy).Nodup)
    (same : ∀ other ∈ under heap depth copy, SameShape heap heap' other ∧
      (heap' other).entries = (heap other).entries)
    (parents : ∀ other ∈ below heap depth copy, (heap' other).parent = (heap other).parent) :
    CopyOf layout source heap' depth idx copy ∧ under heap' depth copy = under heap depth copy ∧
      leavesUnder heap' depth copy = leavesUnder heap depth copy := by
  have shapes : ∀ other ∈ under heap depth copy, SameShape heap heap' other := fun other member => (same other member).1
  obtain ⟨sameLevel, sameUnder⟩ := copyOf.sub.level_congr shapes
  refine ⟨⟨copyOf.sub.congr unique shapes parents, copyOf.replica.congr same⟩, sameUnder, ?_⟩
  rw [leavesUnder, leavesUnder, sameLevel]

/-- Copies side by side, whose leaves continue the chain. -/
structure CopiedRow (layout : NodeLayout) (source : RawBTree K V) (depth : Nat) (children copies : List NodeIdx)
    (parent : Option NodeIdx) (used : List NodeIdx) (ends ends' : ChainEnds) (tree : RawBTree K V) : Prop where
  owned : Owned tree.arena (copies.flatMap (under tree.node depth) ++ used)
  copied : List.Forall₂ (CopyOf layout source.node tree.node depth) children copies
  parents : ∀ copy ∈ copies, (tree.node copy).parent = parent
  linked : Linked (fun idx => (tree.node idx).prev) (fun idx => (tree.node idx).next) ends.chainTail
    (copies.flatMap (leavesUnder tree.node depth)) none
  ends_eq : ends' = ends.after (copies.flatMap (leavesUnder tree.node depth))

/-- What copying one subtree next to the nodes in use does. -/
def Copies (layout : NodeLayout) (source : RawBTree K V) (depth : Nat)
    (clone : NodeIdx → ChainEnds → RawBTree K V → Result (NodeIdx × ChainEnds × RawBTree K V)) (idx : NodeIdx) : Prop :=
  ∀ (used : List NodeIdx) (ends : ChainEnds) (tree : RawBTree K V), Owned tree.arena used →
    (∀ tail ∈ ends.chainTail, tail ∈ used) →
    ∃ copy ends' tree', clone idx ends tree = .ok (copy, ends', tree') ∧
      CopiedRow layout source depth [idx] [copy] none used ends ends' tree' ∧
      Extends tree tree' used ends.chainTail (leavesUnder tree'.node depth copy)

/-- A copy in front of others, after those have been appended to its chain. -/
theorem CopiedRow.cons {tree tree' : RawBTree K V} {idx copy : NodeIdx} {children copies used : List NodeIdx}
    {parent : Option NodeIdx} {ends ends₁ ends' : ChainEnds}
    (first : CopiedRow layout source depth [idx] [copy] parent used ends ends₁ tree)
    (rest : CopiedRow layout source depth children copies parent (under tree.node depth copy ++ used) ends₁ ends' tree')
    (extended : Extends tree tree' (under tree.node depth copy) ends₁.chainTail
      (copies.flatMap (leavesUnder tree'.node depth))) :
    CopiedRow layout source depth (idx :: children) (copy :: copies) parent used ends ends' tree' ∧
      leavesUnder tree'.node depth copy = leavesUnder tree.node depth copy := by
  have copyOf : CopyOf layout source.node tree.node depth idx copy := (List.forall₂_cons.mp first.copied).1
  have owned := first.owned
  have linked := first.linked
  have endsEq := first.ends_eq
  simp only [List.flatMap_cons, List.flatMap_nil, List.append_nil] at owned linked endsEq
  have unique : (under tree.node depth copy).Nodup := owned.nodup_idxs.sublist (List.sublist_append_left _ _)
  have subset := copyOf.sub.leaves_subset
  have leavesUnique : (leavesUnder tree.node depth copy).Nodup :=
    (copyOf.sub.under_perm.nodup_iff.mp unique).sublist (List.sublist_append_right _ _)
  obtain ⟨copyOf', sameUnder, sameLeaves⟩ := copyOf.congr unique
    (fun other member => ⟨(extended.alike member).1, (extended.alike member).2.2.1⟩)
    fun other member => (extended.alike (List.mem_cons_of_mem _ member)).2.1
  refine ⟨⟨?_, List.forall₂_cons.mpr ⟨copyOf', rest.copied⟩, ?_, ?_, ?_⟩, sameLeaves⟩
  · rw [List.flatMap_cons, sameUnder]
    refine rest.owned.perm ?_
    rw [List.append_assoc, ← List.append_assoc (copies.flatMap _)]
    exact (List.perm_append_comm_assoc _ _ _).trans (List.Perm.of_eq (List.append_assoc _ _ _).symm)
  · intro other member
    rcases List.mem_cons.mp member with rfl | member
    · rw [(extended.alike (mem_under_self _ _ _)).2.1]
      exact first.parents _ List.mem_cons_self
    · exact rest.parents other member
  · rw [List.flatMap_cons, sameLeaves]
    have tailEq : ends₁.chainTail = (leavesUnder tree.node depth copy).getLast?.or ends.chainTail := by rw [endsEq]; rfl
    exact (tailEq ▸ extended).linked linked leavesUnique subset (tailEq ▸ rest.linked)
  · rw [rest.ends_eq, endsEq, List.flatMap_cons, sameLeaves, ChainEnds.after_append]

theorem node_adoptCopy {tree : RawBTree K V} {top copy other : NodeIdx} {slot : Nat} (different : copy ≠ top) :
    (tree.adoptCopy top slot copy).node other =
      if other = top then { tree.node top with children := (tree.node top).children.set slot copy }
      else if other = copy then { tree.node copy with parent := some top } else tree.node other := by
  rw [RawBTree.adoptCopy, RawBTree.setParent, RawBTree.node_modify]
  by_cases isTop : other = top
  · subst isTop
    simp [different.symm]
  · by_cases isCopy : other = copy
    · subst isCopy
      simp [RawBTree.node_modify_of_ne, different]
    · simp [isTop, isCopy, RawBTree.node_modify_of_ne]

theorem CopiedRow.perm {tree : RawBTree K V} {children copies used others : List NodeIdx} {parent : Option NodeIdx}
    {ends ends' : ChainEnds} (row : CopiedRow layout source depth children copies parent used ends ends' tree)
    (same : others.Perm used) : CopiedRow layout source depth children copies parent others ends ends' tree :=
  ⟨row.owned.perm (same.append_left _), row.copied, row.parents, row.linked, row.ends_eq⟩

theorem adoptCopy_frame (tree : RawBTree K V) (top : NodeIdx) (slot : Nat) (copy : NodeIdx) :
    RawBTree.SameFrame tree (tree.adoptCopy top slot copy) :=
  (RawBTree.SameFrame.modify tree top _).trans (RawBTree.SameFrame.modify _ copy _)

/-- Writing a copy into its parent. -/
theorem CopiedRow.adopt {tree : RawBTree K V} {idx copy top slot : Nat} {used : List NodeIdx} {ends ends' : ChainEnds}
    (row : CopiedRow layout source depth [idx] [copy] none (top :: used) ends ends' tree) :
    CopiedRow layout source depth [idx] [copy] (some top) (top :: used) ends ends' (tree.adoptCopy top slot copy) ∧
      under (tree.adoptCopy top slot copy).node depth copy = under tree.node depth copy ∧
      leavesUnder (tree.adoptCopy top slot copy).node depth copy = leavesUnder tree.node depth copy := by
  have copyOf : CopyOf layout source.node tree.node depth idx copy := (List.forall₂_cons.mp row.copied).1
  have owned := row.owned
  have linked := row.linked
  have endsEq := row.ends_eq
  simp only [List.flatMap_cons, List.flatMap_nil, List.append_nil] at owned linked endsEq
  have unique : (under tree.node depth copy).Nodup := owned.nodup_idxs.sublist (List.sublist_append_left _ _)
  have notTop : ∀ other ∈ under tree.node depth copy, other ≠ top :=
    fun other member same => owned.apart other member (same ▸ List.mem_cons_self)
  have different := notTop copy (mem_under_self _ _ _)
  have node : ∀ other ∈ under tree.node depth copy, (tree.adoptCopy top slot copy).node other =
      if other = copy then { tree.node copy with parent := some top } else tree.node other := by
    intro other member
    rw [node_adoptCopy different, if_neg (notTop other member)]
  have payload : ∀ other ∈ under tree.node depth copy,
      ((tree.adoptCopy top slot copy).node other).payload = (tree.node other).payload := by
    intro other member
    rw [node other member]
    split
    · next same => rw [same]; rfl
    · rfl
  obtain ⟨copyOf', sameUnder, sameLeaves⟩ := copyOf.congr unique
    (fun other member => ⟨.of_payload (payload other member), Node.entries_of_payload (payload other member)⟩)
    fun other member => by
      rw [node other (List.mem_cons_of_mem _ member), if_neg]
      exact fun same => (List.nodup_cons.mp unique).1 (same ▸ member)
  have frame := adoptCopy_frame tree top slot copy
  refine ⟨⟨?_, List.forall₂_cons.mpr ⟨copyOf', .nil⟩, ?_, ?_, ?_⟩, sameUnder, sameLeaves⟩
  · simp only [List.flatMap_cons, List.flatMap_nil, List.append_nil, sameUnder]
    exact owned.of_same frame.free frame.arenaLen
  · intro other member
    obtain rfl := List.mem_singleton.mp member
    rw [node other (mem_under_self _ _ _), if_pos rfl]
  · simp only [List.flatMap_cons, List.flatMap_nil, List.append_nil, sameLeaves]
    have subset := copyOf.sub.leaves_subset
    exact linked.congr (fun leaf member => Node.prev_of_payload (payload leaf (subset leaf member)))
      fun leaf member => Node.next_of_payload (payload leaf (subset leaf member))
  · simp only [List.flatMap_cons, List.flatMap_nil, List.append_nil, sameLeaves]
    exact endsEq

theorem cloneChildrenInto_spec {clone : NodeIdx → ChainEnds → RawBTree K V → Result (NodeIdx × ChainEnds × RawBTree K V)}
    {top : NodeIdx} {children done used : List NodeIdx} {ends : ChainEnds} {tree : RawBTree K V}
    (each : ∀ child ∈ children, Copies layout source depth clone child)
    (owned : Owned tree.arena (top :: used)) (tailUsed : ∀ tail ∈ ends.chainTail, tail ∈ used)
    (topChildren : (tree.node top).children = done ++ children) :
    ∃ copies ends' tree',
      RawBTree.cloneChildrenInto clone top done.length children ends tree = .ok (ends', tree') ∧
      CopiedRow layout source depth children copies (some top) (top :: used) ends ends' tree' ∧
      Extends tree tree' used ends.chainTail (copies.flatMap (leavesUnder tree'.node depth)) ∧
      tree'.node top = { tree.node top with children := done ++ copies } := by
  induction children generalizing done used ends tree with
  | nil =>
      refine ⟨[], ends, tree, rfl, ⟨owned, .nil, by simp, trivial, ?_⟩, .refl _ _ _, ?_⟩
      · simp [ChainEnds.after]
      · rw [← topChildren]
  | cons child children ih =>
      obtain ⟨copy, ends₁, tree₁, cloned, row₁, extended₁⟩ :=
        each child List.mem_cons_self (top :: used) ends tree owned fun tail isTail =>
          List.mem_cons_of_mem _ (tailUsed tail isTail)
      have owned₁ := row₁.owned
      simp only [List.flatMap_cons, List.flatMap_nil, List.append_nil] at owned₁
      have notTop : copy ≠ top := fun same => owned₁.apart copy (mem_under_self _ _ _) (same ▸ List.mem_cons_self)
      have topNotUsed : top ∉ used := (List.nodup_cons.mp owned.nodup_idxs).1
      have topNotTail : ends.chainTail ≠ some top := fun isTail => topNotUsed (tailUsed top isTail)
      have topNode₁ : tree₁.node top = tree.node top := extended₁.others top List.mem_cons_self topNotTail
      obtain ⟨row₂, under₂, leaves₂⟩ := @CopiedRow.adopt _ _ _ _ _ _ _ _ _ done.length _ _ _ row₁
      set tree₂ := tree₁.adoptCopy top done.length copy with tree₂Def
      have node₂ := @node_adoptCopy _ _ tree₁ top copy
      have topNode₂ : tree₂.node top = { tree.node top with children := (done ++ [copy]) ++ children } := by
        rw [tree₂Def, node₂ notTop, if_pos rfl, topNode₁, topChildren]
        simp
      have copyOf : CopyOf layout source.node tree₁.node depth child copy := (List.forall₂_cons.mp row₁.copied).1
      have fresh : ∀ other ∈ under tree₁.node depth copy, other ∉ used := fun other member inside =>
        owned₁.apart other member (List.mem_cons_of_mem _ inside)
      have sameUsed : ∀ other ∈ used, tree₂.node other = tree₁.node other := by
        intro other member
        rw [tree₂Def, node₂ notTop, if_neg fun same : other = top => topNotUsed (same ▸ member),
          if_neg fun same : other = copy => fresh other (same ▸ mem_under_self _ _ _) member]
      have owned₂ := row₂.owned
      have ends₂ := row₂.ends_eq
      simp only [List.flatMap_cons, List.flatMap_nil, List.append_nil] at owned₂ ends₂
      have tailUsed₂ : ∀ tail ∈ ends₁.chainTail, tail ∈ under tree₂.node depth copy ++ used := by
        intro tail isTail
        rw [ends₂, ChainEnds.after] at isTail
        rcases Option.or_eq_some_iff.mp isTail with isLast | ⟨_, old⟩
        · rw [under₂]
          rw [leaves₂] at isLast
          exact List.mem_append_left _ (copyOf.sub.leaves_subset tail (List.mem_of_getLast? isLast))
        · exact List.mem_append_right _ (tailUsed tail old)
      obtain ⟨copies, ends', tree', looped, rest, extended, topNode⟩ :=
        @ih (done ++ [copy]) (under tree₂.node depth copy ++ used) ends₁ tree₂
          (fun other member => each other (List.mem_cons_of_mem _ member)) (owned₂.perm List.perm_middle.symm)
          tailUsed₂ (by rw [topNode₂])
      obtain ⟨row, sameLeaves⟩ := row₂.cons (rest.perm List.perm_middle)
        (extended.mono fun other member => List.mem_append_left _ member)
      refine ⟨copy :: copies, ends', tree', ?_, row, ?_, ?_⟩
      · rw [List.length_append, List.length_singleton] at looped
        simp only [RawBTree.cloneChildrenInto, cloned, bind, Except.bind]
        exact looped
      · rw [List.flatMap_cons, sameLeaves]
        have upTo : Extends tree tree₂ used ends.chainTail (leavesUnder tree₂.node depth copy) := by
          rw [leaves₂]
          refine (extended₁.mono fun other member => List.mem_cons_of_mem _ member).update sameUsed ?_
          exact (adoptCopy_frame tree₁ top done.length copy).eq_arena
        refine upTo.trans ?_ fun leaf member => ?_
        · have tailEq : ends₁.chainTail = (leavesUnder tree₂.node depth copy).getLast?.or ends.chainTail := by
            rw [ends₂]
            rfl
          rw [← tailEq]
          exact extended.mono fun other member => List.mem_append_right _ member
        · rw [leaves₂] at member
          exact fresh leaf (copyOf.sub.leaves_subset leaf member)
      · rw [topNode, topNode₂]
        simp

theorem cloneLeafInto_copies {idx : NodeIdx} (isLeaf : (source.node idx).isLeaf = true) :
    Copies layout source 0 (fun idx ends tree => .ok (RawBTree.cloneLeafInto (source.node idx) ends tree)) idx := by
  intro used ends tree owned tailUsed
  obtain ⟨allocated, unchanged⟩ := owned.alloc
  set leaf := tree.arena.allocNode.1 with leafDef
  have fresh : leaf ∉ used := (List.nodup_cons.mp allocated.nodup_idxs).1
  set base : RawBTree K V := tree.allocNode.2.modify leaf fun _ =>
    { source.node idx with parent := none, prev := ends.chainTail, next := none } with baseDef
  have baseNode : base.node leaf = { source.node idx with parent := none, prev := ends.chainTail, next := none } :=
    RawBTree.node_modify_self _
  have baseOther : ∀ other ∈ used, base.node other = tree.node other := by
    intro other member
    have different : other ≠ leaf := fun same => fresh (same ▸ member)
    rw [baseDef, RawBTree.node_modify_of_ne _ different]
    exact unchanged other different
  obtain ⟨tree', made, frame, leafNode, extended⟩ : ∃ tree' : RawBTree K V,
      RawBTree.cloneLeafInto (source.node idx) ends tree = (leaf, ends.after [leaf], tree') ∧
      RawBTree.SameFrame base tree' ∧ tree'.node leaf = base.node leaf ∧
      Extends tree tree' used ends.chainTail [leaf] := by
    cases tailEq : ends.chainTail with
    | none =>
        refine ⟨base, ?_, .refl base, rfl, ?_⟩
        · rw [RawBTree.cloneLeafInto, tailEq, baseDef, tailEq]
          rfl
        · exact ⟨fun other member _ => baseOther other member, fun _ _ isTail => (Option.some_ne_none _ isTail.symm).elim, rfl⟩
    | some tail =>
        have inUse := tailUsed tail tailEq
        have different : leaf ≠ tail := fun same => fresh (same ▸ inUse)
        refine ⟨base.setNext (some leaf) tail, ?_, .modify base tail _, ?_, ?_⟩
        · rw [RawBTree.cloneLeafInto, tailEq, baseDef, tailEq]
          rfl
        · exact RawBTree.node_modify_of_ne _ different
        · refine ⟨fun other member notTail => ?_, fun other member isTail => ?_, rfl⟩
          · rw [RawBTree.setNext, RawBTree.node_modify_of_ne _ fun same => notTail (congrArg some same.symm)]
            exact baseOther other member
          · obtain rfl := Option.some.inj isTail
            rw [RawBTree.setNext, RawBTree.node_modify_self, baseOther _ member]
            rfl
  refine ⟨leaf, ends.after [leaf], tree', congrArg Except.ok made, ⟨?_, ?_, ?_, ?_, ?_⟩, ?_⟩
  · simp only [List.flatMap_cons, List.flatMap_nil, List.append_nil, under_zero]
    exact allocated.of_same frame.free frame.arenaLen
  · refine List.forall₂_cons.mpr ⟨⟨trivial, ?_, ?_⟩, .nil⟩
    · rw [leafNode, baseNode]
    · rw [leafNode, baseNode]
      exact isLeaf
  · intro other member
    obtain rfl := List.mem_singleton.mp member
    rw [leafNode, baseNode]
  · simp [leavesUnder, level, Linked, leafNode, baseNode]
  · simp [leavesUnder, level]
  · simpa [leavesUnder, level] using extended

/-- The copy of a whole subtree. -/
theorem cloneSubtreeInto_copies {fuel : Nat} {idx : NodeIdx} (enough : depth ≤ fuel)
    (sub : Subtree layout source.node depth idx)
    (leaf : ∀ leaf ∈ leavesUnder source.node depth idx, (source.node leaf).isLeaf = true) :
    Copies layout source depth (source.cloneSubtreeInto fuel) idx := by
  induction depth generalizing fuel idx with
  | zero =>
      have isLeaf : (source.node idx).isLeaf = true := leaf idx (by simp [leavesUnder, level])
      intro used ends tree owned tailUsed
      obtain ⟨copy, ends', tree', cloned, copied⟩ := cloneLeafInto_copies isLeaf used ends tree owned tailUsed
      refine ⟨copy, ends', tree', ?_, copied⟩
      unfold RawBTree.cloneSubtreeInto
      rw [if_pos isLeaf]
      exact cloned
  | succ depth ih =>
      obtain ⟨fuel, rfl⟩ : ∃ less, fuel = less + 1 := ⟨fuel - 1, by omega⟩
      obtain ⟨loose, children⟩ := sub
      have leaves : ∀ child ∈ (source.node idx).children, ∀ leaf ∈ leavesUnder source.node depth child,
          (source.node leaf).isLeaf = true := by
        intro child isChild other member
        refine leaf other ?_
        rw [leavesUnder, Subtree.nodes_level ⟨loose, children⟩]
        exact List.mem_flatMap.mpr ⟨child, isChild, member⟩
      intro used ends tree owned tailUsed
      obtain ⟨allocated, unchanged⟩ := owned.alloc
      set top := tree.arena.allocNode.1 with topDef
      have fresh : top ∉ used := (List.nodup_cons.mp allocated.nodup_idxs).1
      set base : RawBTree K V := tree.allocNode.2.modify top fun _ => { source.node idx with parent := none }
        with baseDef
      have baseTop : base.node top = { source.node idx with parent := none } := RawBTree.node_modify_self _
      have baseOther : ∀ other ∈ used, base.node other = tree.node other := by
        intro other member
        have different : other ≠ top := fun same => fresh (same ▸ member)
        rw [baseDef, RawBTree.node_modify_of_ne _ different]
        exact unchanged other different
      obtain ⟨copies, ends', tree', looped, row, extended, topNode⟩ :=
        @cloneChildrenInto_spec _ _ layout source depth (source.cloneSubtreeInto fuel) top
          (source.node idx).children [] used ends base
          (fun child isChild => ih (Nat.le_of_succ_le_succ enough) (children child isChild)
            (leaves child isChild))
          (allocated.of_same rfl rfl) tailUsed (by rw [baseTop]; rfl)
      rw [List.nil_append, baseTop] at topNode
      have count : copies.length = (source.node idx).children.length := row.copied.length_eq.symm
      have topChildren : (tree'.node top).children = copies := by rw [topNode]
      have topKeys : (tree'.node top).keys = (source.node idx).keys := by rw [topNode]
      have subTop : Subtree layout tree'.node (depth + 1) top := by
        refine ⟨⟨?_, ?_, ?_, ?_⟩, ?_⟩
        · rw [topNode]; exact loose.internal
        · rw [topChildren, topKeys, count]; exact loose.paired
        · rw [topKeys]; exact loose.fits
        · rw [topChildren]; exact row.parents
        · rw [topChildren]
          intro copy member
          obtain ⟨child, _, copyOf⟩ := exists_of_forall₂ row.copied member
          exact copyOf.sub
      have topLeaves : leavesUnder tree'.node (depth + 1) top = copies.flatMap (leavesUnder tree'.node depth) := by
        rw [leavesUnder, subTop.nodes_level, topChildren]
        rfl
      refine ⟨top, ends', tree', ?_, ⟨?_, ?_, ?_, ?_, ?_⟩, ?_⟩
      · unfold RawBTree.cloneSubtreeInto
        rw [if_neg (by rw [loose.internal]; exact Bool.false_ne_true)]
        simp only [bind, Except.bind]
        have looped' : RawBTree.cloneChildrenInto (source.cloneSubtreeInto fuel) top 0 (source.node idx).children ends
            base = .ok (ends', tree') := looped
        exact (congrArg (fun outcome => Except.bind outcome fun (result : ChainEnds × RawBTree K V) =>
          Except.ok (top, result.1, result.2)) looped')
      · simp only [List.flatMap_cons, List.flatMap_nil, List.append_nil, under_succ, topChildren]
        exact row.owned.perm List.perm_middle.symm
      · refine List.forall₂_cons.mpr ⟨⟨subTop, topKeys, ?_⟩, .nil⟩
        rw [topChildren]
        exact row.copied.imp fun _ _ copied => copied.replica
      · intro other member
        obtain rfl := List.mem_singleton.mp member
        rw [topNode]
      · simp only [List.flatMap_cons, List.flatMap_nil, List.append_nil, topLeaves]
        exact row.linked
      · simp only [List.flatMap_cons, List.flatMap_nil, List.append_nil, topLeaves]
        exact row.ends_eq
      · rw [topLeaves]
        exact ⟨fun other member notTail => (extended.others other member notTail).trans (baseOther other member),
          fun other member isTail => by rw [extended.tail other member isTail, baseOther other member],
          extended.frame⟩

end Copying

end Optimap.FlatBTree
