import Optimap.FlatBTree.SplitOff
import Optimap.FlatBTree.SubtreeCopy

/-!
# Moving subtrees

`deep_copy_subtree` makes the same copy as `clone_subtree_into` and frees the nodes of the
original one after the other, each when everything below it has been copied.
-/

set_option autoImplicit false
set_option linter.unusedSectionVars false

namespace Optimap.FlatBTree

open Lib

variable {K V : Type}

section Vacating

/-- The nodes of a subtree, each behind those below it. -/
def postorder (heap : Heap K V) : Nat → NodeIdx → List NodeIdx
  | 0, idx => [idx]
  | depth + 1, idx => (heap idx).children.flatMap (postorder heap depth) ++ [idx]

theorem postorder_perm (heap : Heap K V) (depth : Nat) (idx : NodeIdx) :
    (postorder heap depth idx).Perm (under heap depth idx) := by
  induction depth generalizing idx with
  | zero => exact List.Perm.refl _
  | succ depth ih =>
      rw [postorder, under_succ]
      exact (List.perm_append_singleton _ _).trans (List.Perm.cons _ (List.Perm.flatMap_left _ fun child _ => ih child))

theorem flatMap_postorder_perm (heap : Heap K V) (depth : Nat) (tops : List NodeIdx) :
    (tops.flatMap (postorder heap depth)).Perm (tops.flatMap (under heap depth)) :=
  List.Perm.flatMap_left _ fun top _ => postorder_perm heap depth top

/-- Empty and free a node. -/
def RawBTree.vacate (tree : RawBTree K V) (idx : NodeIdx) : RawBTree K V :=
  (tree.modify idx Node.movedOut).freeNode idx

def RawBTree.vacateAll (tree : RawBTree K V) (idxs : List NodeIdx) : RawBTree K V := idxs.foldl RawBTree.vacate tree

variable {tree : RawBTree K V} {idxs rest : List NodeIdx}

theorem vacateAll_append (tree : RawBTree K V) (left right : List NodeIdx) :
    tree.vacateAll (left ++ right) = (tree.vacateAll left).vacateAll right := List.foldl_append

theorem node_vacateAll {other : NodeIdx} (elsewhere : other ∉ idxs) :
    (tree.vacateAll idxs).node other = tree.node other := by
  induction idxs generalizing tree with
  | nil => rfl
  | cons idx idxs ih =>
      rw [List.mem_cons, not_or] at elsewhere
      exact (@ih (tree.vacate idx) elsewhere.2).trans (RawBTree.node_modify_of_ne _ elsewhere.1)

theorem vacateAll_frame (tree : RawBTree K V) (idxs : List NodeIdx) :
    tree.vacateAll idxs = { tree with arena := (tree.vacateAll idxs).arena } := by
  induction idxs generalizing tree with
  | nil => rfl
  | cons idx idxs ih => exact ih (tree.vacate idx)

theorem Owned.vacateAll (owned : Owned tree.arena (idxs ++ rest)) : Owned (tree.vacateAll idxs).arena rest := by
  induction idxs generalizing tree with
  | nil => exact owned
  | cons idx idxs ih =>
      have released : Owned (tree.vacate idx).arena (idxs ++ rest) :=
        (show Owned (tree.modify idx Node.movedOut).arena (idx :: (idxs ++ rest)) from owned.of_same rfl rfl).free
      exact ih released

end Vacating

section Ends

/-- Either there are leaves in the chain or there are none. -/
def ChainEnds.Matched (ends : ChainEnds) : Prop := ends.firstLeaf.isSome = ends.chainTail.isSome

theorem cloneChildrenInto_matched {clone : NodeIdx → ChainEnds → RawBTree K V → Result (NodeIdx × ChainEnds × RawBTree K V)}
    (each : ∀ {child ends tree copy ends' tree'}, clone child ends tree = .ok (copy, ends', tree') →
      ends.Matched → ends'.Matched) {top slot : Nat} {children : List NodeIdx} {ends ends' : ChainEnds}
    {tree tree' : RawBTree K V}
    (looped : RawBTree.cloneChildrenInto clone top slot children ends tree = .ok (ends', tree'))
    (matched : ends.Matched) : ends'.Matched := by
  induction children generalizing slot ends tree with
  | nil =>
      simp only [RawBTree.cloneChildrenInto, Except.ok.injEq, Prod.mk.injEq] at looped
      exact looped.1 ▸ matched
  | cons child children ih =>
      simp only [RawBTree.cloneChildrenInto, bind, Except.bind] at looped
      cases cloned : clone child ends tree with
      | error fault => simp [cloned] at looped
      | ok outcome =>
          simp only [cloned] at looped
          exact ih looped (each cloned matched)

theorem cloneSubtreeInto_matched {source tree tree' : RawBTree K V} {fuel idx copy : Nat} {ends ends' : ChainEnds}
    (cloned : source.cloneSubtreeInto fuel idx ends tree = .ok (copy, ends', tree')) (matched : ends.Matched) :
    ends'.Matched := by
  induction fuel generalizing idx copy ends ends' tree tree' with
  | zero =>
      unfold RawBTree.cloneSubtreeInto at cloned
      split at cloned
      · simp only [RawBTree.cloneLeafInto, Except.ok.injEq, Prod.mk.injEq] at cloned
        obtain ⟨_, rfl, _⟩ := cloned
        simp [ChainEnds.Matched]
      · exact absurd cloned (by simp)
  | succ fuel ih =>
      unfold RawBTree.cloneSubtreeInto at cloned
      split at cloned
      · simp only [RawBTree.cloneLeafInto, Except.ok.injEq, Prod.mk.injEq] at cloned
        obtain ⟨_, rfl, _⟩ := cloned
        simp [ChainEnds.Matched]
      · simp only [bind, Except.bind] at cloned
        cases looped : RawBTree.cloneChildrenInto (source.cloneSubtreeInto fuel) tree.allocNode.1 0
            (source.node idx).children ends
            (tree.allocNode.2.modify tree.allocNode.1 fun _ => { source.node idx with parent := none }) with
        | error fault => simp [looped] at cloned
        | ok outcome =>
            simp only [looped, pure, Except.pure, Except.ok.injEq, Prod.mk.injEq] at cloned
            obtain ⟨_, rfl, _⟩ := cloned
            exact cloneChildrenInto_matched (fun cloned => ih cloned) looped matched

end Ends

section Moving

variable {layout : NodeLayout} {source : RawBTree K V} {depth : Nat}

/-- The number of entries in leaves. -/
def storedIn (heap : Heap K V) (leaves : List NodeIdx) : Nat := (leaves.map fun leaf => (heap leaf).entries.length).sum

theorem storedIn_append (heap : Heap K V) (left right : List NodeIdx) :
    storedIn heap (left ++ right) = storedIn heap left + storedIn heap right := by simp [storedIn]

namespace Surgery

/-- What a surgery is after moving nodes in the order given. -/
def afterMove (source : RawBTree K V) (s : Surgery K V) (gone leaves : List NodeIdx) (ends : ChainEnds)
    (dst : RawBTree K V) : Surgery K V :=
  ⟨s.tree.vacateAll gone, dst, ends, s.count + storedIn source.node leaves⟩

theorem moveLeaf_eq {idx : NodeIdx} {s : Surgery K V} (same : s.tree.node idx = source.node idx)
    (matched : s.ends.Matched) :
    s.moveLeaf idx = ((RawBTree.cloneLeafInto (source.node idx) s.ends s.dst).1,
      s.afterMove source [idx] [idx] (RawBTree.cloneLeafInto (source.node idx) s.ends s.dst).2.1
        (RawBTree.cloneLeafInto (source.node idx) s.ends s.dst).2.2) := by
  obtain ⟨tree, dst, ⟨first, tail⟩, count⟩ := s
  rw [moveLeaf, same]
  cases tail with
  | none =>
      obtain rfl : first = none := by simpa [ChainEnds.Matched] using matched
      simp [RawBTree.cloneLeafInto, afterMove, storedIn, RawBTree.vacateAll, RawBTree.vacate]
  | some tail =>
      obtain ⟨head, rfl⟩ : ∃ head, first = some head := Option.isSome_iff_exists.mp (by simpa [ChainEnds.Matched] using matched)
      simp [RawBTree.cloneLeafInto, afterMove, storedIn, RawBTree.vacateAll, RawBTree.vacate]

theorem moveChildren_eq {clone : NodeIdx → ChainEnds → RawBTree K V → Result (NodeIdx × ChainEnds × RawBTree K V)}
    {move : NodeIdx → Surgery K V → Result (NodeIdx × Surgery K V)} {top slot : Nat} {children : List NodeIdx}
    {s : Surgery K V}
    (keeps : ∀ child ends tree copy ends' tree', clone child ends tree = .ok (copy, ends', tree') →
      ends.Matched → ends'.Matched)
    (each : ∀ child ∈ children, ∀ s : Surgery K V,
      (∀ other ∈ under source.node depth child, s.tree.node other = source.node other) → s.ends.Matched →
      move child s = (clone child s.ends s.dst).map fun outcome => (outcome.1,
        s.afterMove source (postorder source.node depth child) (leavesUnder source.node depth child) outcome.2.1
          outcome.2.2))
    (unique : (children.flatMap (under source.node depth)).Nodup)
    (same : ∀ other ∈ children.flatMap (under source.node depth), s.tree.node other = source.node other)
    (matched : s.ends.Matched) :
    moveChildren move top slot children s =
      (RawBTree.cloneChildrenInto clone top slot children s.ends s.dst).map fun outcome =>
        s.afterMove source (children.flatMap (postorder source.node depth))
          (children.flatMap (leavesUnder source.node depth)) outcome.1 outcome.2 := by
  induction children generalizing slot s with
  | nil =>
      simp [moveChildren, RawBTree.cloneChildrenInto, afterMove, Except.map, storedIn, RawBTree.vacateAll]
  | cons child children ih =>
      have moved := each child List.mem_cons_self s
        (fun other member => same other (List.mem_flatMap.mpr ⟨child, List.mem_cons_self, member⟩)) matched
      simp only [moveChildren, RawBTree.cloneChildrenInto, bind, Except.bind, moved]
      cases cloned : clone child s.ends s.dst with
      | error fault => rfl
      | ok outcome =>
          obtain ⟨copy, ends, dst⟩ := outcome
          simp only [Except.map]
          rw [List.flatMap_cons] at unique
          have apart : ∀ other ∈ children.flatMap (under source.node depth), other ∉ postorder source.node depth child := by
            intro other member inside
            have inside' := (postorder_perm source.node depth child).mem_iff.mp inside
            exact (List.nodup_append.mp unique).2.2 other inside' other member rfl
          have later := @ih (slot + 1)
            { s.afterMove source (postorder source.node depth child) (leavesUnder source.node depth child) ends dst with
              dst := dst.adoptCopy top slot copy }
            (fun other member => each other (List.mem_cons_of_mem _ member)) (List.nodup_append.mp unique).2.1
            (fun other member => by
              refine (node_vacateAll (apart other member)).trans (same other ?_)
              rw [List.flatMap_cons]
              exact List.mem_append_right _ member)
            (keeps _ _ _ _ _ _ cloned matched)
          refine later.trans ?_
          simp only [afterMove, List.flatMap_cons, vacateAll_append, storedIn_append, Nat.add_assoc]
          rfl

/-- The copy made while moving is the one that `clone_subtree_into` makes. -/
theorem deepCopySubtree_eq {fuel : Nat} {idx : NodeIdx} {s : Surgery K V} (enough : depth ≤ fuel)
    (sub : Subtree layout source.node depth idx)
    (leaf : ∀ leaf ∈ leavesUnder source.node depth idx, (source.node leaf).isLeaf = true)
    (unique : (under source.node depth idx).Nodup)
    (same : ∀ other ∈ under source.node depth idx, s.tree.node other = source.node other) (matched : s.ends.Matched) :
    deepCopySubtree fuel idx s = (source.cloneSubtreeInto fuel idx s.ends s.dst).map fun outcome => (outcome.1,
      s.afterMove source (postorder source.node depth idx) (leavesUnder source.node depth idx) outcome.2.1
        outcome.2.2) := by
  induction depth generalizing fuel idx s with
  | zero =>
      have isLeaf : (source.node idx).isLeaf = true := leaf idx (by simp [leavesUnder, level])
      have sameIdx := same idx (mem_under_self _ _ _)
      unfold deepCopySubtree RawBTree.cloneSubtreeInto
      simp only [sameIdx, isLeaf, if_true, moveLeaf_eq sameIdx matched, Except.map]
      rfl
  | succ depth ih =>
      obtain ⟨fuel, rfl⟩ : ∃ less, fuel = less + 1 := ⟨fuel - 1, by omega⟩
      have sameIdx := same idx (mem_under_self _ _ _)
      have internal : ¬ (source.node idx).isLeaf = true := by
        rw [sub.1.internal]
        exact Bool.false_ne_true
      have leaves : leavesUnder source.node (depth + 1) idx =
          (source.node idx).children.flatMap (leavesUnder source.node depth) := sub.nodes_level
      have looped := @moveChildren_eq _ _ source depth (source.cloneSubtreeInto fuel) (deepCopySubtree fuel)
        s.dst.allocNode.1 0 (source.node idx).children
        { s with dst := s.dst.allocNode.2.modify s.dst.allocNode.1 fun _ => { source.node idx with parent := none } }
        (fun _ _ _ _ _ _ => cloneSubtreeInto_matched)
        (fun child isChild s same matched => ih (Nat.le_of_succ_le_succ enough) (sub.2 child isChild)
          (fun other member => leaf other (leaves ▸ List.mem_flatMap.mpr ⟨child, isChild, member⟩))
          (under_child_nodup isChild unique) same matched)
        (List.nodup_cons.mp unique).2 (fun other member => same other (List.mem_cons_of_mem _ member)) matched
      unfold deepCopySubtree RawBTree.cloneSubtreeInto
      simp only [sameIdx, if_neg internal, bind, Except.bind, looped]
      cases RawBTree.cloneChildrenInto (source.cloneSubtreeInto fuel) s.dst.allocNode.1 0 (source.node idx).children
          s.ends (s.dst.allocNode.2.modify s.dst.allocNode.1 fun _ => { source.node idx with parent := none }) with
      | error fault => rfl
      | ok outcome =>
          simp only [Except.map, afterMove, leaves, postorder, vacateAll_append]
          rfl

/-- What moving subtrees that stand side by side does. -/
structure MovedRow (layout : NodeLayout) (source : RawBTree K V) (depth : Nat) (s s' : Surgery K V)
    (children copies used : List NodeIdx) : Prop where
  row : CopiedRow layout source depth children copies none used s.ends s'.ends s'.dst
  extended : Extends s.dst s'.dst used s.ends.chainTail (copies.flatMap (leavesUnder s'.dst.node depth))
  after : s' = s.afterMove source (children.flatMap (postorder source.node depth))
    (children.flatMap (leavesUnder source.node depth)) s'.ends s'.dst
  matched : s'.ends.Matched

theorem deepCopySubtree_moves {fuel : Nat} {idx : NodeIdx} {s : Surgery K V} {used : List NodeIdx}
    (enough : depth ≤ fuel) (sub : Subtree layout source.node depth idx)
    (leaf : ∀ leaf ∈ leavesUnder source.node depth idx, (source.node leaf).isLeaf = true)
    (unique : (under source.node depth idx).Nodup)
    (same : ∀ other ∈ under source.node depth idx, s.tree.node other = source.node other) (matched : s.ends.Matched)
    (owned : Owned s.dst.arena used) (tailUsed : ∀ tail ∈ s.ends.chainTail, tail ∈ used) :
    ∃ copy s', deepCopySubtree fuel idx s = .ok (copy, s') ∧
      MovedRow layout source depth s s' [idx] [copy] used := by
  obtain ⟨copy, ends, dst, cloned, row, extended⟩ := cloneSubtreeInto_copies enough sub leaf used s.ends s.dst owned tailUsed
  refine ⟨copy, s.afterMove source (postorder source.node depth idx) (leavesUnder source.node depth idx) ends dst, ?_,
    row, ?_, ?_, cloneSubtreeInto_matched cloned matched⟩
  · rw [deepCopySubtree_eq enough sub leaf unique same matched, cloned]
    rfl
  · simpa [afterMove] using extended
  · simp [afterMove]

theorem deepCopyEach_moves {fuel : Nat} {children used : List NodeIdx} {s : Surgery K V} (enough : depth ≤ fuel)
    (subs : ∀ child ∈ children, Subtree layout source.node depth child)
    (leaf : ∀ leaf ∈ children.flatMap (leavesUnder source.node depth), (source.node leaf).isLeaf = true)
    (unique : (children.flatMap (under source.node depth)).Nodup)
    (same : ∀ other ∈ children.flatMap (under source.node depth), s.tree.node other = source.node other)
    (matched : s.ends.Matched) (owned : Owned s.dst.arena used) (tailUsed : ∀ tail ∈ s.ends.chainTail, tail ∈ used) :
    ∃ copies s', deepCopyEach fuel children s = .ok (copies, s') ∧
      MovedRow layout source depth s s' children copies used := by
  induction children generalizing s used with
  | nil =>
      refine ⟨[], s, rfl, ⟨owned, .nil, by simp, trivial, ?_⟩, .refl _ _ _, ?_, matched⟩
      · simp [ChainEnds.after]
      · simp [afterMove, RawBTree.vacateAll, storedIn]
  | cons child children ih =>
      have sub := subs child List.mem_cons_self
      simp only [List.flatMap_cons, List.nodup_append] at unique
      obtain ⟨childUnique, restUnique, apart⟩ := unique
      obtain ⟨copy, s₁, moved, movedRow⟩ := @deepCopySubtree_moves _ _ layout source depth fuel child s used enough sub
        (fun other member => leaf other (List.mem_flatMap.mpr ⟨child, List.mem_cons_self, member⟩)) childUnique
        (fun other member => same other (List.mem_flatMap.mpr ⟨child, List.mem_cons_self, member⟩)) matched owned tailUsed
      have copyOf : CopyOf layout source.node s₁.dst.node depth child copy := (List.forall₂_cons.mp movedRow.row.copied).1
      have owned₁ := movedRow.row.owned
      have ends₁ := movedRow.row.ends_eq
      have after₁ := movedRow.after
      have extended₁ := movedRow.extended
      simp only [List.flatMap_cons, List.flatMap_nil, List.append_nil] at owned₁ ends₁ after₁ extended₁
      have tailUsed₁ : ∀ tail ∈ s₁.ends.chainTail, tail ∈ under s₁.dst.node depth copy ++ used := by
        intro tail isTail
        rw [ends₁, ChainEnds.after] at isTail
        rcases Option.or_eq_some_iff.mp isTail with isLast | ⟨_, old⟩
        · exact List.mem_append_left _ (copyOf.sub.leaves_subset tail (List.mem_of_getLast? isLast))
        · exact List.mem_append_right _ (tailUsed tail old)
      have same₁ : ∀ other ∈ children.flatMap (under source.node depth), s₁.tree.node other = source.node other := by
        intro other member
        rw [after₁]
        refine (node_vacateAll fun inside => ?_).trans (same other ?_)
        · exact apart other ((postorder_perm _ _ _).mem_iff.mp inside) other member rfl
        · rw [List.flatMap_cons]
          exact List.mem_append_right _ member
      obtain ⟨copies, s', looped, rest⟩ := @ih _ s₁ (fun other member => subs other (List.mem_cons_of_mem _ member))
        (fun other member => leaf other (List.mem_append_right _ member)) restUnique same₁ movedRow.matched owned₁
        tailUsed₁
      obtain ⟨row, sameLeaves⟩ := movedRow.row.cons rest.row
        (rest.extended.mono fun other member => List.mem_append_left _ member)
      refine ⟨copy :: copies, s', ?_, row, ?_, ?_, rest.matched⟩
      · simp only [deepCopyEach, bind, Except.bind, moved, looped]
        rfl
      · rw [List.flatMap_cons, sameLeaves]
        refine extended₁.trans ?_ fun leaf member inside => ?_
        · have tailEq : s₁.ends.chainTail = (leavesUnder s₁.dst.node depth copy).getLast?.or s.ends.chainTail := by
            rw [ends₁]
            rfl
          rw [← tailEq]
          exact rest.extended.mono fun other member => List.mem_append_right _ member
        · exact owned₁.apart leaf (copyOf.sub.leaves_subset leaf member) inside
      · have count : s'.count = s₁.count + storedIn source.node (children.flatMap (leavesUnder source.node depth)) := by
          rw [rest.after]
          rfl
        have tree : s'.tree = s₁.tree.vacateAll (children.flatMap (postorder source.node depth)) := by
          rw [rest.after]
          rfl
        have count₁ : s₁.count = s.count + storedIn source.node (leavesUnder source.node depth child) := by
          rw [after₁]
          rfl
        have tree₁ : s₁.tree = s.tree.vacateAll (postorder source.node depth child) := by
          rw [after₁]
          rfl
        rw [afterMove, List.flatMap_cons, List.flatMap_cons, vacateAll_append, storedIn_append, ← tree₁, ← tree,
          ← Nat.add_assoc, ← count₁, ← count]

end Surgery

end Moving

end Optimap.FlatBTree
