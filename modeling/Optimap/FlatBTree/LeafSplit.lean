import Optimap.FlatBTree.Heap

/-!
# Cutting a leaf in two

A full leaf is cut around the entry it is to take in. The right half is a fresh
leaf behind it in the chain, and a clone of its first key is the separator.
-/

set_option autoImplicit false
set_option linter.unusedSectionVars false

namespace Optimap.FlatBTree

open Lib

variable {K V : Type}

theorem node_linkAfter {tree : RawBTree K V} {left right idx : NodeIdx} {oldNext : Option NodeIdx}
    (apart : left ≠ right) (leftOut : oldNext ≠ some left) (rightOut : oldNext ≠ some right) :
    (tree.linkAfter left right oldNext).node idx =
      if idx = left then { tree.node idx with next := some right }
      else if idx = right then { tree.node idx with prev := some left, next := oldNext }
      else if oldNext = some idx then { tree.node idx with prev := some right }
      else tree.node idx := by
  have linked : ∀ idx, (((tree.setNext (some right) left).setPrev (some left) right).setNext oldNext
      right).node idx =
        if idx = left then { tree.node idx with next := some right }
        else if idx = right then { tree.node idx with prev := some left, next := oldNext }
        else tree.node idx := by
    intro idx
    simp only [RawBTree.setNext, RawBTree.setPrev, RawBTree.node_modify]
    by_cases isLeft : idx = left
    · subst isLeft
      simp [apart]
    · by_cases isRight : idx = right
      · subst isRight
        simp [isLeft]
      · simp [isLeft, isRight]
  cases oldNext with
  | none => exact linked idx
  | some next =>
      simp only [RawBTree.linkAfter, RawBTree.setPrev, RawBTree.node_modify] at linked ⊢
      rw [linked, linked]
      by_cases isNext : idx = next
      · subst isNext
        have notLeft : idx ≠ left := fun same => leftOut (congrArg some same)
        have notRight : idx ≠ right := fun same => rightOut (congrArg some same)
        simp [notLeft, notRight]
      · have differs : next ≠ idx := fun same => isNext same.symm
        simp [isNext, differs]

/-- The two leaves a full one is cut into. -/
structure LeafSplit (tree tree' : RawBTree K V) (left right : NodeIdx)
    (lower upper : List (KeyObj K × V)) : Prop where
  leftLeaf : (tree'.node left).isLeaf = (tree.node left).isLeaf
  leftParent : (tree'.node left).parent = (tree.node left).parent
  leftEntries : (tree'.node left).entries = lower
  leftPrev : (tree'.node left).prev = (tree.node left).prev
  leftNext : (tree'.node left).next = some right
  rightLeaf : (tree'.node right).isLeaf = true
  rightParent : (tree'.node right).parent = (tree.node left).parent
  rightEntries : (tree'.node right).entries = upper
  rightPrev : (tree'.node right).prev = some left
  rightNext : (tree'.node right).next = (tree.node left).next
  node : ∀ other, other ≠ left → other ≠ right → tree'.node other =
    if (tree.node left).next = some other then { tree.node other with prev := some right }
    else tree.node other
  root : tree'.root = tree.root
  free : tree'.arena.free = tree.allocNode.2.arena.free
  arenaLen : tree'.arena.len = tree.allocNode.2.arena.len
  firstLeaf : tree'.firstLeaf = tree.firstLeaf
  lastLeaf : tree'.lastLeaf = if (tree.node left).next = none then some right else tree.lastLeaf
  len : tree'.len = tree.len
  height : tree'.height = tree.height

/-- How the entries are dealt out around the new one. -/
structure Dealt (leafCap pos : Nat) (entry : KeyObj K × V) (all lower upper : List (KeyObj K × V)) :
    Prop where
  joined : lower ++ upper = all
  upper_pos : upper ≠ []
  lower_fits : lower.length ≤ leafCap
  upper_fits : upper.length ≤ leafCap
  lower_at : pos < (leafCap + 1) / 2 → lower[pos]? = some entry
  upper_at : (leafCap + 1) / 2 ≤ pos → upper[pos - (leafCap + 1) / 2]? = some entry

theorem dealt_left {layout : NodeLayout} {entry : KeyObj K × V} {below above : List (KeyObj K × V)}
    (full : (below ++ above).length = layout.leafCap) (low : below.length < (layout.leafCap + 1) / 2) :
    Dealt layout.leafCap below.length entry (below ++ entry :: above)
      (((below ++ above).take ((layout.leafCap + 1) / 2 - 1)).take below.length ++ entry ::
        ((below ++ above).take ((layout.leafCap + 1) / 2 - 1)).drop below.length)
      ((below ++ above).drop ((layout.leafCap + 1) / 2 - 1)) := by
  have capPos := layout.leafCap_pos
  rw [List.length_append] at full
  obtain ⟨extra, cut⟩ : ∃ extra, (layout.leafCap + 1) / 2 - 1 = below.length + extra :=
    ⟨(layout.leafCap + 1) / 2 - 1 - below.length, by omega⟩
  rw [cut, List.take_length_add_append, List.drop_length_add_append, List.take_left, List.drop_left]
  refine ⟨?_, ?_, ?_, ?_, ?_, ?_⟩
  · rw [List.append_assoc, List.cons_append, List.take_append_drop]
  · intro empty
    have := congrArg List.length empty
    simp only [List.length_drop, List.length_nil] at this
    omega
  · simp only [List.length_append, List.length_cons, List.length_take]
    omega
  · simp only [List.length_drop]
    omega
  · intro _
    simp
  · intro high
    omega

theorem dealt_right {layout : NodeLayout} {entry : KeyObj K × V} {below above : List (KeyObj K × V)}
    (full : (below ++ above).length = layout.leafCap) (high : ¬ below.length < (layout.leafCap + 1) / 2) :
    Dealt layout.leafCap below.length entry (below ++ entry :: above)
      ((below ++ above).take ((layout.leafCap + 1) / 2))
      (((below ++ above).drop ((layout.leafCap + 1) / 2)).take (below.length - (layout.leafCap + 1) / 2) ++
        entry :: (below ++ above).drop ((layout.leafCap + 1) / 2 +
          (below.length - (layout.leafCap + 1) / 2))) := by
  have capPos := layout.leafCap_pos
  rw [List.length_append] at full
  have position : (layout.leafCap + 1) / 2 + (below.length - (layout.leafCap + 1) / 2) = below.length := by
    omega
  have outer : (below ++ above).take ((layout.leafCap + 1) / 2) = below.take ((layout.leafCap + 1) / 2) :=
    List.take_append_of_le_length (by omega)
  have inner : ((below ++ above).drop ((layout.leafCap + 1) / 2)).take
      (below.length - (layout.leafCap + 1) / 2) = below.drop ((layout.leafCap + 1) / 2) := by
    rw [List.drop_append_of_le_length (by omega), List.take_append_of_le_length (by simp),
      List.take_of_length_le (by simp)]
  rw [position, outer, inner, List.drop_left]
  refine ⟨?_, by simp, ?_, ?_, fun low => absurd low high, fun _ => ?_⟩
  · rw [← List.append_assoc, List.take_append_drop]
  · simp only [List.length_take]
    omega
  · simp only [List.length_append, List.length_cons, List.length_drop]
    omega
  · rw [List.getElem?_append_right (by simp)]
    simp

/-- The step of `leaf_split_and_insert` that writes the entries of both halves. -/
def fillHalves (layout : NodeLayout) (tree : RawBTree K V) (left right : NodeIdx) (pos : Nat)
    (key : KeyObj K) (value : V) : RawBTree K V :=
  let mid := (layout.leafCap + 1) / 2
  let entries := (tree.node left).entries
  if pos < mid then
    ((tree.setEntries (entries.drop (mid - 1)) right).setEntries (entries.take (mid - 1)) left).leafInsertAt
      left pos key value
  else
    (tree.setEntries ((entries.drop mid).take (pos - mid) ++
      (key, value) :: entries.drop (mid + (pos - mid))) right).setEntries (entries.take mid) left

theorem leafSplitAndInsert_eq (layout : NodeLayout) (tree : RawBTree K V) (left : NodeIdx) (pos : Nat)
    (key : KeyObj K) (value : V) :
    tree.leafSplitAndInsert layout left pos key value = (do
      let right := tree.allocNode.1
      let tree' := ((fillHalves layout (tree.allocNode.2.modify right fun node =>
          { node with isLeaf := true, parent := (tree.allocNode.2.node left).parent })
            left right pos key value).linkAfter left right (tree.allocNode.2.node left).next)
      let first ← readSlot (tree'.node right).entries 0
      pure ((tree'.own first.1.key).1, right, (tree'.own first.1.key).2)) := rfl

/-- Both halves, and nothing else, get new entries. -/
structure Refilled (tree tree' : RawBTree K V) (left right : NodeIdx)
    (lower upper : List (KeyObj K × V)) : Prop where
  leftNode : ∃ slot, tree'.node left = { tree.node left with entries := lower, slot0 := slot }
  rightNode : ∃ slot, tree'.node right = { tree.node right with entries := upper, slot0 := slot }
  node : ∀ other, other ≠ left → other ≠ right → tree'.node other = tree.node other
  frame : RawBTree.SameFrame tree tree'

theorem Refilled.symm {tree tree' : RawBTree K V} {left right : NodeIdx} {lower upper : List (KeyObj K × V)}
    (refilled : Refilled tree tree' left right lower upper) : Refilled tree tree' right left upper lower :=
  ⟨refilled.rightNode, refilled.leftNode, fun other notRight notLeft => refilled.node other notLeft notRight,
    refilled.frame⟩

theorem Refilled.setEntries {tree : RawBTree K V} {left right : NodeIdx} (apart : left ≠ right)
    (lower upper : List (KeyObj K × V)) :
    Refilled tree ((tree.setEntries upper right).setEntries lower left) left right lower upper := by
  refine ⟨?_, ?_, fun other notLeft notRight => ?_,
    (RawBTree.SameFrame.modify _ _ _).trans (RawBTree.SameFrame.modify _ _ _)⟩
  · rw [RawBTree.setEntries, RawBTree.node_modify_self, RawBTree.setEntries,
      RawBTree.node_modify_of_ne _ apart]
    exact ⟨_, rfl⟩
  · rw [RawBTree.setEntries, RawBTree.node_modify_of_ne _ apart.symm, RawBTree.setEntries,
      RawBTree.node_modify_self]
    exact ⟨_, rfl⟩
  · rw [RawBTree.setEntries, RawBTree.node_modify_of_ne _ notLeft, RawBTree.setEntries,
      RawBTree.node_modify_of_ne _ notRight]

theorem Refilled.again {tree tree' : RawBTree K V} {left right : NodeIdx} {lower upper : List (KeyObj K × V)}
    (refilled : Refilled tree tree' left right lower upper) (apart : left ≠ right)
    (entries : List (KeyObj K × V)) :
    Refilled tree (tree'.setEntries entries left) left right entries upper := by
  obtain ⟨⟨slot, leftNode⟩, ⟨slot', rightNode⟩, node, frame⟩ := refilled
  refine ⟨?_, ?_, fun other notLeft notRight => ?_, frame.trans (RawBTree.SameFrame.modify _ _ _)⟩
  · rw [RawBTree.setEntries, RawBTree.node_modify_self, leftNode]
    exact ⟨_, rfl⟩
  · rw [RawBTree.setEntries, RawBTree.node_modify_of_ne _ apart.symm, rightNode]
    exact ⟨_, rfl⟩
  · rw [RawBTree.setEntries, RawBTree.node_modify_of_ne _ notLeft, node other notLeft notRight]

theorem fillHalves_spec {layout : NodeLayout} {tree : RawBTree K V} {left right : NodeIdx}
    {below above : List (KeyObj K × V)} (key : KeyObj K) (value : V) (apart : left ≠ right)
    (entriesEq : (tree.node left).entries = below ++ above)
    (full : (below ++ above).length = layout.leafCap) :
    ∃ lower upper, Refilled tree (fillHalves layout tree left right below.length key value) left right
        lower upper ∧
      Dealt layout.leafCap below.length (key, value) (below ++ (key, value) :: above) lower upper := by
  rw [fillHalves, entriesEq]
  by_cases low : below.length < (layout.leafCap + 1) / 2
  · refine ⟨_, _, ?_, dealt_left full low⟩
    rw [if_pos low, RawBTree.leafInsertAt]
    have halves := @Refilled.setEntries _ _ tree left right apart
      ((below ++ above).take ((layout.leafCap + 1) / 2 - 1))
      ((below ++ above).drop ((layout.leafCap + 1) / 2 - 1))
    obtain ⟨slot, leftNode⟩ := halves.leftNode
    rw [leftNode]
    exact halves.again apart _
  · refine ⟨_, _, ?_, dealt_right full low⟩
    rw [if_neg low]
    exact Refilled.setEntries apart _ _

theorem leafSplitAndInsert_spec {layout : NodeLayout} {tree : RawBTree K V} {leaf : NodeIdx}
    {below above : List (KeyObj K × V)} (key : KeyObj K) (value : V)
    (unchanged : ∀ other, other ≠ tree.allocNode.1 → tree.allocNode.2.node other = tree.node other)
    (apart : leaf ≠ tree.allocNode.1) (selfOut : (tree.node leaf).next ≠ some leaf)
    (freshOut : (tree.node leaf).next ≠ some tree.allocNode.1)
    (entriesEq : (tree.node leaf).entries = below ++ above)
    (full : (tree.node leaf).entries.length = layout.leafCap) :
    ∃ tree' lower first upper, tree.leafSplitAndInsert layout leaf below.length key value =
        .ok (⟨first.1.key, tree.ledger.nextId⟩, tree.allocNode.1, tree') ∧
      LeafSplit tree tree' leaf tree.allocNode.1 lower (first :: upper) ∧
      Dealt layout.leafCap below.length (key, value) (below ++ (key, value) :: above) lower
        (first :: upper) ∧
      tree'.ledger = { tree.ledger with nextId := tree.ledger.nextId + 1 } := by
  have leafNode := unchanged leaf apart
  set fresh := tree.allocNode.1 with freshDef
  set base := tree.allocNode.2.modify fresh fun node =>
    { node with isLeaf := true, parent := (tree.allocNode.2.node leaf).parent } with baseDef
  have baseLeaf : base.node leaf = tree.node leaf := by
    rw [baseDef, RawBTree.node_modify_of_ne _ apart, leafNode]
  have baseFresh : (base.node fresh).isLeaf = true ∧ (base.node fresh).parent = (tree.node leaf).parent := by
    rw [baseDef, RawBTree.node_modify_self, leafNode]
    exact ⟨rfl, rfl⟩
  have baseOther : ∀ other, other ≠ fresh → base.node other = tree.node other := by
    intro other notFresh
    rw [baseDef, RawBTree.node_modify_of_ne _ notFresh, unchanged other notFresh]
  obtain ⟨lower, upper, refilled, dealt⟩ := @fillHalves_spec _ _ layout base leaf fresh below above key value
    apart (by rw [baseLeaf]; exact entriesEq) (by rw [← entriesEq]; exact full)
  obtain ⟨⟨leftSlot, leftNode⟩, ⟨rightSlot, rightNode⟩, otherNode, frame⟩ := refilled
  cases upper with
  | nil => exact absurd rfl dealt.upper_pos
  | cons first upper =>
      set middle := fillHalves layout base leaf fresh below.length key value with middleDef
      set final := middle.linkAfter leaf fresh (tree.node leaf).next with finalDef
      have node : ∀ idx, final.node idx =
          if idx = leaf then { middle.node idx with next := some fresh }
          else if idx = fresh then { middle.node idx with prev := some leaf, next := (tree.node leaf).next }
          else if (tree.node leaf).next = some idx then { middle.node idx with prev := some fresh }
          else middle.node idx := fun idx => node_linkAfter apart selfOut freshOut
      have leafFinal := node leaf
      rw [if_pos rfl, leftNode, baseLeaf] at leafFinal
      have freshFinal := node fresh
      rw [if_neg apart.symm, if_pos rfl, rightNode] at freshFinal
      have linkFrame : final.root = middle.root ∧ final.arena.free = middle.arena.free ∧
          final.arena.len = middle.arena.len ∧ final.firstLeaf = middle.firstLeaf ∧
          final.lastLeaf = (if (tree.node leaf).next = none then some fresh else middle.lastLeaf) ∧
          final.len = middle.len ∧ final.height = middle.height ∧ final.ledger = middle.ledger := by
        rw [finalDef]
        cases (tree.node leaf).next with
        | none => exact ⟨rfl, rfl, rfl, rfl, rfl, rfl, rfl, rfl⟩
        | some next => exact ⟨rfl, rfl, rfl, rfl, rfl, rfl, rfl, rfl⟩
      obtain ⟨rootEq, freeEq, arenaEq, firstEq, lastEq, lenEq, heightEq, ledgerEq⟩ := linkFrame
      refine ⟨(final.own first.1.key).2, lower, first, upper, ?_, ?_, dealt, ?_⟩
      · rw [leafSplitAndInsert_eq]
        simp only [← freshDef, leafNode]
        rw [← leafNode, ← baseDef, leafNode, ← middleDef, ← finalDef, freshFinal]
        simp only [readSlot, List.getElem?_cons_zero, bind, Except.bind, pure, Except.pure, RawBTree.own]
        rw [ledgerEq, frame.ledger]
        rfl
      · refine ⟨?_, ?_, ?_, ?_, ?_, ?_, ?_, ?_, ?_, ?_, ?_, rootEq.trans frame.root, freeEq.trans frame.free,
          arenaEq.trans frame.arenaLen, firstEq.trans frame.firstLeaf, ?_, lenEq.trans frame.len,
          heightEq.trans frame.height⟩
        · have field := congrArg Node.isLeaf leafFinal
          exact field
        · have field := congrArg Node.parent leafFinal
          exact field
        · exact congrArg Node.entries leafFinal
        · have field := congrArg Node.prev leafFinal
          exact field
        · exact congrArg Node.next leafFinal
        · exact (congrArg Node.isLeaf freshFinal).trans baseFresh.1
        · exact (congrArg Node.parent freshFinal).trans baseFresh.2
        · exact congrArg Node.entries freshFinal
        · exact congrArg Node.prev freshFinal
        · have field := congrArg Node.next freshFinal
          exact field
        · intro other notLeaf notFresh
          have read := node other
          rw [if_neg notLeaf, if_neg notFresh, otherNode other notLeaf notFresh, baseOther other notFresh] at read
          exact read
        · exact lastEq.trans (by rw [frame.lastLeaf]; rfl)
      · change { final.ledger with nextId := final.ledger.nextId + 1 } = _
        rw [ledgerEq, frame.ledger]
        rfl

end Optimap.FlatBTree
