import Optimap.FlatBTree.Leaves
import Optimap.FlatBTree.LeafSplit
import Optimap.FlatBTree.Shrink

/-!
# Rebalancing a leaf

A thin leaf borrows an entry from a neighbour, which moves the separator between
them, or is merged with it, which removes the separator. Either way the entries
of the tree stay as they are.
-/

set_option autoImplicit false
set_option linter.unusedSectionVars false

namespace Optimap.FlatBTree

open Lib

variable {K V : Type} [LinearOrder K] {layout : NodeLayout} {tree tree' : RawBTree K V} {root : NodeIdx}
  {depth : Nat} {left right : List (LevelItem K)} {child next : NodeIdx} {key : KeyObj K}

/-- After rebalancing: the same entries under other separators, with every object
accounted for when `safe` holds. -/
structure Regrouped (layout : NodeLayout) (ledger : Ledger) (safe : Prop) (old : List (Mark K V))
    (tree' : RawBTree K V) (held : List (Mark K V)) : Prop where
  holds : Holds layout tree' held
  contents_eq : contents held = contents old
  tracks : ∀ extra, safe → ledger.Tracks (extra ++ objectIds old) →
    tree'.ledger.Tracks (extra ++ objectIds held)

section Borrowing

/-- Two neighbours with their entries dealt out anew. -/
structure Shifted (tree tree' : RawBTree K V) (child next parent : NodeIdx) (slot : Nat)
    (separator : KeyObj K) (lower upper : List (KeyObj K × V)) : Prop where
  childNode : ∃ slot0, tree'.node child = { tree.node child with entries := lower, slot0 := slot0 }
  nextNode : ∃ slot0, tree'.node next = { tree.node next with entries := upper, slot0 := slot0 }
  parentNode : tree'.node parent =
    { tree.node parent with keys := (tree.node parent).keys.set slot separator }
  node : ∀ other, other ≠ child → other ≠ next → other ≠ parent → tree'.node other = tree.node other
  root : tree'.root = tree.root
  free : tree'.arena.free = tree.arena.free
  arenaLen : tree'.arena.len = tree.arena.len
  firstLeaf : tree'.firstLeaf = tree.firstLeaf
  lastLeaf : tree'.lastLeaf = tree.lastLeaf
  len : tree'.len = tree.len
  height : tree'.height = tree.height

variable {separator : KeyObj K} {lower upper : List (KeyObj K × V)} {first : KeyObj K × V}

/-- The marks of a row around two neighbours. -/
theorem marks_pair (heap : Heap K V) :
    marks heap (left ++ .node child :: .sep key :: .node next :: right) =
      (marks heap left ++ (heap child).entries.map .node) ++ .sep key ::
        ((heap next).entries.map .node ++ marks heap right) := by
  simp

theorem Shifted.rooted
    (rooted : Rooted layout tree root (left ++ .node child :: .sep key :: .node next :: right))
    (tall : tree.height = depth + 1) (pair : Pair tree.node root depth left child key next right)
    (shifted : Shifted tree tree' child next pair.parent pair.before.length separator lower
      (first :: upper))
    (joined : lower ++ first :: upper = (tree.node child).entries ++ (tree.node next).entries)
    (lowerFits : lower.length ≤ layout.leafCap) (upperFits : (first :: upper).length ≤ layout.leafCap)
    (cloned : separator.key = first.1.key) :
    Rooted layout tree' root (left ++ .node child :: .sep separator :: .node next :: right) ∧
      marks tree'.node (left ++ .node child :: .sep separator :: .node next :: right) =
        (marks tree.node left ++ lower.map .node) ++ .sep separator ::
          ((first :: upper).map .node ++ marks tree.node right) := by
  obtain ⟨⟨childSlot, childNode⟩, ⟨nextSlot, nextNode⟩, parentNode, otherNode, rootEq, freeEq, arenaEq, firstEq,
    lastEq, lenEq, heightEq⟩ := shifted
  have nodup := rooted.nodes_nodup
  have parentAbove : pair.parent ∈ above tree.node root tree.height := by
    rw [tall]
    exact List.mem_append_right _ pair.place.parent_mem
  have parentOut : ∀ idx ∈ Item.nodes (left ++ .node child :: .sep key :: .node next :: right),
      idx ≠ pair.parent := fun idx member same => rooted.notMem_above member (same ▸ parentAbove)
  have beside := beside_row nodup
  have leafNode : ∀ idx ∈ Item.nodes left ++ Item.nodes right, tree'.node idx = tree.node idx := by
    intro idx member
    obtain ⟨onRow, notChild, notNext⟩ := beside idx member
    exact otherNode idx notChild notNext (parentOut idx onRow)
  have keeps : ∀ idx ∈ Item.nodes (left ++ .node child :: .sep key :: .node next :: right),
      (tree'.node idx).isLeaf = (tree.node idx).isLeaf ∧ (tree'.node idx).parent = (tree.node idx).parent ∧
      (tree'.node idx).prev = (tree.node idx).prev ∧ (tree'.node idx).next = (tree.node idx).next := by
    intro idx member
    by_cases isChild : idx = child
    · rw [isChild, childNode]
      exact ⟨rfl, rfl, rfl, rfl⟩
    · by_cases isNext : idx = next
      · rw [isNext, nextNode]
        exact ⟨rfl, rfl, rfl, rfl⟩
      · rw [otherNode idx isChild isNext (parentOut idx member)]
        exact ⟨rfl, rfl, rfl, rfl⟩
  have nodesEq : Item.nodes (left ++ .node child :: .sep separator :: .node next :: right) =
      Item.nodes (left ++ .node child :: .sep key :: .node next :: right) := by simp
  have newMarks : marks tree'.node (left ++ .node child :: .sep separator :: .node next :: right) =
      (marks tree.node left ++ lower.map .node) ++ .sep separator ::
        ((first :: upper).map .node ++ marks tree.node right) := by
    have leftMarks : marks tree'.node left = marks tree.node left :=
      marks_congr fun idx member => by rw [leafNode idx (List.mem_append_left _ member)]
    have rightMarks : marks tree'.node right = marks tree.node right :=
      marks_congr fun idx member => by rw [leafNode idx (List.mem_append_right _ member)]
    rw [marks_pair, leftMarks, rightMarks, childNode, nextNode]
  have merged : Mark.Sorted ((marks tree.node left ++ lower.map .node) ++
      .node first :: (upper.map .node ++ marks tree.node right)) := by
    have sorted := rooted.row.sorted
    rw [marks_pair] at sorted
    have removed := sorted.remove
    have same := congrArg (fun entries => marks tree.node left ++
      ((entries.map .node : List (Mark K V)) ++ marks tree.node right)) joined
    simp only [List.map_append, List.map_cons, List.append_assoc, List.cons_append] at same removed ⊢
    rw [same]
    exact removed
  refine ⟨⟨?_, ?_⟩, newMarks⟩
  · have crownAt := rooted.crownAt
    rw [tall] at crownAt
    have moved := crownAt.setSeparator pair rootEq freeEq arenaEq parentNode (fun idx member notParent => ?_)
      fun idx member => (keeps idx member).2.1
    · rw [heightEq, tall]
      exact moved
    · rw [← tall] at member
      refine otherNode idx (fun same => ?_) (fun same => ?_) notParent
      · exact rooted.notMem_above (show child ∈ _ by simp) (same ▸ member)
      · exact rooted.notMem_above (show next ∈ _ by simp) (same ▸ member)
  · refine ⟨fun idx member => ?_, fun idx member => ?_, ?_, ?_, ?_, ?_, ?_⟩
    · rw [nodesEq] at member
      rw [(keeps idx member).1]
      exact rooted.row.leaf idx member
    · rw [nodesEq] at member
      by_cases isChild : idx = child
      · rw [isChild, childNode]
        exact lowerFits
      · by_cases isNext : idx = next
        · rw [isNext, nextNode]
          exact upperFits
        · rw [otherNode idx isChild isNext (parentOut idx member)]
          exact rooted.row.fits idx member
    · rw [nodesEq]
      exact rooted.row.linked.congr (fun idx member => (keeps idx member).2.2.1)
        fun idx member => (keeps idx member).2.2.2
    · rw [nodesEq, firstEq]
      exact rooted.row.first
    · rw [nodesEq, lastEq]
      exact rooted.row.last
    · rw [newMarks, List.map_cons, List.cons_append]
      exact merged.insert_sep cloned
    · have counted := rooted.row.len
      have same := congrArg List.length joined
      rw [marks_pair] at counted
      rw [newMarks, lenEq, counted]
      simp only [Item.nodes_append, Item.nodes_sep, nodes_map_node, List.length_append] at same ⊢
      omega

/-- The old separator is dropped, the new one is a clone. -/
theorem Shifted.regrouped
    (rooted : Rooted layout tree root (left ++ .node child :: .sep key :: .node next :: right))
    (tall : tree.height = depth + 1) (pair : Pair tree.node root depth left child key next right)
    (shifted : Shifted tree tree' child next pair.parent pair.before.length
      ⟨first.1.key, tree.ledger.nextId⟩ lower (first :: upper))
    (joined : lower ++ first :: upper = (tree.node child).entries ++ (tree.node next).entries)
    (lowerFits : lower.length ≤ layout.leafCap) (upperFits : (first :: upper).length ≤ layout.leafCap)
    (ledger : tree'.ledger = ⟨tree.ledger.nextId + 1, key.id :: tree.ledger.dropped⟩) :
    ∃ held, Regrouped layout tree.ledger True
      (marks tree.node (left ++ .node child :: .sep key :: .node next :: right)) tree' held := by
  obtain ⟨rooted', newMarks⟩ := shifted.rooted rooted tall pair joined lowerFits upperFits rfl
  refine ⟨_, .rooted rooted', ?_, fun extra _ tracks => ?_⟩
  · have same := congrArg (fun entries => contents (entries.map .node : List (Mark K V))) joined
    rw [newMarks, marks_pair]
    simp only [List.map_append, contents_append, contents_sep, List.append_assoc] at same ⊢
    rw [← List.append_assoc (contents (lower.map .node)), same]
    simp
  · rw [newMarks, ledger]
    rw [marks_pair] at tracks
    refine Ledger.Tracks.drop (tracks.own.perm ?_)
    have same := congrArg (fun entries => objectIds (entries.map .node : List (Mark K V))) joined
    rw [List.perm_iff_count]
    intro id
    have counted := congrArg (List.count id) same
    simp only [objectIds_append, List.map_append, objectIds_cons, Mark.object_sep, List.count_append,
      List.count_cons] at counted ⊢
    omega

theorem Refilled.shifted {middle : RawBTree K V} {parent : NodeIdx} {slot : Nat}
    (refilled : Refilled tree middle child next lower upper) (notChild : parent ≠ child)
    (notNext : parent ≠ next) (ledger : Ledger) :
    Shifted tree (RawBTree.modify { middle with ledger := ledger } parent fun node =>
      { node with keys := node.keys.set slot separator }) child next parent slot separator lower upper := by
  obtain ⟨⟨childSlot, childNode⟩, ⟨nextSlot, nextNode⟩, otherNode, frame⟩ := refilled
  refine ⟨⟨childSlot, ?_⟩, ⟨nextSlot, ?_⟩, ?_, fun other isNotChild isNotNext notParent => ?_, frame.root,
    frame.free, frame.arenaLen, frame.firstLeaf, frame.lastLeaf, frame.len, frame.height⟩
  · rw [RawBTree.node_modify_of_ne _ notChild.symm, ← childNode]
    rfl
  · rw [RawBTree.node_modify_of_ne _ notNext.symm, ← nextNode]
    rfl
  · rw [RawBTree.node_modify_self, ← otherNode parent notChild notNext]
    rfl
  · rw [RawBTree.node_modify_of_ne _ notParent, ← otherNode other isNotChild isNotNext]
    rfl

theorem Rooted.pair_apart
    (rooted : Rooted layout tree root (left ++ .node child :: .sep key :: .node next :: right))
    (tall : tree.height = depth + 1) (pair : Pair tree.node root depth left child key next right) :
    child ≠ next ∧ pair.parent ≠ child ∧ pair.parent ≠ next := by
  have parentAbove : pair.parent ∈ above tree.node root tree.height := by
    rw [tall]
    exact List.mem_append_right _ pair.place.parent_mem
  have nodup := rooted.nodes_nodup
  simp only [Item.nodes_append, Item.nodes_node, Item.nodes_sep] at nodup
  refine ⟨fun same => ?_, fun same => ?_, fun same => ?_⟩
  · exact (List.nodup_cons.mp (List.nodup_middle.mp nodup)).1 (by simp [same])
  · exact rooted.notMem_above (show child ∈ _ by simp) (same ▸ parentAbove)
  · exact rooted.notMem_above (show next ∈ _ by simp) (same ▸ parentAbove)

/-- How both ways of borrowing end: the separator becomes the right one's first
key. -/
theorem Refilled.reseparated {middle : RawBTree K V}
    (rooted : Rooted layout tree root (left ++ .node child :: .sep key :: .node next :: right))
    (tall : tree.height = depth + 1) (pair : Pair tree.node root depth left child key next right)
    (refilled : Refilled tree middle child next lower (first :: upper))
    (joined : lower ++ first :: upper = (tree.node child).entries ++ (tree.node next).entries)
    (lowerFits : lower.length ≤ layout.leafCap) (upperFits : (first :: upper).length ≤ layout.leafCap) :
    ∃ tree' held, (do
        let first ← readSlot (middle.node next).entries 0
        let (newSep, tree) := middle.own first.1.key
        let oldSep ← readSlot (tree.node pair.parent).keys pair.before.length
        let tree := tree.drop oldSep
        pure (tree.modify pair.parent fun node =>
          { node with keys := node.keys.set pair.before.length newSep })) = .ok tree' ∧
      Regrouped layout tree.ledger True
        (marks tree.node (left ++ .node child :: .sep key :: .node next :: right)) tree' held := by
  obtain ⟨apart, notChild, notNext⟩ := rooted.pair_apart tall pair
  have shifted := @Refilled.shifted _ _ _ _ _ _ ⟨first.1.key, tree.ledger.nextId⟩ _ _ _ _
    pair.before.length refilled notChild notNext ⟨tree.ledger.nextId + 1, key.id :: tree.ledger.dropped⟩
  obtain ⟨held, regrouped⟩ := shifted.regrouped rooted tall pair joined lowerFits upperFits rfl
  refine ⟨_, held, ?_, regrouped⟩
  obtain ⟨slot0, nextFinal⟩ := refilled.rightNode
  have oldSep : ((middle.own first.1.key).2.node pair.parent).keys[pair.before.length]? = some key := by
    have same : (middle.own first.1.key).2.node pair.parent = tree.node pair.parent :=
      refilled.node pair.parent notChild notNext
    rw [same, pair.keys_eq, pair.before_paired]
    simp
  have sameLedger := refilled.frame.ledger
  simp only [nextFinal, readSlot, List.getElem?_cons_zero, bind, Except.bind, oldSep, pure, Except.pure]
  simp only [RawBTree.own, RawBTree.drop, sameLedger]

theorem stealLeafRight_regrouped
    (rooted : Rooted layout tree root (left ++ .node child :: .sep key :: .node next :: right))
    (tall : tree.height = depth + 1) (pair : Pair tree.node root depth left child key next right)
    (thin : (tree.node child).entries.length < layout.leafCap / 2)
    (donor : layout.leafCap / 2 < (tree.node next).entries.length) :
    ∃ tree' held, tree.stealLeafRight child next pair.parent pair.before.length = .ok tree' ∧
      Regrouped layout tree.ledger True
        (marks tree.node (left ++ .node child :: .sep key :: .node next :: right)) tree' held := by
  have nextFits := rooted.row.fits next (by simp)
  have apart := (rooted.pair_apart tall pair).1
  obtain ⟨stolen, first, upper, entriesEq⟩ :
      ∃ stolen first upper, (tree.node next).entries = stolen :: first :: upper := by
    match entries : (tree.node next).entries with
    | [] => rw [entries] at donor; simp at donor
    | [_] => rw [entries] at donor; simp at donor; omega
    | stolen :: first :: upper => exact ⟨stolen, first, upper, rfl⟩
  have refilled := (@Refilled.setEntries _ _ tree next child apart.symm (first :: upper)
    ((tree.node child).entries ++ [stolen])).symm
  obtain ⟨tree', held, returned, regrouped⟩ := refilled.reseparated rooted tall pair (by simp [entriesEq])
    (by simp only [List.length_append, List.length_cons, List.length_nil]; omega)
    (by rw [entriesEq] at nextFits; simp only [List.length_cons] at nextFits ⊢; omega)
  refine ⟨tree', held, ?_, regrouped⟩
  have nextNode : (tree.setEntries ((tree.node child).entries ++ [stolen]) child).node next =
      tree.node next := RawBTree.node_modify_of_ne _ apart.symm
  rw [← returned, RawBTree.stealLeafRight]
  simp only [entriesEq, readSlot, List.getElem?_cons_zero, bind, Except.bind, nextNode, List.tail_cons]

/-- The thin leaf is the right one of the two. -/
theorem stealLeafLeft_regrouped
    (rooted : Rooted layout tree root (left ++ .node child :: .sep key :: .node next :: right))
    (tall : tree.height = depth + 1) (pair : Pair tree.node root depth left child key next right)
    (thin : (tree.node next).entries.length < layout.leafCap / 2)
    (donor : layout.leafCap / 2 < (tree.node child).entries.length) :
    ∃ tree' held, tree.stealLeafLeft next child pair.parent pair.before.length = .ok tree' ∧
      Regrouped layout tree.ledger True
        (marks tree.node (left ++ .node child :: .sep key :: .node next :: right)) tree' held := by
  have childFits := rooted.row.fits child (by simp)
  have apart := (rooted.pair_apart tall pair).1
  obtain ⟨lower, stolen, entriesEq⟩ : ∃ lower stolen, (tree.node child).entries = lower ++ [stolen] := by
    rcases List.eq_nil_or_concat (tree.node child).entries with empty | ⟨lower, stolen, same⟩
    · rw [empty] at donor
      simp at donor
    · exact ⟨lower, stolen, by rw [same, List.concat_eq_append]⟩
  have refilled := @Refilled.setEntries _ _ tree child next apart lower (stolen :: (tree.node next).entries)
  obtain ⟨tree', held, returned, regrouped⟩ := refilled.reseparated rooted tall pair (by simp [entriesEq])
    (by rw [entriesEq] at childFits; simp only [List.length_append] at childFits ⊢; omega)
    (by simp only [List.length_cons]; omega)
  refine ⟨tree', held, ?_, regrouped⟩
  have childNode : (tree.setEntries (stolen :: (tree.node next).entries) next).node child =
      tree.node child := RawBTree.node_modify_of_ne _ apart
  have last : readSlot (lower ++ [stolen]) ((lower ++ [stolen]).length - 1) = .ok stolen := by
    simp [readSlot]
  have front : (lower ++ [stolen]).take ((lower ++ [stolen]).length - 1) = lower := by simp
  rw [← returned, RawBTree.stealLeafLeft]
  simp only [entriesEq, last, front, bind, Except.bind, childNode]

end Borrowing

section Merging

theorem node_unlinkAfter {leaf gone idx : NodeIdx} (leafOut : (tree.node gone).next ≠ some leaf) :
    (tree.unlinkAfter leaf gone).node idx =
      if idx = leaf then { tree.node idx with next := (tree.node gone).next }
      else if (tree.node gone).next = some idx then { tree.node idx with prev := some leaf }
      else tree.node idx := by
  have linked : (tree.setNext (tree.node gone).next leaf).node idx =
      if idx = leaf then { tree.node idx with next := (tree.node gone).next } else tree.node idx := by
    rw [RawBTree.setNext, RawBTree.node_modify]
    split
    · next same => rw [same]
    · rfl
  cases goneNext : (tree.node gone).next with
  | none =>
      rw [goneNext] at linked
      simp only [RawBTree.unlinkAfter, goneNext]
      refine Eq.trans linked ?_
      simp
  | some next =>
      rw [goneNext] at linked leafOut
      simp only [RawBTree.unlinkAfter, goneNext, RawBTree.setPrev, RawBTree.node_modify]
      by_cases isNext : idx = next
      · subst isNext
        have notLeaf : idx ≠ leaf := fun same => leafOut (congrArg some same)
        rw [if_neg notLeaf] at linked
        rw [if_pos rfl, linked, if_neg notLeaf, if_pos rfl]
      · have differs : some next ≠ some idx := fun same => isNext (Option.some.inj same).symm
        rw [if_neg isNext, linked, if_neg differs]

/-- A leaf has taken over the entries of its right neighbour, which is out of the
chain and on the free list. -/
structure Absorbed (tree tree' : RawBTree K V) (child next : NodeIdx) : Prop where
  childLeaf : (tree'.node child).isLeaf = (tree.node child).isLeaf
  childParent : (tree'.node child).parent = (tree.node child).parent
  childEntries : (tree'.node child).entries = (tree.node child).entries ++ (tree.node next).entries
  childPrev : (tree'.node child).prev = (tree.node child).prev
  childNext : (tree'.node child).next = (tree.node next).next
  node : ∀ other, other ≠ child → tree'.node other =
    if (tree.node next).next = some other then { tree.node other with prev := some child }
    else tree.node other
  root : tree'.root = tree.root
  arena : tree'.arena.free = next :: tree.arena.free ∧ tree'.arena.len = tree.arena.len
  firstLeaf : tree'.firstLeaf = tree.firstLeaf
  lastLeaf : tree'.lastLeaf = if (tree.node next).next = none then some child else tree.lastLeaf
  len : tree'.len = tree.len
  height : tree'.height = tree.height
  ledger : tree'.ledger = tree.ledger

theorem absorb_spec (apart : next ≠ child) (childOut : (tree.node next).next ≠ some child) :
    Absorbed tree (((tree.setEntries ((tree.node child).entries ++ (tree.node next).entries)
      child).unlinkAfter child next).freeNode next) child next := by
  set written := tree.setEntries ((tree.node child).entries ++ (tree.node next).entries) child with writtenDef
  have nextNode : written.node next = tree.node next := RawBTree.node_modify_of_ne _ apart
  have childNode : written.node child =
      (tree.node child).setEntries ((tree.node child).entries ++ (tree.node next).entries) :=
    RawBTree.node_modify_self _
  have node : ∀ idx, ((written.unlinkAfter child next).freeNode next).node idx =
      if idx = child then { written.node idx with next := (tree.node next).next }
      else if (tree.node next).next = some idx then { written.node idx with prev := some child }
      else written.node idx := by
    intro idx
    have unlinked := @node_unlinkAfter _ _ _ written child next idx (by rw [nextNode]; exact childOut)
    rw [nextNode] at unlinked
    exact unlinked
  have childFinal := node child
  rw [if_pos rfl, childNode] at childFinal
  refine ⟨?_, ?_, ?_, ?_, ?_, fun other different => ?_, ?_, ?_, ?_, ?_, ?_, ?_, ?_⟩
  · have field := congrArg Node.isLeaf childFinal
    exact field
  · have field := congrArg Node.parent childFinal
    exact field
  · exact congrArg Node.entries childFinal
  · have field := congrArg Node.prev childFinal
    exact field
  · have field := congrArg Node.next childFinal
    exact field
  · rw [node other, if_neg different]
    rw [show written.node other = tree.node other from RawBTree.node_modify_of_ne _ different]
  all_goals
    rw [RawBTree.unlinkAfter, nextNode]
    cases (tree.node next).next <;> simp [RawBTree.freeNode, RawBTree.setPrev, RawBTree.setNext,
      Arena.freeNode, writtenDef, RawBTree.setEntries, RawBTree.modify, Arena.modify]

theorem Absorbed.linked {cellsLeft cellsRight : List NodeIdx} (absorbed : Absorbed tree tree' child next)
    (linked : Linked (fun idx => (tree.node idx).prev) (fun idx => (tree.node idx).next) none
      (cellsLeft ++ child :: next :: cellsRight) none)
    (unique : (cellsLeft ++ child :: next :: cellsRight).Nodup) :
    Linked (fun idx => (tree'.node idx).prev) (fun idx => (tree'.node idx).next) none
      (cellsLeft ++ child :: cellsRight) none := by
  have nextNext : (tree.node next).next = cellsRight.head? := by
    have shifted : Linked (fun idx => (tree.node idx).prev) (fun idx => (tree.node idx).next) none
        ((cellsLeft ++ [child]) ++ next :: cellsRight) none := by simpa using linked
    have around := shifted.around.2
    rw [Option.or_none] at around
    exact around
  have childOut : child ∉ next :: cellsRight := (List.nodup_cons.mp (List.nodup_append.mp unique).2.1).1
  refine linked.remove_after unique absorbed.childNext ?_ ?_ ?_
  · intro other isHead
    have notChild : other ≠ child := fun same =>
      childOut (same ▸ List.mem_cons_of_mem _ (List.mem_of_head? isHead))
    simp only [absorbed.node other notChild, nextNext, isHead, if_true]
  · intro other _ notHead
    by_cases isChild : other = child
    · rw [isChild]
      exact absorbed.childPrev
    · simp only [absorbed.node other isChild, nextNext, if_neg notHead]
  · intro other notChild _
    simp only [absorbed.node other notChild]
    split <;> rfl

theorem Absorbed.row (absorbed : Absorbed tree tree' child next)
    (rooted : Rooted layout tree root (left ++ .node child :: .sep key :: .node next :: right))
    (fits : (tree.node child).entries.length + (tree.node next).entries.length ≤ layout.leafCap) :
    LeafRow layout tree' (left ++ .node child :: right) ∧
      marks tree'.node (left ++ .node child :: right) =
        (marks tree.node left ++ (tree.node child).entries.map .node) ++
          ((tree.node next).entries.map .node ++ marks tree.node right) := by
  have nodup := rooted.nodes_nodup
  have beside := beside_row nodup
  have others : ∀ idx ∈ Item.nodes left ++ Item.nodes right, (tree'.node idx).isLeaf = (tree.node idx).isLeaf ∧
      (tree'.node idx).entries = (tree.node idx).entries := by
    intro idx member
    rw [absorbed.node idx (beside idx member).2.1]
    split <;> exact ⟨rfl, rfl⟩
  have newMarks : marks tree'.node (left ++ .node child :: right) =
      (marks tree.node left ++ (tree.node child).entries.map .node) ++
        ((tree.node next).entries.map .node ++ marks tree.node right) := by
    have leftMarks : marks tree'.node left = marks tree.node left :=
      marks_congr fun idx member => (others idx (List.mem_append_left _ member)).2
    have rightMarks : marks tree'.node right = marks tree.node right :=
      marks_congr fun idx member => (others idx (List.mem_append_right _ member)).2
    rw [marks_append, marks_node, leftMarks, rightMarks, absorbed.childEntries, List.map_append]
    simp only [List.append_assoc]
  have linked := rooted.row.linked
  have firstLeaf := rooted.row.first
  have lastLeaf := rooted.row.last
  have sorted := rooted.row.sorted
  have counted := rooted.row.len
  have nodesEq : Item.nodes (left ++ .node child :: right) = Item.nodes left ++ child :: Item.nodes right := by
    simp
  have rowEq : Item.nodes (left ++ .node child :: .sep key :: .node next :: right) =
      Item.nodes left ++ child :: next :: Item.nodes right := by simp
  rw [rowEq] at nodup linked firstLeaf lastLeaf
  rw [marks_pair] at sorted counted
  refine ⟨⟨fun idx member => ?_, fun idx member => ?_, ?_, ?_, ?_, ?_, ?_⟩, newMarks⟩
  · rw [nodesEq] at member
    by_cases isChild : idx = child
    · rw [isChild, absorbed.childLeaf]
      exact rooted.row.leaf child (by simp)
    · have inside : idx ∈ Item.nodes left ++ Item.nodes right := by
        simp only [List.mem_append, List.mem_cons] at member ⊢
        tauto
      rw [(others idx inside).1]
      exact rooted.row.leaf idx (beside idx inside).1
  · rw [nodesEq] at member
    by_cases isChild : idx = child
    · rw [isChild, absorbed.childEntries, List.length_append]
      exact fits
    · have inside : idx ∈ Item.nodes left ++ Item.nodes right := by
        simp only [List.mem_append, List.mem_cons] at member ⊢
        tauto
      rw [(others idx inside).2]
      exact rooted.row.fits idx (beside idx inside).1
  · rw [nodesEq]
    exact absorbed.linked linked nodup
  · rw [nodesEq, absorbed.firstLeaf, firstLeaf]
    cases Item.nodes left <;> rfl
  · have shifted : Linked (fun idx => (tree.node idx).prev) (fun idx => (tree.node idx).next) none
        ((Item.nodes left ++ [child]) ++ next :: Item.nodes right) none := by simpa using linked
    have around := shifted.around.2
    rw [Option.or_none] at around
    rw [nodesEq, absorbed.lastLeaf, around, lastLeaf]
    cases Item.nodes right with
    | nil => simp
    | cons other others => simp [List.getLast?_append, List.getLast?_cons]
  · rw [newMarks]
    exact sorted.remove
  · rw [newMarks, absorbed.len, counted]
    simp

/-- Whether a node has to merge depends on itself, its parent and its siblings. -/
theorem crowded_of_same {size : Node K V → Nat} {minKeys : Nat} {idx : NodeIdx}
    (self : tree'.node idx = tree.node idx)
    (family : ∀ parent, (tree.node idx).parent = some parent → tree'.node parent = tree.node parent ∧
      ∀ sibling ∈ (tree.node parent).children, tree'.node sibling = tree.node sibling) :
    tree'.crowded size minKeys idx = tree.crowded size minKeys idx := by
  cases orphan : (tree.node idx).parent with
  | none =>
      simp only [RawBTree.crowded, RawBTree.rightSibling, RawBTree.leftSibling, self, orphan]
      rfl
  | some parent =>
      obtain ⟨parentSame, siblings⟩ := family parent orphan
      have slot : tree'.childSlot parent idx 0 = tree.childSlot parent idx 0 := by
        rw [RawBTree.childSlot, RawBTree.childSlot, parentSame]
      have rightSame : tree'.rightSibling idx = tree.rightSibling idx := by
        simp only [RawBTree.rightSibling, self, orphan, Option.bind_eq_bind, Option.bind_some, slot, parentSame]
      have leftSame : tree'.leftSibling idx = tree.leftSibling idx := by
        simp only [RawBTree.leftSibling, self, orphan, Option.bind_eq_bind, Option.bind_some, slot, parentSame]
      have rightMem : ∀ sibling, tree.rightSibling idx = some sibling → tree'.node sibling = tree.node sibling := by
        intro sibling found
        simp only [RawBTree.rightSibling, orphan, Option.bind_eq_bind, Option.bind_some] at found
        split at found
        · exact siblings sibling (List.mem_of_getElem? found)
        · simp at found
      have leftMem : ∀ sibling, tree.leftSibling idx = some sibling → tree'.node sibling = tree.node sibling := by
        intro sibling found
        simp only [RawBTree.leftSibling, orphan, Option.bind_eq_bind, Option.bind_some] at found
        split at found
        · exact siblings sibling (List.mem_of_getElem? found)
        · simp at found
      rw [RawBTree.crowded, RawBTree.crowded, rightSame, leftSame]
      congr 1
      · cases found : tree.rightSibling idx with
        | none => rfl
        | some sibling => rw [Option.all_some, Option.all_some, rightMem sibling found]
      · cases found : tree.leftSibling idx with
        | none => rfl
        | some sibling => rw [Option.all_some, Option.all_some, leftMem sibling found]

/-- The parent of an internal node and its children are above the leaves. -/
theorem grandparent_same {heap heap' : Heap K V} {idx grand : NodeIdx}
    (crown : Crown heap root layout (depth + 1)) (onLevel : idx ∈ Item.nodes (level heap root depth))
    (same : ∀ other ∈ above heap root (depth + 1), heap' other = heap other)
    (isGrand : (heap idx).parent = some grand) :
    heap' grand = heap grand ∧ ∀ sibling ∈ (heap grand).children, heap' sibling = heap sibling := by
  cases depth with
  | zero =>
      obtain rfl : idx = root := by simpa [level] using onLevel
      have orphan : (heap idx).parent = none := crown.1
      rw [orphan] at isGrand
      simp at isGrand
  | succ depth =>
      obtain ⟨before, after, split⟩ := List.append_of_mem onLevel
      obtain ⟨left, right, levelEq, _, _⟩ := Item.nodes_split split
      obtain ⟨place⟩ := crown.1.locate levelEq
      rw [place.parent_eq crown.1] at isGrand
      obtain rfl := Option.some.inj isGrand
      refine ⟨same _ (List.mem_append_left _ (List.mem_append_right _ place.parent_mem)), ?_⟩
      intro sibling isChild
      exact same _ (List.mem_append_right _ (crown.1.child_mem place.parent_mem isChild))

/-- Removing a separator below `parent` starts a merge of internal nodes. -/
def RawBTree.internalMerges (layout : NodeLayout) (tree : RawBTree K V) (parent : NodeIdx) : Prop :=
  tree.root ≠ some parent ∧ (tree.node parent).keys.length - 1 < layout.internalCap / 2 ∧
    tree.crowded (fun node => node.keys.length) (layout.internalCap / 2) parent = true

theorem mergeLeaves_regrouped
    (rooted : Rooted layout tree root (left ++ .node child :: .sep key :: .node next :: right))
    (tall : tree.height = depth + 1) (pair : Pair tree.node root depth left child key next right)
    (fits : (tree.node child).entries.length + (tree.node next).entries.length ≤ layout.leafCap) :
    ∃ tree' held, tree.mergeLeaves layout child pair.before.length pair.parent = .ok tree' ∧
      Regrouped layout tree.ledger (¬ tree.internalMerges layout pair.parent)
        (marks tree.node (left ++ .node child :: .sep key :: .node next :: right)) tree' held := by
  have nodup := rooted.nodes_nodup
  have rowEq : Item.nodes (left ++ .node child :: .sep key :: .node next :: right) =
      Item.nodes left ++ child :: next :: Item.nodes right := by simp
  have linked := rooted.row.linked
  rw [rowEq] at nodup linked
  have shifted : Linked (fun idx => (tree.node idx).prev) (fun idx => (tree.node idx).next) none
      ((Item.nodes left ++ [child]) ++ next :: Item.nodes right) none := by simpa using linked
  have nextNext := shifted.around.2
  rw [Option.or_none] at nextNext
  have childApart := (List.nodup_cons.mp (List.nodup_append.mp nodup).2.1).1
  have apart : next ≠ child := fun same => childApart (by simp [same])
  have childOut : (tree.node next).next ≠ some child := by
    intro same
    rw [nextNext] at same
    exact childApart (List.mem_cons_of_mem _ (List.mem_of_head? same))
  have absorbed := @absorb_spec _ _ _ tree _ _ apart childOut
  set merged := ((tree.setEntries ((tree.node child).entries ++ (tree.node next).entries)
    child).unlinkAfter child next).freeNode next with mergedDef
  obtain ⟨row, newMarks⟩ := absorbed.row rooted fits
  have nextRow : ∀ other, (tree.node next).next = some other → other ∈ Item.nodes right :=
    fun other same => List.mem_of_head? (nextNext.symm.trans same)
  have aboveSame : ∀ idx ∈ above tree.node root (depth + 1), merged.node idx = tree.node idx := by
    intro idx member
    rw [← tall] at member
    have notRow : idx ∉ Item.nodes (left ++ .node child :: .sep key :: .node next :: right) :=
      fun inside => rooted.notMem_above inside member
    rw [absorbed.node idx fun same => notRow (by simp [same]), if_neg]
    exact fun same => notRow (by simp [nextRow idx same])
  have parentsSame : ∀ idx, (merged.node idx).parent = (tree.node idx).parent := by
    intro idx
    by_cases isChild : idx = child
    · rw [isChild, absorbed.childParent]
    · rw [absorbed.node idx isChild]
      split <;> rfl
  have crownAt := rooted.crownAt
  rw [tall] at crownAt
  obtain ⟨sameLevel, sameAbove⟩ := level_above_congr aboveSame
  have owned : Owned merged.arena (above merged.node root (depth + 1) ++
      Item.nodes (left ++ .node child :: right) ++ []) := by
    have moved : Owned tree.arena (next :: (above tree.node root (depth + 1) ++
        Item.nodes (left ++ .node child :: right) ++ [])) := by
      refine crownAt.owned.perm ?_
      rw [List.perm_iff_count]
      intro idx
      simp only [Item.nodes_append, Item.nodes_node, Item.nodes_sep, List.count_append, List.count_cons]
      omega
    rw [sameAbove]
    exact moved.free.of_same absorbed.arena.1 absorbed.arena.2
  obtain ⟨tree', root', depth', removed, shrunk, ledger⟩ :=
    @internalRemoveAt_removes _ _ layout depth merged.height (by rw [absorbed.height, tall]) merged root left
      right child next key [] (pair.congr aboveSame) (absorbed.root.trans crownAt.root_eq)
      (crownAt.crown.congr aboveSame fun idx _ => parentsSame idx) (sameLevel.trans crownAt.level_eq) owned
      (by rw [absorbed.height, tall])
  obtain ⟨row', sameMarks⟩ := row.kept shrunk.kept fun idx member => member
  have depthEq : depth' = tree'.height := by
    have height := shrunk.height
    rw [absorbed.height, tall] at height
    omega
  refine ⟨tree', _, ?_, .rooted ⟨depthEq ▸ shrunk.crownAt, row'⟩, ?_, fun extra safe tracks => ?_⟩
  · have neighbour : readSlot (tree.node pair.parent).children (pair.before.length + 1) = .ok next := by
      rw [readSlot, pair.children_eq, List.getElem?_append_right (by omega)]
      simp
    simp only [RawBTree.mergeLeaves, neighbour, bind, Except.bind]
    exact removed
  · rw [sameMarks, newMarks, marks_pair]
    simp
  · have parentAbove : pair.parent ∈ above tree.node root (depth + 1) :=
      List.mem_append_right _ pair.place.parent_mem
    have dropped : tree'.ledger.dropped = key.id :: tree.ledger.dropped := by
      rcases ledger with plain | ⟨notRoot, few, crowded⟩
      · rw [plain, absorbed.ledger]
      · refine absurd ⟨?_, ?_, ?_⟩ safe
        · rw [← absorbed.root]
          exact notRoot
        · rw [← aboveSame pair.parent parentAbove]
          exact few
        · rw [← crowded]
          refine (crowded_of_same (aboveSame pair.parent parentAbove) fun grand isGrand => ?_).symm
          exact grandparent_same crownAt.crown pair.place.parent_mem aboveSame isGrand
    have same : tree'.ledger = ⟨tree.ledger.nextId, key.id :: tree.ledger.dropped⟩ := by
      rw [← dropped, ← absorbed.ledger, ← shrunk.nextId]
    rw [sameMarks, newMarks, same]
    rw [marks_pair] at tracks
    refine Ledger.Tracks.drop (tracks.perm ?_)
    rw [List.perm_iff_count]
    intro id
    simp only [objectIds_append, objectIds_cons, Mark.object_sep, List.count_append, List.count_cons]
    omega

/-- Rebalancing `leaf` merges it with a sibling, and that goes on to merge internal
nodes. -/
def RawBTree.leafMergeClimbs (layout : NodeLayout) (tree : RawBTree K V) (leaf : NodeIdx) : Prop :=
  tree.crowded (fun node => node.entries.length) (layout.leafCap / 2) leaf = true ∧
    ∃ parent ∈ (tree.node leaf).parent, tree.internalMerges layout parent

instance (tree : RawBTree K V) (parent : NodeIdx) : Decidable (tree.internalMerges layout parent) :=
  inferInstanceAs (Decidable (_ ∧ _ ∧ _))

instance (tree : RawBTree K V) (leaf : NodeIdx) : Decidable (tree.leafMergeClimbs layout leaf) :=
  inferInstanceAs (Decidable (_ ∧ _))

theorem Regrouped.weaken {ledger : Ledger} {safe safer : Prop} {old held : List (Mark K V)}
    (regrouped : Regrouped layout ledger safe old tree' held) (implied : safer → safe) :
    Regrouped layout ledger safer old tree' held :=
  ⟨regrouped.holds, regrouped.contents_eq, fun extra given => regrouped.tracks extra (implied given)⟩

theorem rebalanceLeaf_regrouped {leaf : NodeIdx} (rooted : Rooted layout tree root (left ++ .node leaf :: right))
    (tall : 0 < tree.height) (thin : (tree.node leaf).entries.length < layout.leafCap / 2) :
    ∃ tree' held, tree.rebalanceLeaf layout leaf = .ok tree' ∧
      Regrouped layout tree.ledger (¬ tree.leafMergeClimbs layout leaf)
        (marks tree.node (left ++ .node leaf :: right)) tree' held := by
  obtain ⟨depth, tallEq⟩ : ∃ depth, tree.height = depth + 1 := ⟨tree.height - 1, by omega⟩
  have crownAt := rooted.crownAt
  rw [tallEq] at crownAt
  obtain ⟨place⟩ := crownAt.crown.locate crownAt.level_eq
  have parentEq := place.parent_eq crownAt.crown
  rcases @rebalance_cases _ _ layout tree root depth left right leaf (fun node => node.entries.length)
      (layout.leafCap / 2) (tree.stealLeafRight leaf) (tree.stealLeafLeft leaf) (tree.mergeLeaves layout)
      place crownAt.crown crownAt.nodes_nodup with
    ⟨next, others, afterEq, donor, called⟩ | ⟨others, prev, beforeEq, donor, called⟩ |
      ⟨crowded, ⟨next, others, afterEq, small, called⟩ | ⟨others, prev, beforeEq, small, called⟩⟩
  · obtain ⟨key, rest, rfl, pair, parentSame, beforeSame⟩ := place.pair_right afterEq
    obtain ⟨tree', held, returned, regrouped⟩ := stealLeafRight_regrouped rooted tallEq pair thin donor
    refine ⟨tree', held, ?_, regrouped.weaken fun _ => trivial⟩
    rw [RawBTree.rebalanceLeaf, called, ← parentSame, ← beforeSame]
    exact returned
  · obtain ⟨key, rest, rfl, pair, parentSame, beforeSame⟩ := place.pair_left beforeEq
    rw [List.append_assoc] at rooted ⊢
    obtain ⟨tree', held, returned, regrouped⟩ := stealLeafLeft_regrouped rooted tallEq pair thin donor
    refine ⟨tree', held, ?_, regrouped.weaken fun _ => trivial⟩
    rw [RawBTree.rebalanceLeaf, called, ← parentSame, ← beforeSame]
    exact returned
  · obtain ⟨key, rest, rfl, pair, parentSame, beforeSame⟩ := place.pair_right afterEq
    obtain ⟨tree', held, returned, regrouped⟩ := mergeLeaves_regrouped rooted tallEq pair (by omega)
    refine ⟨tree', held, ?_, regrouped.weaken fun safe merges => safe ⟨crowded, _, parentEq, ?_⟩⟩
    · rw [RawBTree.rebalanceLeaf, called, ← parentSame, ← beforeSame]
      exact returned
    · rw [← parentSame]
      exact merges
  · obtain ⟨key, rest, rfl, pair, parentSame, beforeSame⟩ := place.pair_left beforeEq
    rw [List.append_assoc] at rooted ⊢
    obtain ⟨tree', held, returned, regrouped⟩ := mergeLeaves_regrouped rooted tallEq pair (by omega)
    refine ⟨tree', held, ?_, regrouped.weaken fun safe merges => safe ⟨crowded, _, parentEq, ?_⟩⟩
    · rw [RawBTree.rebalanceLeaf, called, ← parentSame, ← beforeSame]
      exact returned
    · rw [← parentSame]
      exact merges

end Merging

end Optimap.FlatBTree
