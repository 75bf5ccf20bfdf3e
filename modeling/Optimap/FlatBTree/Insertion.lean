import Optimap.FlatBTree.Leaves
import Optimap.FlatBTree.Growth
import Optimap.FlatBTree.LeafSplit

/-!
# Insertion

A new entry goes into its gap. A full leaf is cut in two around it first, and the
separator between the halves goes up.
-/

set_option autoImplicit false
set_option linter.unusedSectionVars false

namespace Optimap.FlatBTree

open Lib

variable {K V : Type}

section Leaf
variable [LinearOrder K] {layout : NodeLayout} {tree : RawBTree K V} {root leaf : NodeIdx}
  {items left right : List (LevelItem K)} {below above : List (KeyObj K × V)} {key : KeyObj K} {value : V}

/-- The marks after an insertion between `lower` and `upper`: the entry, and
perhaps a new separator. -/
structure Inserted (layout : NodeLayout) (ledger : Ledger) (lower upper : List (Mark K V))
    (entry : KeyObj K × V) (tree' : RawBTree K V) (held : List (Mark K V)) : Prop where
  holds : Holds layout tree' held
  contents_eq : contents held = contents lower ++ (entry.1.key, entry.2) :: contents upper
  tracks : ledger.Tracks (entry.1.id :: objectIds (lower ++ upper)) → tree'.ledger.Tracks (objectIds held)

theorem Gap.sorted_insert (rooted : Rooted layout tree root items)
    (gap : Gap tree items key.key left leaf right below above) :
    Mark.Sorted (marks tree.node left ++
      ((below ++ (key, value) :: above).map .node ++ marks tree.node right)) := by
  have sorted := rooted.row.sorted
  rw [gap.marks_eq] at sorted
  have inserted := @Mark.Sorted.insert_entry _ _ _ _ _ (key, value) sorted gap.lower gap.upper
  simpa using inserted

theorem Gap.count_insert (rooted : Rooted layout tree root items)
    (gap : Gap tree items key.key left leaf right below above) :
    tree.len + 1 = (Item.nodes (marks tree.node left ++
      ((below ++ (key, value) :: above).map .node ++ marks tree.node right))).length := by
  rw [rooted.row.len, gap.marks_eq]
  simp only [Item.nodes_append, nodes_map_node, List.length_append, List.length_cons]
  omega

theorem leafInsertAt_inserted (rooted : Rooted layout tree root items)
    (gap : Gap tree items key.key left leaf right below above)
    (room : (tree.node leaf).entries.length < layout.leafCap) :
    ∃ held, Inserted layout tree.ledger (marks tree.node left ++ below.map .node)
      (above.map .node ++ marks tree.node right) (key, value)
      { tree.leafInsertAt leaf below.length key value with len := tree.len + 1 } held := by
  have written : tree.leafInsertAt leaf below.length key value =
      tree.setEntries (below ++ (key, value) :: above) leaf := by
    rw [RawBTree.leafInsertAt, gap.entries, List.take_left, List.drop_left]
  have fits : (below ++ (key, value) :: above).length ≤ layout.leafCap := by
    rw [gap.entries] at room
    simp only [List.length_append, List.length_cons] at room ⊢
    omega
  obtain ⟨rooted', newMarks⟩ := rooted.setEntries gap.split fits (gap.sorted_insert rooted)
    (gap.count_insert rooted)
  rw [written]
  refine ⟨_, .rooted rooted', ?_, fun tracks => ?_⟩
  · have same := congrArg contents newMarks
    refine same.trans ?_
    simp
  · have same := congrArg objectIds newMarks
    refine tracks.perm ?_
    rw [List.perm_iff_count]
    intro id
    refine (congrArg (List.count id) same).trans ?_
    simp only [objectIds_append, List.map_append, List.map_cons, objectIds_cons, Mark.object_node,
      List.count_append, List.count_cons]
    omega

/-- The marks of the two halves with the separator between them. -/
theorem Dealt.marks_eq {all lower upper : List (KeyObj K × V)} {cap pos : Nat} {entry first : KeyObj K × V}
    (dealt : Dealt cap pos entry all lower (first :: upper)) (outerLeft outerRight : List (Mark K V)) :
    outerLeft ++ (all.map .node ++ outerRight) =
      (outerLeft ++ lower.map .node) ++ .node first :: (upper.map .node ++ outerRight) := by
  rw [← dealt.joined]
  simp

theorem LeafSplit.marks_eq {tree' : RawBTree K V} {fresh : NodeIdx} {lower upper : List (KeyObj K × V)}
    {separator : KeyObj K} (leafSplit : LeafSplit tree tree' leaf fresh lower upper)
    (beside : ∀ idx ∈ Item.nodes left ++ Item.nodes right, idx ≠ leaf ∧ idx ≠ fresh) :
    marks tree'.node (left ++ .node leaf :: .sep separator :: .node fresh :: right) =
      (marks tree.node left ++ lower.map .node) ++ .sep separator ::
        (upper.map .node ++ marks tree.node right) := by
  have same : ∀ idx ∈ Item.nodes left ++ Item.nodes right,
      (tree'.node idx).entries = (tree.node idx).entries := by
    intro idx member
    rw [leafSplit.node idx (beside idx member).1 (beside idx member).2]
    split <;> rfl
  have leftMarks : marks tree'.node left = marks tree.node left :=
    marks_congr fun idx member => same idx (List.mem_append_left _ member)
  have rightMarks : marks tree'.node right = marks tree.node right :=
    marks_congr fun idx member => same idx (List.mem_append_right _ member)
  simp only [marks_append, marks_node, marks_sep, leftMarks, rightMarks, leafSplit.leftEntries,
    leafSplit.rightEntries, List.append_assoc]

theorem LeafSplit.linked {tree' : RawBTree K V} {fresh : NodeIdx} {lower upper : List (KeyObj K × V)}
    {cellsLeft cellsRight : List NodeIdx} (leafSplit : LeafSplit tree tree' leaf fresh lower upper)
    (linked : Linked (fun idx => (tree.node idx).prev) (fun idx => (tree.node idx).next) none
      (cellsLeft ++ leaf :: cellsRight) none)
    (unique : (cellsLeft ++ leaf :: fresh :: cellsRight).Nodup) :
    Linked (fun idx => (tree'.node idx).prev) (fun idx => (tree'.node idx).next) none
      (cellsLeft ++ leaf :: fresh :: cellsRight) none := by
  have next : (tree.node leaf).next = cellsRight.head? := by
    have around := linked.around.2
    rw [Option.or_none] at around
    exact around
  obtain ⟨_, right, _⟩ := List.nodup_append.mp unique
  obtain ⟨leafOut, freshOut⟩ := List.nodup_cons.mp right
  have leafNe : leaf ≠ fresh := fun same => leafOut (same ▸ List.mem_cons_self)
  refine linked.insert_after unique leafSplit.leftNext leafSplit.rightPrev leafSplit.rightNext ?_ ?_ ?_
  · intro other isHead
    have inside := List.mem_of_head? isHead
    have notLeaf : other ≠ leaf := fun same => leafOut (same ▸ List.mem_cons_of_mem _ inside)
    have notFresh : other ≠ fresh := fun same => (List.nodup_cons.mp freshOut).1 (same ▸ inside)
    simp only [leafSplit.node other notLeaf notFresh, next, isHead, if_true]
  · intro other notFresh notHead
    by_cases isLeaf : other = leaf
    · rw [isLeaf]
      exact leafSplit.leftPrev
    · simp only [leafSplit.node other isLeaf notFresh, next, if_neg notHead]
  · intro other notLeaf notFresh
    simp only [leafSplit.node other notLeaf notFresh]
    split <;> rfl

theorem LeafSplit.row {tree' : RawBTree K V} {fresh : NodeIdx} {lower upper : List (KeyObj K × V)}
    {separator : KeyObj K} {first : KeyObj K × V} (rooted : Rooted layout tree root items)
    (gap : Gap tree items key.key left leaf right below above)
    (leafSplit : LeafSplit tree tree' leaf fresh lower (first :: upper))
    (dealt : Dealt layout.leafCap below.length (key, value) (below ++ (key, value) :: above) lower
      (first :: upper))
    (freshOut : fresh ∉ Item.nodes items) (promoted : separator.key = first.1.key) :
    LeafRow layout { tree' with len := tree'.len + 1 }
      (left ++ .node leaf :: .sep separator :: .node fresh :: right) := by
  have nodup := rooted.nodes_nodup
  have onRow : leaf ∈ Item.nodes items := by rw [gap.split]; simp
  have beside : ∀ idx ∈ Item.nodes left ++ Item.nodes right, idx ≠ leaf ∧ idx ≠ fresh := by
    intro idx member
    refine ⟨beside_leaf (gap.split ▸ nodup) idx member, fun same => freshOut ?_⟩
    rw [gap.split, ← same]
    simp only [Item.nodes_append, Item.nodes_node, List.mem_append, List.mem_cons] at member ⊢
    tauto
  have unique : (Item.nodes left ++ leaf :: fresh :: Item.nodes right).Nodup := by
    rw [gap.split] at nodup freshOut
    simp only [Item.nodes_append, Item.nodes_node, List.mem_append, List.mem_cons, not_or] at nodup freshOut
    have moved : (Item.nodes left ++ leaf :: fresh :: Item.nodes right).Perm
        (fresh :: (Item.nodes left ++ leaf :: Item.nodes right)) := by
      have shifted := @List.perm_middle _ fresh (Item.nodes left ++ [leaf]) (Item.nodes right)
      simpa using shifted
    refine moved.nodup_iff.mpr (List.nodup_cons.mpr ⟨?_, nodup⟩)
    simp only [List.mem_append, List.mem_cons, not_or]
    exact freshOut
  have linked := rooted.row.linked
  have firstLeaf := rooted.row.first
  have lastLeaf := rooted.row.last
  rw [gap.split, Item.nodes_append, Item.nodes_node] at linked firstLeaf lastLeaf
  have nodesEq : Item.nodes (left ++ .node leaf :: .sep separator :: .node fresh :: right) =
      Item.nodes left ++ leaf :: fresh :: Item.nodes right := by simp
  have marksEq : marks tree'.node (left ++ .node leaf :: .sep separator :: .node fresh :: right) =
      (marks tree.node left ++ lower.map .node) ++ .sep separator ::
        ((first :: upper).map .node ++ marks tree.node right) := leafSplit.marks_eq beside
  have others : ∀ idx ∈ Item.nodes left ++ Item.nodes right, (tree'.node idx).isLeaf = (tree.node idx).isLeaf ∧
      (tree'.node idx).entries = (tree.node idx).entries := by
    intro idx member
    rw [leafSplit.node idx (beside idx member).1 (beside idx member).2]
    split <;> exact ⟨rfl, rfl⟩
  refine ⟨fun idx member => ?_, fun idx member => ?_, ?_, ?_, ?_, ?_, ?_⟩
  · rw [nodesEq] at member
    simp only [List.mem_append, List.mem_cons] at member
    have old : idx ∈ Item.nodes left ++ Item.nodes right → (tree'.node idx).isLeaf = true := by
      intro inside
      rw [(others idx inside).1]
      refine rooted.row.leaf idx ?_
      rw [gap.split]
      simp only [Item.nodes_append, Item.nodes_node, List.mem_append, List.mem_cons] at inside ⊢
      tauto
    rcases member with inLeft | rfl | rfl | inRight
    · exact old (List.mem_append_left _ inLeft)
    · exact leafSplit.leftLeaf.trans (rooted.row.leaf idx onRow)
    · exact leafSplit.rightLeaf
    · exact old (List.mem_append_right _ inRight)
  · rw [nodesEq] at member
    simp only [List.mem_append, List.mem_cons] at member
    have old : idx ∈ Item.nodes left ++ Item.nodes right →
        (tree'.node idx).entries.length ≤ layout.leafCap := by
      intro inside
      rw [(others idx inside).2]
      refine rooted.row.fits idx ?_
      rw [gap.split]
      simp only [Item.nodes_append, Item.nodes_node, List.mem_append, List.mem_cons] at inside ⊢
      tauto
    rcases member with inLeft | rfl | rfl | inRight
    · exact old (List.mem_append_left _ inLeft)
    · exact (congrArg List.length leafSplit.leftEntries).trans_le dealt.lower_fits
    · exact (congrArg List.length leafSplit.rightEntries).trans_le dealt.upper_fits
    · exact old (List.mem_append_right _ inRight)
  · rw [nodesEq]
    exact leafSplit.linked linked unique
  · rw [nodesEq]
    refine leafSplit.firstLeaf.trans (firstLeaf.trans ?_)
    cases Item.nodes left <;> rfl
  · rw [nodesEq]
    refine leafSplit.lastLeaf.trans ?_
    have next := linked.around.2
    rw [Option.or_none] at next
    rw [next, lastLeaf]
    cases Item.nodes right with
    | nil => simp
    | cons other others => simp [List.getLast?_append, List.getLast?_cons]
  · have sorted := @Gap.sorted_insert _ _ _ _ _ _ _ _ _ _ _ _ _ value rooted gap
    rw [dealt.marks_eq] at sorted
    have separated := sorted.insert_sep promoted
    have same := marksEq
    rw [List.map_cons, List.cons_append] at same
    exact (congrArg Mark.Sorted same).mpr separated
  · have counted := @Gap.count_insert _ _ _ _ _ _ _ _ _ _ _ _ _ value rooted gap
    rw [dealt.marks_eq] at counted
    have same := congrArg (fun held => (Item.nodes held).length) marksEq
    refine (congrArg (· + 1) leafSplit.len).trans (counted.trans (Eq.trans ?_ same.symm))
    simp

/-- A full leaf is cut in two; the crown still awaits the new separator. -/
structure Cut (layout : NodeLayout) (tree tree' : RawBTree K V) (root : NodeIdx)
    (left : List (LevelItem K)) (leaf : NodeIdx) (separator : KeyObj K) (fresh : NodeIdx)
    (right : List (LevelItem K)) (lower upper : List (KeyObj K × V)) : Prop where
  crownAt : CrownAt layout tree' root tree'.height (left ++ .node leaf :: right) [fresh]
  row : LeafRow layout tree' (left ++ .node leaf :: .sep separator :: .node fresh :: right)
  marks_eq : marks tree'.node (left ++ .node leaf :: .sep separator :: .node fresh :: right) =
    (marks tree.node left ++ lower.map .node) ++ .sep separator ::
      (upper.map .node ++ marks tree.node right)
  adopted : (tree'.node fresh).parent = (tree'.node leaf).parent
  upper_same : ∀ idx ∈ FlatBTree.above tree.node root tree.height, tree'.node idx = tree.node idx
  height : tree'.height = tree.height
  leaf_entries : (tree'.node leaf).entries = lower
  fresh_entries : (tree'.node fresh).entries = upper
  separator_id : separator.id = tree.ledger.nextId
  ledger : tree'.ledger = { tree.ledger with nextId := tree.ledger.nextId + 1 }

theorem leafSplitAndInsert_cut (rooted : Rooted layout tree root items)
    (gap : Gap tree items key.key left leaf right below above)
    (full : ¬ (tree.node leaf).entries.length < layout.leafCap) :
    ∃ tree' separator fresh lower upper,
      tree.leafSplitAndInsert layout leaf below.length key value = .ok (separator, fresh, tree') ∧
      Cut layout tree { tree' with len := tree'.len + 1 } root left leaf separator fresh right lower upper ∧
      Dealt layout.leafCap below.length (key, value) (below ++ (key, value) :: above) lower upper := by
  obtain ⟨allocated, unchanged⟩ := rooted.crownAt.alloc
  have onRow : leaf ∈ Item.nodes items := by rw [gap.split]; simp
  have apart := (unchanged leaf (by simp [onRow])).1
  have nodup := rooted.nodes_nodup
  have linked := rooted.row.linked
  rw [gap.split, Item.nodes_append, Item.nodes_node] at linked nodup
  have next := linked.around.2
  rw [Option.or_none] at next
  have nextMem : ∀ other, (tree.node leaf).next = some other → other ∈ Item.nodes right :=
    fun other same => List.mem_of_head? (next.symm.trans same)
  have rowOf : ∀ other ∈ Item.nodes right, other ∈ Item.nodes items := by
    intro other member
    rw [gap.split]
    simp [member]
  have selfOut : (tree.node leaf).next ≠ some leaf := fun same =>
    (List.nodup_cons.mp (List.nodup_middle.mp nodup)).1 (List.mem_append_right _ (nextMem leaf same))
  have freshOut : (tree.node leaf).next ≠ some tree.allocNode.1 := fun same =>
    (unchanged _ (by simp [rowOf _ (nextMem _ same)])).1 rfl
  have fullEq : (tree.node leaf).entries.length = layout.leafCap :=
    le_antisymm (rooted.row.fits leaf onRow) (not_lt.mp full)
  obtain ⟨tree', lower, first, upper, returned, leafSplit, dealt, ledger⟩ :=
    @leafSplitAndInsert_spec _ _ layout tree leaf below above key value
      (rooted.crownAt.owned.alloc).2 apart selfOut freshOut gap.entries fullEq
  have freshRow : tree.allocNode.1 ∉ Item.nodes items := fun inside => (unchanged _ (by simp [inside])).1 rfl
  have beside : ∀ idx ∈ Item.nodes left ++ Item.nodes right, idx ≠ leaf ∧ idx ≠ tree.allocNode.1 := by
    intro idx member
    have inRow : idx ∈ Item.nodes items := by
      rw [gap.split]
      simp only [Item.nodes_append, Item.nodes_node, List.mem_append, List.mem_cons] at member ⊢
      tauto
    exact ⟨beside_leaf (gap.split ▸ rooted.nodes_nodup) idx member, fun same => freshRow (same ▸ inRow)⟩
  have upperSame : ∀ idx ∈ FlatBTree.above tree.node root tree.height, tree'.node idx = tree.node idx := by
    intro idx member
    have notLeaf : idx ≠ leaf := fun same => rooted.notMem_above onRow (same ▸ member)
    rw [leafSplit.node idx notLeaf (unchanged idx (by simp [member])).1, if_neg]
    exact fun same => rooted.notMem_above (rowOf idx (nextMem idx same)) member
  refine ⟨tree', _, _, lower, first :: upper, returned, ⟨?_, leafSplit.row rooted gap dealt freshRow rfl,
    leafSplit.marks_eq beside, leafSplit.rightParent.trans leafSplit.leftParent.symm, upperSame,
    leafSplit.height, leafSplit.leftEntries, leafSplit.rightEntries, rfl, ledger⟩, dealt⟩
  have allocAbove : ∀ idx ∈ FlatBTree.above tree.node root tree.height,
      tree.allocNode.2.node idx = tree.node idx := fun idx member => (unchanged idx (by simp [member])).2
  have updated := @CrownAt.update _ _ _ _ { tree' with len := tree'.len + 1 } _ _ _ _ allocated
    leafSplit.root leafSplit.free leafSplit.arenaLen ?_ ?_
  · rw [gap.split] at updated
    refine (congrArg (fun height => CrownAt layout _ root height _ _) ?_).mp updated
    exact leafSplit.height.symm
  · intro idx member
    rw [(level_above_congr allocAbove).2] at member
    exact (upperSame idx member).trans (allocAbove idx member).symm
  · intro idx member
    rw [(unchanged idx (by simp [member])).2]
    by_cases isLeaf : idx = leaf
    · rw [isLeaf]
      exact leafSplit.leftParent
    · have read := leafSplit.node idx isLeaf (unchanged idx (by simp [member])).1
      refine (congrArg Node.parent read).trans ?_
      split <;> rfl

/-- When the separator has found its place, the tree is complete. -/
theorem Cut.grown {tree' final : RawBTree K V} {root' fresh : NodeIdx} {depth' : Nat} {separator : KeyObj K}
    {lower upper : List (KeyObj K × V)}
    (cut : Cut layout tree tree' root left leaf separator fresh right lower upper)
    (dealt : Dealt layout.leafCap below.length (key, value) (below ++ (key, value) :: above) lower upper)
    (grown : Grown layout tree' tree'.height (Item.nodes (left ++ .node leaf :: right) ++ [fresh])
      (left ++ .node leaf :: .sep separator :: .node fresh :: right) [] final root' depth') :
    Inserted layout tree.ledger (marks tree.node left ++ below.map .node)
        (above.map .node ++ marks tree.node right) (key, value) final
        (marks final.node (left ++ .node leaf :: .sep separator :: .node fresh :: right)) ∧
      (final.node leaf).entries = lower ∧ (final.node fresh).entries = upper := by
  have inside : ∀ idx ∈ Item.nodes (left ++ .node leaf :: .sep separator :: .node fresh :: right),
      idx ∈ Item.nodes (left ++ .node leaf :: right) ++ [fresh] := by
    intro idx member
    simp only [Item.nodes_append, Item.nodes_node, Item.nodes_sep, List.mem_append, List.mem_cons] at member ⊢
    tauto
  obtain ⟨row, sameMarks⟩ := cut.row.kept grown.kept inside
  have depthEq : depth' = final.height := by
    have height := grown.height
    omega
  have all : lower ++ upper = below ++ (key, value) :: above := dealt.joined
  refine ⟨⟨.rooted ⟨depthEq ▸ grown.crownAt, row⟩, ?_, fun tracks => ?_⟩, ?_, ?_⟩
  · rw [sameMarks, cut.marks_eq]
    have joined := congrArg (fun entries => contents (entries.map .node : List (Mark K V))) all
    simp only [List.map_append, contents_append, List.map_cons, contents_node, contents_sep,
      List.append_assoc] at joined ⊢
    rw [← List.append_assoc (contents (lower.map .node)), joined]
    simp
  · rw [sameMarks, cut.marks_eq, grown.ledger, cut.ledger]
    refine tracks.own.perm ?_
    have joined := congrArg (fun entries => objectIds (entries.map .node : List (Mark K V))) all
    rw [List.perm_iff_count]
    intro id
    have counted := congrArg (List.count id) joined
    simp only [objectIds_append, List.map_append, List.map_cons, objectIds_cons, Mark.object_node,
      Mark.object_sep, cut.separator_id, List.count_append, List.count_cons] at counted ⊢
    omega
  · rw [Node.entries_of_payload (grown.kept.payload leaf (by simp))]
    exact cut.leaf_entries
  · rw [Node.entries_of_payload (grown.kept.payload fresh (by simp))]
    exact cut.fresh_entries

theorem insertInLeaf_inserted {path : Result PathBuf} (rooted : Rooted layout tree root items)
    (gap : Gap tree items key.key left leaf right below above)
    (leads : ∃ found, path = .ok found ∧ PathTo tree.node root tree.height leaf found) :
    ∃ tree' held, tree.insertInLeaf layout leaf below.length key value path = .ok tree' ∧
      Inserted layout tree.ledger (marks tree.node left ++ below.map .node)
        (above.map .node ++ marks tree.node right) (key, value) tree' held := by
  by_cases room : (tree.node leaf).entries.length < layout.leafCap
  · obtain ⟨held, inserted⟩ := @leafInsertAt_inserted _ _ _ _ _ _ _ _ _ _ _ _ _ value rooted gap room
    refine ⟨_, held, ?_, inserted⟩
    rw [RawBTree.insertInLeaf, if_pos room]
    rfl
  · obtain ⟨middle, separator, fresh, lower, upper, returned, cut, dealt⟩ :=
      @leafSplitAndInsert_cut _ _ _ _ _ _ _ _ _ _ _ _ _ value rooted gap room
    obtain ⟨found, rfl, leads⟩ := leads
    have leadsCut := leads.congr cut.upper_same
    rw [← cut.height] at leadsCut
    obtain ⟨tree', root', depth', propagated, grown⟩ :=
      propagateSplit_grown separator cut.crownAt leadsCut cut.adopted
    refine ⟨tree', _, ?_, (cut.grown dealt grown).1⟩
    rw [RawBTree.insertInLeaf, if_neg room]
    simp only [returned, bind, Except.bind]
    exact propagated

theorem insertAtVacant_inserted (rooted : Rooted layout tree root items)
    (gap : Gap tree items key.key left leaf right below above) :
    ∃ leaf' slot tree' held, tree.insertAtVacant layout leaf below.length key value =
        .ok (leaf', slot, tree') ∧
      (tree'.node leaf').entries[slot]? = some (key, value) ∧
      Inserted layout tree.ledger (marks tree.node left ++ below.map .node)
        (above.map .node ++ marks tree.node right) (key, value) tree' held := by
  by_cases room : (tree.node leaf).entries.length < layout.leafCap
  · obtain ⟨held, inserted⟩ := @leafInsertAt_inserted _ _ _ _ _ _ _ _ _ _ _ _ _ value rooted gap room
    refine ⟨leaf, below.length, _, held, ?_, ?_, inserted⟩
    · rw [RawBTree.insertAtVacant, if_pos room]
      rfl
    · have written : (tree.leafInsertAt leaf below.length key value).node leaf =
          (tree.node leaf).setEntries (below ++ (key, value) :: above) := by
        rw [RawBTree.leafInsertAt, gap.entries, List.take_left, List.drop_left, RawBTree.setEntries,
          RawBTree.node_modify_self]
      have entries := congrArg (fun node => node.entries[below.length]?) written
      refine entries.trans ?_
      simp [Node.setEntries]
  · obtain ⟨middle, separator, fresh, lower, upper, returned, cut, dealt⟩ :=
      @leafSplitAndInsert_cut _ _ _ _ _ _ _ _ _ _ _ _ _ value rooted gap room
    obtain ⟨tree', root', depth', propagated, grown⟩ :=
      propagateSplitLazy_grown separator cut.crownAt le_rfl cut.adopted
    obtain ⟨inserted, leafEntries, freshEntries⟩ := cut.grown dealt grown
    have opened : tree.insertAtVacant layout leaf below.length key value =
        .ok (if below.length < (layout.leafCap + 1) / 2 then (leaf, below.length, tree')
          else (fresh, below.length - (layout.leafCap + 1) / 2, tree')) := by
      rw [RawBTree.insertAtVacant, if_neg room]
      simp only [returned, bind, Except.bind]
      have same := propagated
      simp only at same
      rw [same]
      rfl
    by_cases low : below.length < (layout.leafCap + 1) / 2
    · refine ⟨leaf, below.length, tree', _, by rw [opened, if_pos low], ?_, inserted⟩
      rw [leafEntries]
      exact dealt.lower_at low
    · refine ⟨fresh, _, tree', _, by rw [opened, if_neg low], ?_, inserted⟩
      rw [freshEntries]
      exact dealt.upper_at (not_lt.mp low)

end Leaf

section Ends

theorem row_ends {children : List NodeIdx} {keys : List (KeyObj K)}
    (paired : children.length = keys.length + 1) :
    (∃ child right, Item.row children keys = .node child :: right) ∧
      ∃ left child, Item.row children keys = left ++ [.node child] := by
  refine ⟨?_, ?_⟩
  · cases children with
    | nil => simp at paired
    | cons child children => exact ⟨child, _, rfl⟩
  · rcases List.eq_nil_or_concat children with rfl | ⟨before, child, rfl⟩
    · simp at paired
    · rw [List.concat_eq_append, List.length_append] at paired
      have around := @Item.row_around _ _ before [] keys [] child (by simpa using paired)
      rw [List.append_nil] at around
      exact ⟨_, child, by rw [List.concat_eq_append, around]; rfl⟩

/-- A level starts and ends with a node. -/
theorem Crown.level_ends {heap : Heap K V} {root : NodeIdx} {layout : NodeLayout} {depth : Nat}
    (crown : Crown heap root layout depth) :
    (∃ idx right, level heap root depth = .node idx :: right) ∧
      ∃ left idx, level heap root depth = left ++ [.node idx] := by
  induction depth with
  | zero => exact ⟨⟨root, [], rfl⟩, [], root, rfl⟩
  | succ depth ih =>
      obtain ⟨⟨first, right, firstEq⟩, left, last, lastEq⟩ := ih crown.1
      refine ⟨?_, ?_⟩
      · obtain ⟨child, rest, row⟩ := (row_ends (crown.2 first (by rw [firstEq]; simp)).paired).1
        exact ⟨child, _, by rw [level, firstEq, List.flatMap_cons, expand, row, List.cons_append]⟩
      · obtain ⟨rest, child, row⟩ := (row_ends (crown.2 last (by rw [lastEq]; simp)).paired).2
        refine ⟨left.flatMap (expand heap) ++ rest, child, ?_⟩
        rw [level, lastEq, List.flatMap_append, List.flatMap_cons, expand, row]
        simp

variable [LinearOrder K] {layout : NodeLayout} {tree : RawBTree K V} {root : NodeIdx}
  {items : List (LevelItem K)} {key : K}

theorem Rooted.ends (rooted : Rooted layout tree root items) :
    (∃ first right, items = .node first :: right ∧ tree.firstLeaf = some first) ∧
      ∃ left last, items = left ++ [.node last] ∧ tree.lastLeaf = some last := by
  obtain ⟨⟨first, right, firstEq⟩, left, last, lastEq⟩ := rooted.crownAt.crown.level_ends
  rw [rooted.crownAt.level_eq] at firstEq lastEq
  refine ⟨⟨first, right, firstEq, ?_⟩, left, last, lastEq, ?_⟩
  · rw [rooted.row.first, firstEq]
    rfl
  · rw [rooted.row.last, lastEq]
    simp

/-- Above all existing keys. -/
theorem Rooted.gap_last {left : List (LevelItem K)} {last : NodeIdx} {entry : KeyObj K × V}
    (rooted : Rooted layout tree root items) (split : items = left ++ [.node last])
    (isLast : (tree.node last).entries.getLast? = some entry) (larger : entry.1.key < key) :
    Gap tree items key left last [] (tree.node last).entries [] := by
  obtain ⟨front, entriesEq⟩ := List.getLast?_eq_some_iff.mp isLast
  refine ⟨split, by simp, fun mark member => ?_, by simp⟩
  have hit : Hit tree items left last [] front entry [] := ⟨split, entriesEq⟩
  have sorted := rooted.row.sorted
  rw [hit.marks_eq] at sorted
  rw [entriesEq, List.map_append, ← List.append_assoc] at member
  rcases List.mem_append.mp member with lower | isEntry
  · exact (sorted.around.1 mark lower).mono larger.le
  · obtain rfl := List.mem_singleton.mp isEntry
    exact larger

/-- Below all existing keys. -/
theorem Rooted.gap_first {right : List (LevelItem K)} {first : NodeIdx} {entry : KeyObj K × V}
    (rooted : Rooted layout tree root items) (split : items = .node first :: right)
    (isFirst : (tree.node first).entries.head? = some entry) (smaller : key < entry.1.key) :
    Gap tree items key [] first right [] (tree.node first).entries := by
  obtain ⟨back, entriesEq⟩ := List.head?_eq_some_iff.mp isFirst
  refine ⟨split, rfl, by simp, fun mark member => ?_⟩
  have hit : Hit tree items [] first right [] entry back := ⟨split, entriesEq⟩
  have sorted := rooted.row.sorted
  rw [hit.marks_eq] at sorted
  rw [entriesEq, List.map_cons, List.cons_append] at member
  rcases List.mem_cons.mp member with rfl | upper
  · exact smaller
  · exact smaller.trans (sorted.around.2 mark upper)

end Ends

section Insert
variable [LinearOrder K] {layout : NodeLayout} {tree : RawBTree K V} {root : NodeIdx}
  {items : List (LevelItem K)} {held : List (Mark K V)}

theorem Rooted.setLedger (rooted : Rooted layout tree root items) (ledger : Ledger) :
    Rooted layout { tree with ledger := ledger } root items :=
  ⟨⟨rooted.crownAt.root_eq, rooted.crownAt.crown, rooted.crownAt.level_eq, rooted.crownAt.owned⟩,
    ⟨rooted.row.leaf, rooted.row.fits, rooted.row.linked, rooted.row.first, rooted.row.last,
      rooted.row.sorted, rooted.row.len⟩⟩

theorem Vacant.setLedger (empty : Vacant tree) (ledger : Ledger) :
    Vacant { tree with ledger := ledger } :=
  ⟨empty.root, empty.firstLeaf, empty.lastLeaf, empty.len, empty.height, empty.owned⟩

theorem Holds.setLedger (holds : Holds layout tree held) (ledger : Ledger) :
    Holds layout { tree with ledger := ledger } held := by
  cases holds with
  | vacant empty => exact .vacant (empty.setLedger ledger)
  | rooted rooted => exact .rooted (rooted.setLedger ledger)

theorem insertFirst_inserted (empty : Vacant tree) (key : KeyObj K) (value : V) :
    Inserted layout tree.ledger [] [] (key, value) (tree.insertFirst key value) [.node (key, value)] ∧
      ∃ leaf, (tree.insertFirst key value).firstLeaf = some leaf ∧
        ((tree.insertFirst key value).node leaf).entries = [(key, value)] := by
  obtain ⟨owned, _⟩ := empty.owned.alloc
  set leaf := tree.allocNode.1 with leafDef
  set tree' := tree.insertFirst key value with treeDef
  have leafNode : tree'.node leaf = { (tree.allocNode.2.node leaf).setEntries [(key, value)] with
      isLeaf := true, parent := none, prev := none, next := none } :=
    RawBTree.node_modify_self fun node =>
      { node.setEntries [(key, value)] with isLeaf := true, parent := none, prev := none, next := none }
  have entries : (tree'.node leaf).entries = [(key, value)] := congrArg Node.entries leafNode
  have marksEq : marks tree'.node [.node leaf] = [.node (key, value)] := by simp [entries]
  have rooted : Rooted layout tree' leaf [.node leaf] := by
    refine ⟨⟨rfl, ?_, ?_, ?_⟩, ⟨?_, ?_, ?_, rfl, rfl, ?_, ?_⟩⟩
    · rw [show tree'.height = 0 from empty.height]
      exact congrArg Node.parent leafNode
    · rw [show tree'.height = 0 from empty.height]
      rfl
    · rw [show tree'.height = 0 from empty.height]
      exact owned.of_same rfl rfl
    · intro idx member
      obtain rfl : idx = leaf := by simpa using member
      exact congrArg Node.isLeaf leafNode
    · intro idx member
      obtain rfl : idx = leaf := by simpa using member
      rw [entries]
      exact layout.leafCap_pos
    · exact ⟨congrArg Node.prev leafNode, congrArg Node.next leafNode, trivial⟩
    · rw [marksEq]
      exact List.pairwise_singleton _ _
    · rw [marksEq]
      rfl
  refine ⟨⟨marksEq ▸ .rooted rooted, rfl, fun tracks => ?_⟩, leaf, rfl, entries⟩
  exact tracks

/-- What an operation that adds a missing key comes to. -/
theorem Inserted.vacant {ledger : Ledger} {lower upper : List (Mark K V)} {key : K} {value : V}
    {tree' : RawBTree K V} {held' : List (Mark K V)}
    (inserted : Inserted layout { ledger with nextId := ledger.nextId + 1 } lower upper
      (⟨key, ledger.nextId⟩, value) tree' held')
    (marksEq : held = lower ++ upper) (below : ∀ mark ∈ lower, Mark.Below key mark)
    (above : ∀ mark ∈ upper, Mark.Above key mark) :
    lookupEntry key (contents held) = none ∧ Holds layout tree' held' ∧
      contents held' = insertEntry key value (contents held) ∧
      (ledger.Tracks (objectIds held) → tree'.ledger.Tracks (objectIds held')) := by
  have between := between_contents below above
  subst marksEq
  refine ⟨?_, inserted.holds, ?_, fun tracks => inserted.tracks tracks.own⟩
  · rw [contents_append]
    exact lookupEntry_vacant between
  · rw [contents_append, insertEntry_vacant value between]
    exact inserted.contents_eq

variable {left right : List (LevelItem K)} {leaf : NodeIdx} {below above : List (KeyObj K × V)}
  {entry : KeyObj K × V}

/-- Writing a new value under an existing key. -/
theorem Hit.replace (rooted : Rooted layout tree root items)
    (hit : Hit tree items left leaf right below entry above) (value : V) :
    ∃ held', Holds layout
        (tree.setEntries ((tree.node leaf).entries.set below.length (entry.1, value)) leaf) held' ∧
      contents held' = insertEntry entry.1.key value (contents (marks tree.node items)) ∧
      objectIds held' = objectIds (marks tree.node items) := by
  have written : (tree.node leaf).entries.set below.length (entry.1, value) =
      below ++ (entry.1, value) :: above := by
    rw [hit.entries, List.set_append_right _ _ le_rfl]
    simp
  have onRow : leaf ∈ Item.nodes items := by rw [hit.split]; simp
  have fits := rooted.row.fits leaf onRow
  have sorted := rooted.row.sorted
  have counted := rooted.row.len
  rw [hit.entries] at fits
  rw [hit.marks_eq] at sorted counted
  have replaced := @Mark.Sorted.replace_entry _ _ _ _ _ entry (entry.1, value) rfl sorted
  obtain ⟨rooted', newMarks⟩ := @Rooted.setEntries _ _ _ _ _ _ _ _ _ _ rooted hit.split
    (below ++ (entry.1, value) :: above) tree.len (by simpa using fits) (by simpa using replaced)
    (by simpa using counted)
  rw [written]
  refine ⟨_, .rooted rooted', ?_, ?_⟩
  · have same := congrArg contents newMarks
    have between := hit.between rooted.readable
    rw [hit.marks_eq, contents_append, contents_node, insertEntry_occupied entry.2 value between]
    refine same.trans ?_
    simp
  · have same := congrArg objectIds newMarks
    refine same.trans ?_
    rw [hit.marks_eq]
    simp

theorem Holds.insert (holds : Holds layout tree held) (key : K) (value : V) :
    ∃ tree' held', tree.insert layout key value = .ok (lookupEntry key (contents held), tree') ∧
      Holds layout tree' held' ∧ contents held' = insertEntry key value (contents held) ∧
      (tree.ledger.Tracks (objectIds held) → tree'.ledger.Tracks (objectIds held')) := by
  cases holds with
  | vacant empty =>
      have inserted := (@insertFirst_inserted _ _ _ layout _ (empty.setLedger
        { tree.ledger with nextId := tree.ledger.nextId + 1 }) ⟨key, tree.ledger.nextId⟩ value).1
      obtain ⟨missing, holds', contentsEq, tracks⟩ :=
        @Inserted.vacant _ _ _ _ [] _ _ _ _ _ _ _ inserted rfl (by simp) (by simp)
      refine ⟨_, _, ?_, holds', contentsEq, tracks⟩
      simp only [RawBTree.insert, RawBTree.own, empty.root]
      rfl
  | @rooted root items rooted =>
      set owning : RawBTree K V :=
        { tree with ledger := { tree.ledger with nextId := tree.ledger.nextId + 1 } } with owningDef
      have rooted' : Rooted layout owning root items := rooted.setLedger _
      obtain ⟨⟨first, rest, firstSplit, firstEq⟩, front, last, lastSplit, lastEq⟩ := rooted'.ends
      have leads : ∀ leaf ∈ Item.nodes items, ∃ found, owning.pathToNode owning.height leaf = .ok found ∧
          PathTo owning.node root owning.height leaf found :=
        fun leaf onRow => pathToNode_leads rooted'.crownAt onRow le_rfl
      -- every path that adds a new entry goes through `insertInLeaf` at a gap
      have finish : ∀ {left right leaf below above path}, Gap owning items key left leaf right below above →
          (∃ found, path = .ok found ∧ PathTo owning.node root owning.height leaf found) →
          ∃ tree' held', owning.insertInLeaf layout leaf below.length ⟨key, tree.ledger.nextId⟩ value path =
              .ok tree' ∧
            lookupEntry key (contents (marks tree.node items)) = none ∧ Holds layout tree' held' ∧
            contents held' = insertEntry key value (contents (marks tree.node items)) ∧
            (tree.ledger.Tracks (objectIds (marks tree.node items)) →
              tree'.ledger.Tracks (objectIds held')) := by
        intro left right leaf below above path gap leads
        obtain ⟨tree', held', returned, inserted⟩ := @insertInLeaf_inserted _ _ _ _ _ _ _ _ _ _ _ _
          ⟨key, tree.ledger.nextId⟩ value path rooted' gap leads
        exact ⟨tree', held', returned, inserted.vacant gap.marks_eq gap.lower gap.upper⟩
      by_cases append : (owning.node last).entries.getLast?.any fun entry => decide (entry.1.key < key)
      · obtain ⟨entry, isLast, larger⟩ := (Option.any_eq_true _ _).mp append
        have gap := rooted'.gap_last lastSplit isLast (of_decide_eq_true larger)
        obtain ⟨tree', held', returned, missing, outcome⟩ :=
          finish gap (leads last (by rw [lastSplit]; simp))
        refine ⟨tree', held', ?_, outcome⟩
        rw [missing]
        simp only [RawBTree.insert, RawBTree.own, ← owningDef, rooted'.crownAt.root_eq, lastEq, deref, bind,
          Except.bind, if_pos append, returned]
        rfl
      by_cases prepend : (owning.node first).entries.head?.any fun entry => decide (key < entry.1.key)
      · obtain ⟨entry, isFirst, smaller⟩ := (Option.any_eq_true _ _).mp prepend
        have gap := rooted'.gap_first firstSplit isFirst (of_decide_eq_true smaller)
        obtain ⟨tree', held', returned, missing, outcome⟩ :=
          finish gap (leads first (by rw [firstSplit]; simp))
        refine ⟨tree', held', ?_, outcome⟩
        rw [missing]
        simp only [List.length_nil] at returned
        simp only [RawBTree.insert, RawBTree.own, ← owningDef, rooted'.crownAt.root_eq, lastEq, firstEq, deref,
          bind, Except.bind, if_neg append, if_pos prepend, returned]
        rfl
      obtain ⟨leaf, path, left, right, landed, landing, leadsPath⟩ := rooted'.readable.descendPath key
      rcases landing.cases rooted'.readable with ⟨below, above, gap⟩ | ⟨below, entry, above, hit, rfl⟩
      · obtain ⟨slot, different⟩ := gap.insertSlot_eq
        obtain ⟨tree', held', returned, missing, outcome⟩ := finish gap ⟨path, rfl, leadsPath⟩
        refine ⟨tree', held', ?_, outcome⟩
        rw [missing]
        simp only [RawBTree.insert, RawBTree.own, ← owningDef, rooted'.crownAt.root_eq, lastEq, firstEq, deref,
          bind, Except.bind, if_neg append, if_neg prepend, RawBTree.searchForInsert, landed, pure, Except.pure,
          slot]
        cases read : (owning.node leaf).entries[below.length]? with
        | none => simp only [returned]
        | some entry => simp only [if_neg (different entry read), returned]
      · obtain ⟨slot, read⟩ := hit.insertSlot_eq rooted'.readable
        obtain ⟨held', holds', contentsEq, sameIds⟩ := hit.replace rooted' value
        have found := lookupEntry_occupied entry.2 (hit.between rooted'.readable)
        have marksEq : marks tree.node items = _ := hit.marks_eq
        refine ⟨_, held', ?_, holds'.setLedger { owning.ledger with
          dropped := tree.ledger.nextId :: owning.ledger.dropped }, contentsEq, fun tracks => ?_⟩
        · rw [marksEq, contents_append, contents_node, found]
          simp only [RawBTree.insert, RawBTree.own, ← owningDef, rooted'.crownAt.root_eq, lastEq, firstEq, deref,
            bind, Except.bind, if_neg append, if_neg prepend, RawBTree.searchForInsert, landed, pure, Except.pure,
            slot, read, if_true]
          rfl
        · rw [sameIds]
          exact tracks.own.drop

/-- `entry(key).or_insert(value)` keeps what is there. -/
theorem Holds.entryOrInsert (holds : Holds layout tree held) (key : K) (value : V) :
    ∃ tree' held', tree.entryOrInsert layout key value =
        .ok ((lookupEntry key (contents held)).getD value, tree') ∧
      Holds layout tree' held' ∧
      contents held' = (if (lookupEntry key (contents held)).isSome then contents held
        else insertEntry key value (contents held)) ∧
      (tree.ledger.Tracks (objectIds held) → tree'.ledger.Tracks (objectIds held')) := by
  cases holds with
  | vacant empty =>
      set owning : RawBTree K V :=
        { tree with ledger := { tree.ledger with nextId := tree.ledger.nextId + 1 } } with owningDef
      have empty' : Vacant owning := empty.setLedger _
      obtain ⟨inserted, leaf, firstEq, entries⟩ :=
        @insertFirst_inserted _ _ _ layout _ empty' ⟨key, tree.ledger.nextId⟩ value
      obtain ⟨missing, holds', contentsEq, tracks⟩ :=
        @Inserted.vacant _ _ _ _ [] _ _ _ _ _ _ _ inserted rfl (by simp) (by simp)
      have located : owning.entrySearch key = .ok .emptyTree := by
        simp only [RawBTree.entrySearch, empty'.root]
      refine ⟨_, _, ?_, holds', contentsEq, tracks⟩
      simp only [RawBTree.entryOrInsert, RawBTree.own, ← owningDef, located, bind, Except.bind, firstEq, deref,
        entries, readSlot]
      rfl
  | @rooted root items rooted =>
      set owning : RawBTree K V :=
        { tree with ledger := { tree.ledger with nextId := tree.ledger.nextId + 1 } } with owningDef
      have rooted' : Rooted layout owning root items := rooted.setLedger _
      have scan : ∀ keys, RawBTree.scanAbove key keys = RawBTree.scanAbove key keys := fun _ => rfl
      obtain ⟨leaf, left, right, landed, landing⟩ := rooted'.readable.descend key scan
      rcases landing.cases rooted'.readable with ⟨below, above, gap⟩ | ⟨below, entry, above, hit, rfl⟩
      · obtain ⟨slot, different⟩ := gap.insertSlot_eq
        obtain ⟨leaf', slot', tree', held', returned, placed, inserted⟩ :=
          @insertAtVacant_inserted _ _ _ _ _ _ _ _ _ _ _ _ ⟨key, tree.ledger.nextId⟩ value rooted' gap
        obtain ⟨missing, holds', contentsEq, tracks⟩ :=
          inserted.vacant gap.marks_eq gap.lower gap.upper
        have located : owning.entrySearch key = .ok (.vacant leaf below.length) := by
          simp only [RawBTree.entrySearch, rooted'.crownAt.root_eq, RawBTree.searchForInsertNoPath, landed, bind,
            Except.bind, pure, Except.pure, slot]
          cases read : (owning.node leaf).entries[below.length]? with
          | none => rfl
          | some entry => simp only [if_neg (different entry read)]
        have missing' : lookupEntry key (contents (marks tree.node items)) = none := missing
        refine ⟨tree', held', ?_, holds', ?_, tracks⟩
        · rw [missing']
          simp only [RawBTree.entryOrInsert, RawBTree.own, ← owningDef, located, bind, Except.bind, returned,
            readSlot, placed]
          rfl
        · rw [missing']
          exact contentsEq
      · obtain ⟨slot, read⟩ := hit.insertSlot_eq rooted'.readable
        have found := lookupEntry_occupied entry.2 (hit.between rooted'.readable)
        have marksEq : marks tree.node items = _ := hit.marks_eq
        have present : lookupEntry entry.1.key (contents (marks tree.node items)) = some entry.2 := by
          rw [marksEq, contents_append, contents_node, found]
        have located : owning.entrySearch entry.1.key = .ok (.occupied leaf below.length) := by
          simp only [RawBTree.entrySearch, rooted'.crownAt.root_eq, RawBTree.searchForInsertNoPath, landed, bind,
            Except.bind, pure, Except.pure, slot, read, if_true]
        refine ⟨_, _, ?_, .rooted (rooted'.setLedger { owning.ledger with
          dropped := tree.ledger.nextId :: owning.ledger.dropped }), ?_, fun tracks => tracks.own.drop⟩
        · rw [present]
          simp only [RawBTree.entryOrInsert, RawBTree.own, ← owningDef, located, bind, Except.bind, readSlot, read]
          rfl
        · rw [present]
          rfl

end Insert

end Optimap.FlatBTree
