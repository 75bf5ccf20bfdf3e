import Optimap.FlatBTree.Grafting
import Optimap.FlatBTree.Ownership

/-!
# What a graft holds

Where the last leaf of the lower tree and the first leaf of the upper one are not empty, the
grafted tree holds the marks of both, with a clone of the upper tree's first key between
them.
-/

set_option autoImplicit false
set_option linter.unusedSectionVars false

namespace Optimap.FlatBTree

open Lib

variable {K V : Type} [LinearOrder K] {layout : NodeLayout} {tree other : RawBTree K V} {root otherRoot : NodeIdx}
  {items otherItems : List (LevelItem K)}

/-- The last leaf holds the last entry. -/
def LastLeafStored (tree : RawBTree K V) : Prop := ∀ last ∈ tree.lastLeaf, (tree.node last).entries ≠ []

/-- The first leaf holds the first entry. -/
def FirstLeafStored (tree : RawBTree K V) : Prop := ∀ first ∈ tree.firstLeaf, (tree.node first).entries ≠ []

/-- Two sorted lists of marks with a separator between them. -/
theorem Mark.Sorted.join {lower upper : List (Mark K V)} {last first : KeyObj K × V} {separator : KeyObj K}
    (sorted : Mark.Sorted (lower ++ [.node last])) (sorted' : Mark.Sorted (.node first :: upper))
    (apart : last.1.key < first.1.key) (same : separator.key = first.1.key) :
    Mark.Sorted ((lower ++ [.node last]) ++ .sep separator :: .node first :: upper) := by
  have low : ∀ mark ∈ lower ++ [.node last], Mark.Below separator.key mark := by
    intro mark member
    rw [same]
    rcases List.mem_append.mp member with inLower | isLast
    · exact Mark.Below.mono (sorted.around.1 mark inLower) apart.le
    · obtain rfl := List.mem_singleton.mp isLast
      exact apart
  have high : ∀ mark ∈ .node first :: upper, separator.key ≤ mark.object.key := by
    intro mark member
    rw [same]
    rcases List.mem_cons.mp member with rfl | inUpper
    · exact le_rfl
    · exact le_of_lt ((List.pairwise_cons.mp sorted').1 mark inUpper)
  refine List.pairwise_append.mpr ⟨sorted, List.pairwise_cons.mpr ⟨high, sorted'⟩, ?_⟩
  intro mark member mark' member'
  rcases List.mem_cons.mp member' with rfl | inUpper
  · exact low mark member
  · exact Mark.Below.mono (low mark member) (high mark' inUpper)

section Ends

/-- A level starts with a node. -/
theorem level_first {heap : Heap K V} {depth : Nat}
    (paired : ∀ upper < depth, ∀ idx ∈ Item.nodes (level heap root upper),
      (heap idx).children.length = (heap idx).keys.length + 1) :
    ∃ first rest, level heap root depth = .node first :: rest := by
  induction depth with
  | zero => exact ⟨root, [], rfl⟩
  | succ depth ih =>
      obtain ⟨idx, rest, split⟩ := ih fun upper lower => paired upper (Nat.lt_succ_of_lt lower)
      have counted := paired depth (Nat.lt_succ_self _) idx (by rw [split]; simp)
      cases childrenEq : (heap idx).children with
      | nil =>
          rw [childrenEq] at counted
          simp at counted
      | cons child children =>
          refine ⟨child, Item.trail (heap idx).keys children ++ rest.flatMap (expand heap), ?_⟩
          rw [level, split, List.flatMap_cons, expand, childrenEq]
          rfl

/-- And ends with one. -/
theorem level_last {depth : Nat}
    (paired : ∀ upper < depth, ∀ idx ∈ Item.nodes (level tree.node root upper),
      (tree.node idx).children.length = (tree.node idx).keys.length + 1) :
    ∃ front last, level tree.node root depth = front ++ [.node last] := by
  obtain ⟨last, _, front, _, split, _⟩ := @rightSpine_lands _ _ tree root root [] [] 0 depth
    (by rw [Nat.zero_add]; exact paired) rfl rfl
  rw [Nat.zero_add] at split
  exact ⟨front, last, split⟩

theorem Rooted.first_mark (rooted : Rooted layout tree root items) (stored : FirstLeafStored tree) :
    ∃ first entry rest upper, items = .node first :: rest ∧ tree.firstLeaf = some first ∧
      (tree.node first).entries.head? = some entry ∧ marks tree.node items = .node entry :: upper := by
  obtain ⟨first, rest, split⟩ := level_first rooted.readable.paired
  rw [rooted.crownAt.level_eq] at split
  have isFirst : tree.firstLeaf = some first := by
    rw [rooted.row.first, split]
    rfl
  cases entriesEq : (tree.node first).entries with
  | nil => exact absurd entriesEq (stored first isFirst)
  | cons entry entries =>
      refine ⟨first, entry, rest, entries.map .node ++ marks tree.node rest, split, isFirst, by rw [entriesEq]; rfl, ?_⟩
      rw [split, marks_node, entriesEq]
      rfl

theorem Rooted.last_mark (rooted : Rooted layout tree root items) (stored : LastLeafStored tree) :
    ∃ last entry lower, tree.lastLeaf = some last ∧ (tree.node last).entries.getLast? = some entry ∧
      marks tree.node items = lower ++ [.node entry] := by
  obtain ⟨front, last, split⟩ := level_last rooted.readable.paired
  rw [rooted.crownAt.level_eq] at split
  have isLast : tree.lastLeaf = some last := by
    rw [rooted.row.last, split]
    simp
  rcases List.eq_nil_or_concat (tree.node last).entries with empty | ⟨entries, entry, entriesEq⟩
  · exact absurd empty (stored last isLast)
  · rw [List.concat_eq_append] at entriesEq
    refine ⟨last, entry, marks tree.node front ++ entries.map .node, isLast, by rw [entriesEq]; simp, ?_⟩
    rw [split, marks_append, marks_node, entriesEq]
    simp

end Ends

section Graft

theorem Rooted.subtree (rooted : Rooted layout tree root items) :
    Subtree layout tree.node tree.height root ∧ Keyed tree.node tree.height root := by
  have crownAt := rooted.crownAt
  rw [← Nat.zero_add tree.height] at crownAt
  exact (crownAt.rises tree.height).2.2 root (by simp [level])

theorem LeafRow.tail_mem (row : LeafRow layout tree items) : ∀ tail ∈ tree.lastLeaf, tail ∈ Item.nodes items := by
  intro tail isTail
  rw [row.last] at isTail
  exact List.mem_of_getLast? isTail

/-- The lower tree with the copy beside it, chained to its leaves but not hung in yet. -/
structure Beside (layout : NodeLayout) (tree other base : RawBTree K V) (root otherRoot : NodeIdx)
    (items : List (LevelItem K)) (copy : NodeIdx) (ends : ChainEnds) : Prop where
  frame : base = { tree with arena := base.arena }
  crownAt : CrownAt layout base root tree.height items (under base.node other.height copy)
  copyOf : CopyOf layout other.node base.node other.height otherRoot copy
  orphan : (base.node copy).parent = none
  linked : Linked (fun idx => (base.node idx).prev) (fun idx => (base.node idx).next) none
    (Item.nodes items ++ leavesUnder base.node other.height copy) none
  ends_eq : ends = ⟨(leavesUnder base.node other.height copy).head?,
    (leavesUnder base.node other.height copy).getLast?.or tree.lastLeaf⟩
  old : ∀ leaf ∈ Item.nodes items, (base.node leaf).isLeaf = true ∧ (base.node leaf).entries = (tree.node leaf).entries
  tail : ∀ last ∈ tree.lastLeaf, (base.node last).next = (leavesUnder base.node other.height copy).head?

theorem Rooted.copied (rooted : Rooted layout tree root items) (rooted' : Rooted layout other otherRoot otherItems) :
    ∃ copy ends base, other.cloneSubtreeInto other.height otherRoot ⟨none, tree.lastLeaf⟩ tree =
        .ok (copy, ends, base) ∧ Beside layout tree other base root otherRoot items copy ends := by
  have leaf : ∀ leaf ∈ leavesUnder other.node other.height otherRoot, (other.node leaf).isLeaf = true := by
    rw [leavesUnder, rooted'.crownAt.level_eq]
    exact rooted'.row.leaf
  have owned := rooted.crownAt.owned
  rw [List.append_nil] at owned
  obtain ⟨copy, ends, base, cloned, row, extended⟩ :=
    cloneSubtreeInto_copies le_rfl rooted'.subtree.1 leaf _ ⟨none, tree.lastLeaf⟩ tree owned
      fun tail isTail => List.mem_append_right _ (rooted.row.tail_mem tail isTail)
  have copyOf : CopyOf layout other.node base.node other.height otherRoot copy := (List.forall₂_cons.mp row.copied).1
  have owned' := row.owned
  have linked := row.linked
  have endsEq := row.ends_eq
  simp only [List.flatMap_cons, List.flatMap_nil, List.append_nil] at owned' linked endsEq
  set leaves := leavesUnder base.node other.height copy with leavesDef
  have upper : ∀ idx ∈ above tree.node root tree.height, base.node idx = tree.node idx := by
    intro idx member
    refine extended.others idx (List.mem_append_left _ member) fun isTail => ?_
    exact (List.nodup_append.mp owned.nodup_idxs).2.2 idx member idx (rooted.row.tail_mem idx isTail) rfl
  have alike := fun idx (member : idx ∈ Item.nodes items) => extended.alike (List.mem_append_right _ member)
  obtain ⟨sameLevel, sameAbove⟩ := level_above_congr upper
  have tailNext : ∀ last ∈ tree.lastLeaf, (base.node last).next = leaves.head? := by
    intro last isLast
    have member := rooted.row.tail_mem last isLast
    have final : (Item.nodes items).getLast? = some last := by rw [← rooted.row.last]; exact isLast
    obtain ⟨before, split⟩ := List.getLast?_eq_some_iff.mp final
    have chain := rooted.row.linked
    rw [split] at chain
    have ending := chain.around.2
    simp only [List.head?_nil, Option.none_or] at ending
    rw [extended.tail last (List.mem_append_right _ member) isLast, ending, Option.or_none]
  refine ⟨copy, ends, base, cloned, extended.frame, ⟨?_, ?_, ?_, ?_⟩, copyOf, row.parents copy List.mem_cons_self, ?_, ?_,
    fun leaf member => ⟨?_, (alike leaf member).2.2.1⟩, tailNext⟩
  · rw [extended.frame]
    exact rooted.crownAt.root_eq
  · refine rooted.crownAt.crown.congr upper fun idx member => ?_
    rw [rooted.crownAt.level_eq] at member
    exact (alike idx member).2.1
  · exact sameLevel.trans rooted.crownAt.level_eq
  · rw [sameAbove]
    exact owned'.perm List.perm_append_comm
  · rw [Linked.append_iff, Option.or_none, Option.or_none, ← rooted.row.last]
    refine ⟨rooted.row.linked.retarget (rooted.crownAt.nodup.sublist ?_) ?_ ?_ ?_, linked⟩
    · exact (List.sublist_append_right _ _).trans (List.sublist_append_left _ _)
    · intro last isLast
      exact tailNext last (rooted.row.last.trans isLast)
    · exact fun idx member => (alike idx member).2.2.2
    · intro idx member notLast
      rw [extended.others idx (List.mem_append_right _ member)]
      exact fun isTail => notLast (rooted.row.last.symm.trans isTail)
  · rw [endsEq, ChainEnds.after]
    rfl
  · rw [(alike leaf member).1.isLeaf]
    exact rooted.row.leaf leaf member

theorem setNext_same {idx : NodeIdx} {next : Option NodeIdx} (same : (tree.node idx).next = next) :
    tree.setNext next idx = tree := by
  refine (RawBTree.SameFrame.modify tree idx _).ext fun other => ?_
  by_cases isIdx : other = idx
  · subst isIdx
    rw [RawBTree.node_modify_self, ← same]
  · exact RawBTree.node_modify_of_ne _ isIdx

/-- The leaves of both, once the copy is hung in. -/
theorem Beside.row {base grafted : RawBTree K V} {copy : NodeIdx} {ends : ChainEnds} {separator : KeyObj K}
    (beside : Beside layout tree other base root otherRoot items copy ends) (rooted : Rooted layout tree root items)
    (rooted' : Rooted layout other otherRoot otherItems)
    (payload : ∀ leaf ∈ Item.nodes (items ++ .sep separator :: level base.node copy other.height),
      (grafted.node leaf).payload = (base.node leaf).payload)
    (firstLeaf : grafted.firstLeaf = tree.firstLeaf) (lastLeaf : grafted.lastLeaf = ends.chainTail)
    (len : grafted.len = tree.len + other.len)
    (sorted : Mark.Sorted (marks tree.node items ++ .sep separator :: marks other.node otherItems)) :
    LeafRow layout grafted (items ++ .sep separator :: level base.node copy other.height) ∧
      marks grafted.node (items ++ .sep separator :: level base.node copy other.height) =
        marks tree.node items ++ .sep separator :: marks other.node otherItems := by
  have filledEq := beside.copyOf.replica.filled
  rw [rooted'.crownAt.level_eq] at filledEq
  have nodes : Item.nodes (items ++ .sep separator :: level base.node copy other.height) =
      Item.nodes items ++ leavesUnder base.node other.height copy := by
    rw [Item.nodes_append, Item.nodes_sep]
    rfl
  have entries : ∀ leaf ∈ Item.nodes items ++ leavesUnder base.node other.height copy,
      (grafted.node leaf).entries = (base.node leaf).entries :=
    fun leaf member => Node.entries_of_payload (payload leaf (nodes ▸ member))
  have sameMarks : marks grafted.node (items ++ .sep separator :: level base.node copy other.height) =
      marks tree.node items ++ .sep separator :: marks other.node otherItems := by
    rw [marks_append, marks_sep]
    congr 1
    · refine marks_congr fun leaf member => ?_
      rw [entries leaf (List.mem_append_left _ member), (beside.old leaf member).2]
    · refine congrArg _ ?_
      rw [marks_congr fun leaf member => entries leaf (List.mem_append_right _ member), marks_filled, filledEq,
        ← marks_filled]
  refine ⟨⟨?_, ?_, ?_, ?_, ?_, ?_, ?_⟩, sameMarks⟩
  · intro leaf member
    rw [Node.isLeaf_of_payload (payload leaf member)]
    rw [nodes] at member
    rcases List.mem_append.mp member with isOld | isCopy
    · exact (beside.old leaf isOld).1
    · exact beside.copyOf.replica.leaf beside.copyOf.sub leaf isCopy
  · intro leaf member
    rw [nodes] at member
    rw [entries leaf member]
    rcases List.mem_append.mp member with isOld | isCopy
    · rw [(beside.old leaf isOld).2]
      exact rooted.row.fits leaf isOld
    · have listed : (base.node leaf).entries ∈ (Item.nodes otherItems).map fun idx => (other.node idx).entries := by
        rw [← entries_of_filled filledEq]
        exact List.mem_map_of_mem isCopy
      obtain ⟨source, isSource, same⟩ := List.mem_map.mp listed
      rw [← same]
      exact rooted'.row.fits source isSource
  · rw [nodes]
    exact beside.linked.congr (fun leaf member => Node.prev_of_payload (payload leaf (nodes ▸ member)))
      fun leaf member => Node.next_of_payload (payload leaf (nodes ▸ member))
  · obtain ⟨first, rest, split⟩ := level_first rooted.readable.paired
    rw [rooted.crownAt.level_eq] at split
    rw [firstLeaf, rooted.row.first, nodes, split]
    rfl
  · rw [lastLeaf, beside.ends_eq, nodes, List.getLast?_append, rooted.row.last]
  · rw [sameMarks]
    exact sorted
  · rw [sameMarks, len, rooted.row.len, rooted'.row.len]
    simp

/-- The graft of a tree that lies above another one and is not higher. -/
theorem Rooted.appendGraftDisjoint (rooted : Rooted layout tree root items)
    (rooted' : Rooted layout other otherRoot otherItems) (enough : other.height ≤ tree.height)
    (stored : LastLeafStored tree) (stored' : FirstLeafStored other)
    (apart : ∀ pair ∈ contents (marks tree.node items), ∀ pair' ∈ contents (marks other.node otherItems),
      pair.1 < pair'.1) :
    ∃ grafted left separator, tree.appendGraftDisjoint layout other = .ok (some (grafted, left)) ∧
      Holds layout grafted (marks tree.node items ++ .sep separator :: marks other.node otherItems) ∧ Vacant left ∧
      separator.id = tree.ledger.nextId ∧ grafted.ledger = ⟨tree.ledger.nextId + 1, tree.ledger.dropped⟩ ∧
      left.ledger = other.ledger := by
  obtain ⟨copy, ends, base, cloned, beside⟩ := rooted.copied rooted'
  obtain ⟨first, firstEntry, otherRest, upper, otherSplit, isFirst, firstHead, otherMarks⟩ := rooted'.first_mark stored'
  obtain ⟨last, lastEntry, lower, isLast, lastFinal, treeMarks⟩ := rooted.last_mark stored
  have filledEq := beside.copyOf.replica.filled
  rw [rooted'.crownAt.level_eq] at filledEq
  set leaves := leavesUnder base.node other.height copy with leavesDef
  have sameEntries := entries_of_filled filledEq
  obtain ⟨copyFirst, copyRest, leavesEq, copyEntries⟩ : ∃ copyFirst copyRest, leaves = copyFirst :: copyRest ∧
      (base.node copyFirst).entries = (other.node first).entries := by
    rw [otherSplit, Item.nodes_node, List.map_cons] at sameEntries
    cases leavesEq : leaves with
    | nil =>
        rw [leavesDef, leavesUnder] at leavesEq
        rw [leavesEq] at sameEntries
        cases sameEntries
    | cons copyFirst copyRest =>
        rw [leavesDef, leavesUnder] at leavesEq
        rw [leavesEq, List.map_cons, List.cons.injEq] at sameEntries
        exact ⟨copyFirst, copyRest, rfl, sameEntries.1⟩
  have firstLeafEq : ends.firstLeaf = some copyFirst := by rw [beside.ends_eq, ← leavesDef, leavesEq]; rfl
  have tailNext : (base.node last).next = ends.firstLeaf := by rw [beside.tail last isLast, beside.ends_eq]
  have slot : RawBTree.readFirstSlot (base.node copyFirst) = .ok firstEntry.1 := by
    rw [RawBTree.readFirstSlot, copyEntries, firstHead]
    rfl
  have ledgerEq : base.ledger = tree.ledger := by rw [beside.frame]
  have heightEq : base.height = tree.height := by rw [beside.frame]
  set separator : KeyObj K := ⟨firstEntry.1.key, base.ledger.nextId⟩ with separatorDef
  set owning : RawBTree K V := { base with ledger := { base.ledger with nextId := base.ledger.nextId + 1 } } with owningDef
  have crownAt : CrownAt layout owning root owning.height items (under owning.node other.height copy) := by
    have crownAt := beside.crownAt
    rw [← heightEq] at crownAt
    exact ⟨crownAt.root_eq, crownAt.crown, crownAt.level_eq, crownAt.owned⟩
  obtain ⟨combined, root', joined, shape⟩ := graftCombineRoots_combined separator crownAt beside.copyOf.sub
    (beside.copyOf.replica.keyed rooted'.subtree.2) beside.orphan (heightEq ▸ enough)
  set grafted : RawBTree K V := { combined with lastLeaf := ends.chainTail, len := combined.len + other.len }
    with graftedDef
  have sorted := rooted.row.sorted
  have sorted' := rooted'.row.sorted
  have below : lastEntry.1.key < firstEntry.1.key := by
    refine apart (lastEntry.1.key, lastEntry.2) ?_ (firstEntry.1.key, firstEntry.2) ?_
    · rw [treeMarks]
      simp [contents]
    · rw [otherMarks]
      simp
  have joinedSorted : Mark.Sorted (marks tree.node items ++ .sep separator :: marks other.node otherItems) := by
    rw [treeMarks] at sorted ⊢
    rw [otherMarks] at sorted' ⊢
    exact sorted.join sorted' below rfl
  have combinedLen : combined.len = tree.len := by rw [shape.len, owningDef, beside.frame]
  have combinedFirst : combined.firstLeaf = tree.firstLeaf := by rw [shape.firstLeaf, owningDef, beside.frame]
  obtain ⟨row, marksEq⟩ := @Beside.row _ _ _ layout tree other root otherRoot items otherItems base grafted copy ends
    separator beside rooted rooted' shape.payload combinedFirst rfl (by rw [graftedDef, ← combinedLen]) joinedSorted
  have result : Rooted layout grafted root' (items ++ .sep separator :: level base.node copy other.height) := by
    refine ⟨⟨shape.crownAt.root_eq, shape.crownAt.crown, shape.crownAt.level_eq, shape.crownAt.owned⟩, row⟩
  refine ⟨grafted, { (RawBTree.new : RawBTree K V) with ledger := other.ledger }, separator, ?_, ?_,
    new_vacant.setLedger _, ?_, ?_, rfl⟩
  · rw [RawBTree.appendGraftDisjoint, if_neg (Nat.not_lt.mpr enough), rooted'.crownAt.root_eq, isLast]
    rw [isLast] at cloned
    simp only [deref, bind, Except.bind, cloned, firstLeafEq, RawBTree.own]
    rw [firstLeafEq] at tailNext
    simp only [setNext_same tailNext, slot]
    have joined' : owning.graftCombineRoots layout copy separator other.height = .ok combined := joined
    rw [joined']
    rfl
  · rw [← marksEq]
    exact .rooted result
  · rw [separatorDef, ledgerEq]
  · have final : grafted.ledger = owning.ledger := shape.ledger
    rw [final, owningDef, ledgerEq]

end Graft

end Optimap.FlatBTree
