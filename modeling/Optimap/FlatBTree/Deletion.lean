import Optimap.FlatBTree.Insertion
import Optimap.FlatBTree.LeafRebalance

/-!
# Deletion

An entry leaves its slot, and its leaf is rebalanced when it has become thin. The
ends of the tree are found along the leaf chain, past empty leaves.
-/

set_option autoImplicit false
set_option linter.unusedSectionVars false

namespace Optimap.FlatBTree

open Lib

variable {K V : Type} [LinearOrder K] {layout : NodeLayout} {tree : RawBTree K V} {root leaf : NodeIdx}
  {items left right : List (LevelItem K)} {below above : List (KeyObj K × V)} {entry : KeyObj K × V}
  {held : List (Mark K V)}

/-- Removing an entry of `leaf` ends in a merge of internal nodes. -/
def RawBTree.removalClimbs (layout : NodeLayout) (tree : RawBTree K V) (leaf : NodeIdx) : Prop :=
  (tree.node leaf).entries.length - 1 < layout.leafCap / 2 ∧ 0 < tree.height ∧
    tree.leafMergeClimbs layout leaf

instance (tree : RawBTree K V) (leaf : NodeIdx) : Decidable (tree.removalClimbs layout leaf) :=
  inferInstanceAs (Decidable (_ ∧ _ ∧ _))

/-- Emptying a slot of the leaf changes nothing about who has to merge. -/
theorem leafMergeClimbs_of_setEntries {entries : List (KeyObj K × V)} {len : Nat}
    (rooted : Rooted layout tree root items) (split : items = left ++ .node leaf :: right)
    (tall : 0 < tree.height)
    (climbs : RawBTree.leafMergeClimbs layout { tree.setEntries entries leaf with len := len } leaf) :
    tree.leafMergeClimbs layout leaf := by
  obtain ⟨depth, tallEq⟩ : ∃ depth, tree.height = depth + 1 := ⟨tree.height - 1, by omega⟩
  obtain ⟨crowded, parent, isParent, notRoot, few, merges⟩ := climbs
  have onRow : leaf ∈ Item.nodes items := by rw [split]; simp
  set written : RawBTree K V := tree.setEntries entries leaf with writtenDef
  have aboveSame : ∀ idx ∈ FlatBTree.above tree.node root (depth + 1), written.node idx = tree.node idx := by
    intro idx member
    rw [← tallEq] at member
    exact RawBTree.node_modify_of_ne _ fun same => rooted.notMem_above onRow (same ▸ member)
  have parentsSame : ∀ idx, (written.node idx).parent = (tree.node idx).parent := by
    intro idx
    rw [writtenDef, RawBTree.setEntries, RawBTree.node_modify]
    split
    · next same => rw [same]; rfl
    · rfl
  have crownAt := rooted.crownAt
  rw [tallEq] at crownAt
  have crown := crownAt.crown.congr aboveSame fun idx _ => parentsSame idx
  have sameLevel := (level_above_congr aboveSame).1
  have levelEq : level written.node root (depth + 1) = left ++ .node leaf :: right :=
    (sameLevel.trans crownAt.level_eq).trans split
  have unique : (Item.nodes (level written.node root (depth + 1))).Nodup := by
    rw [sameLevel]
    exact crownAt.nodes_nodup
  obtain ⟨place⟩ := crown.locate levelEq
  have parentOld : (tree.node leaf).parent = some parent := (parentsSame leaf).symm.trans isParent
  have parentIs : place.parent = parent := by
    have found := place.parent_eq crown
    rw [parentsSame, parentOld] at found
    exact (Option.some.inj found).symm
  have parentLevel : parent ∈ Item.nodes (level tree.node root depth) := by
    have member := place.parent_mem
    rw [parentIs, (level_above_congr fun idx inside =>
      aboveSame idx (List.mem_append_left _ inside)).1] at member
    exact member
  have parentAbove : parent ∈ FlatBTree.above tree.node root (depth + 1) :=
    List.mem_append_right _ parentLevel
  refine ⟨?_, parent, parentOld, notRoot, ?_, ?_⟩
  · rw [← crowded]
    refine crowded_congr crown unique place ?_ fun node => rfl
    rw [parentIs]
    rintro rfl
    rw [← tallEq] at parentAbove
    exact rooted.notMem_above onRow parentAbove
  · rw [← aboveSame parent parentAbove]
    exact few
  · rw [← merges]
    refine (crowded_of_same (aboveSame parent parentAbove) fun grand isGrand => ?_).symm
    exact grandparent_same crownAt.crown parentLevel aboveSame isGrand

/-- After an entry has left the tree. -/
structure Removed (layout : NodeLayout) (tree : RawBTree K V) (leaf : NodeIdx) (old : List (Mark K V))
    (lower : List (Mark K V)) (entry : KeyObj K × V) (upper : List (Mark K V)) (tree' : RawBTree K V)
    (held : List (Mark K V)) : Prop where
  holds : Holds layout tree' held
  contents_eq : contents held = contents lower ++ contents upper
  old_eq : old = lower ++ .node entry :: upper
  tracks : ¬ tree.removalClimbs layout leaf → tree.ledger.Tracks (objectIds old) →
    tree'.ledger.Tracks (entry.1.id :: objectIds held)

theorem leafRemoveAt_removed (rooted : Rooted layout tree root items)
    (hit : Hit tree items left leaf right below entry above) :
    ∃ tree' held, tree.leafRemoveAt layout leaf below.length = .ok (entry, tree') ∧
      Removed layout tree leaf (marks tree.node items) (marks tree.node left ++ below.map .node) entry
        (above.map .node ++ marks tree.node right) tree' held := by
  have onRow : leaf ∈ Item.nodes items := by rw [hit.split]; simp
  have fits := rooted.row.fits leaf onRow
  have sorted := rooted.row.sorted
  have counted := rooted.row.len
  have erased : (tree.node leaf).entries.eraseIdx below.length = below ++ above := by
    rw [hit.entries, List.eraseIdx_append_of_length_le le_rfl]
    simp
  rw [hit.entries] at fits
  rw [hit.marks_eq] at sorted counted
  have removed := sorted.remove
  have remaining : tree.len - 1 = (Item.nodes (marks tree.node left ++
      (((below ++ above).map .node : List (Mark K V)) ++ marks tree.node right))).length := by
    simp only [Item.nodes_append, Item.nodes_node, nodes_map_node, List.length_append,
      List.length_cons] at counted ⊢
    omega
  obtain ⟨rooted', newMarks⟩ := rooted.setEntries hit.split
    (by simp only [List.length_append, List.length_cons] at fits ⊢; omega) (by simpa using removed) remaining
  set emptied : RawBTree K V := { tree.setEntries (below ++ above) leaf with len := tree.len - 1 }
    with emptiedDef
  have marksEq : marks emptied.node items =
      (marks tree.node left ++ below.map .node) ++ (above.map .node ++ marks tree.node right) := by
    refine newMarks.trans ?_
    simp
  have emptiedLen : (emptied.node leaf).entries.length = (tree.node leaf).entries.length - 1 := by
    have node : emptied.node leaf = (tree.node leaf).setEntries (below ++ above) :=
      RawBTree.node_modify_self fun node => node.setEntries (below ++ above)
    rw [node, hit.entries]
    simp only [Node.setEntries, List.length_append, List.length_cons]
    omega
  have found : readSlot (tree.node leaf).entries below.length = .ok entry := by
    rw [readSlot, hit.entries]
    simp
  have idsMoved : (objectIds (marks tree.node items)).Perm
      (entry.1.id :: objectIds (marks emptied.node items)) := by
    rw [hit.marks_eq, marksEq, List.perm_iff_count]
    intro id
    simp only [objectIds_append, objectIds_cons, Mark.object_node, List.count_append, List.count_cons]
    omega
  have opened : tree.leafRemoveAt layout leaf below.length =
      ((if (emptied.node leaf).entries.length < layout.leafCap / 2 ∧ 0 < emptied.height then
        emptied.rebalanceLeaf layout leaf else pure emptied) >>= fun tree' => pure (entry, tree')) := by
    simp only [RawBTree.leafRemoveAt, found, bind, Except.bind, erased]
    rfl
  by_cases thin : (emptied.node leaf).entries.length < layout.leafCap / 2 ∧ 0 < emptied.height
  · have split' : Rooted layout emptied root (left ++ .node leaf :: right) := hit.split ▸ rooted'
    obtain ⟨tree', held, rebalanced, regrouped⟩ := rebalanceLeaf_regrouped split' thin.2 thin.1
    rw [← hit.split] at regrouped
    refine ⟨tree', held, ?_, regrouped.holds, ?_, hit.marks_eq, fun safe tracks => ?_⟩
    · rw [opened, if_pos thin, rebalanced]
      rfl
    · rw [regrouped.contents_eq, marksEq, contents_append]
    · refine regrouped.tracks [entry.1.id] (fun climbs => safe ⟨?_, thin.2, ?_⟩) (tracks.perm idsMoved.symm)
      · rw [← emptiedLen]
        exact thin.1
      · exact leafMergeClimbs_of_setEntries rooted hit.split thin.2 climbs
  · refine ⟨emptied, _, ?_, .rooted rooted', ?_, hit.marks_eq, fun _ tracks => tracks.perm idsMoved.symm⟩
    · rw [opened, if_neg thin]
      rfl
    · rw [marksEq, contents_append]

section Lookup

/-- The leaf that holds `key`. -/
def RawBTree.leafOf (tree : RawBTree K V) (key : K) : Option NodeIdx :=
  match tree.search key with
  | .ok found => found.map Prod.fst
  | .error _ => none

/-- What both removals by key do up to the fate of the removed key. -/
theorem Holds.remove_cases (holds : Holds layout tree held) (key : K) :
    (tree.search key = .ok none ∧ lookupEntry key (contents held) = none ∧
      eraseEntry key (contents held) = contents held) ∨
    ∃ leaf slot entry tree' held', tree.search key = .ok (some (leaf, slot)) ∧
      tree.leafRemoveAt layout leaf slot = .ok (entry, tree') ∧ entry.1.key = key ∧
      lookupEntry key (contents held) = some entry.2 ∧ Holds layout tree' held' ∧
      contents held' = eraseEntry key (contents held) ∧
      (¬ (∃ leaf ∈ tree.leafOf key, tree.removalClimbs layout leaf) → tree.ledger.Tracks (objectIds held) →
        tree'.ledger.Tracks (entry.1.id :: objectIds held')) := by
  cases holds with
  | vacant empty =>
      refine .inl ⟨?_, rfl, rfl⟩
      simp only [RawBTree.search, empty.root]
  | @rooted root items rooted =>
      rcases rooted.readable.search_cases key with ⟨left, leaf, right, below, above, gap, found⟩ |
        ⟨left, leaf, right, below, entry, above, hit, rfl, found⟩
      · refine .inl ⟨found, gap.lookup_eq, ?_⟩
        rw [gap.marks_eq, contents_append]
        exact eraseEntry_vacant (between_contents gap.lower gap.upper)
      · obtain ⟨tree', held', returned, removed⟩ := leafRemoveAt_removed rooted hit
        have between := hit.between rooted.readable
        refine .inr ⟨leaf, below.length, entry, tree', held', found, returned, rfl, ?_, removed.holds, ?_,
          fun safe tracks => removed.tracks (fun climbs => safe ⟨leaf, by rw [RawBTree.leafOf, found]; rfl, climbs⟩) tracks⟩
        · rw [hit.marks_eq, contents_append, contents_node, lookupEntry_occupied entry.2 between]
        · rw [removed.contents_eq, hit.marks_eq]
          simp only [contents_append (_ ++ _), contents_node]
          rw [eraseEntry_occupied entry.2 between]

theorem Holds.removeEntry (holds : Holds layout tree held) (key : K) :
    ∃ tree' held', tree.removeEntry layout key =
        .ok ((lookupEntry key (contents held)).map fun value => (key, value), tree') ∧
      Holds layout tree' held' ∧ contents held' = eraseEntry key (contents held) ∧
      (¬ (∃ leaf ∈ tree.leafOf key, tree.removalClimbs layout leaf) → tree.ledger.Tracks (objectIds held) →
        tree'.ledger.Tracks (objectIds held')) := by
  rcases holds.remove_cases key with ⟨found, missing, same⟩ |
    ⟨leaf, slot, entry, tree', held', found, returned, rfl, present, holds', contentsEq, tracks⟩
  · refine ⟨tree, held, ?_, holds, same.symm, fun _ tracks => tracks⟩
    simp only [RawBTree.removeEntry, found, bind, Except.bind, missing]
    rfl
  · refine ⟨tree', held', ?_, holds', contentsEq, fun safe given => (tracks safe given).release⟩
    simp only [RawBTree.removeEntry, found, bind, Except.bind, returned, present]
    rfl

theorem Holds.remove (holds : Holds layout tree held) (key : K) :
    ∃ tree' held', tree.remove layout key = .ok (lookupEntry key (contents held), tree') ∧
      Holds layout tree' held' ∧ contents held' = eraseEntry key (contents held) ∧
      (¬ (∃ leaf ∈ tree.leafOf key, tree.removalClimbs layout leaf) → tree.ledger.Tracks (objectIds held) →
        tree'.ledger.Tracks (objectIds held')) := by
  rcases holds.remove_cases key with ⟨found, missing, same⟩ |
    ⟨leaf, slot, entry, tree', held', found, returned, rfl, present, holds', contentsEq, tracks⟩
  · refine ⟨tree, held, ?_, holds, same.symm, fun _ tracks => tracks⟩
    simp only [RawBTree.remove, found, bind, Except.bind, missing]
    rfl
  · refine ⟨tree'.drop entry.1, held', ?_, holds'.setLedger _, contentsEq,
      fun safe given => (tracks safe given).drop⟩
    simp only [RawBTree.remove, found, bind, Except.bind, returned, present]
    rfl

end Lookup

section Pops

theorem nonemptyLeaf_threads {link : Node K V → Option NodeIdx} {cells : List NodeIdx}
    (threads : Threads (fun idx => link (tree.node idx)) cells) {fuel : Nat} (enough : cells.length ≤ fuel) :
    tree.nonemptyLeaf link fuel cells.head? =
      .ok (cells.find? fun idx => decide (0 < (tree.node idx).entries.length)) := by
  induction cells generalizing fuel with
  | nil => cases fuel <;> rfl
  | cons cell cells ih =>
      obtain ⟨fuel, rfl⟩ : ∃ less, fuel = less + 1 := ⟨fuel - 1, by simp only [List.length_cons] at enough; omega⟩
      obtain ⟨forward, rest⟩ := threads
      simp only at forward
      rw [List.head?_cons, RawBTree.nonemptyLeaf, forward, ih rest (by simpa using enough), List.find?_cons]
      by_cases full : 0 < (tree.node cell).entries.length
      · simp [full]
      · simp [full]

theorem Rooted.length_le (rooted : Rooted layout tree root items) :
    (Item.nodes items).length ≤ tree.arena.len := by
  have bound := rooted.crownAt.owned.length_le
  simp only [List.length_append] at bound
  omega

theorem contents_marks_nil {items : List (LevelItem K)}
    (empty : ∀ idx ∈ Item.nodes items, (tree.node idx).entries = []) :
    contents (marks tree.node items) = [] := by
  rw [contents, nodes_marks, List.map_eq_nil_iff, List.flatMap_eq_nil_iff]
  exact empty

theorem find?_split {cells : List NodeIdx}
    (found : cells.find? (fun idx => decide (0 < (tree.node idx).entries.length)) = some leaf) :
    ∃ before after, cells = before ++ leaf :: after ∧ (tree.node leaf).entries ≠ [] ∧
      ∀ idx ∈ before, (tree.node idx).entries = [] := by
  obtain ⟨full, before, after, split, rest⟩ := List.find?_eq_some_iff_append.mp found
  refine ⟨before, after, split, ?_, fun idx member => ?_⟩
  · simpa [List.length_pos_iff] using full
  · simpa using rest idx member

/-- An end of the tree found along the chain. -/
theorem Rooted.first_hit (rooted : Rooted layout tree root items)
    (nonempty : contents (marks tree.node items) ≠ []) :
    ∃ leaf left right entry above, tree.firstNonemptyLeaf = .ok (some leaf) ∧
      Hit tree items left leaf right [] entry above ∧ contents (marks tree.node left) = [] := by
  have located := nonemptyLeaf_threads rooted.row.linked.threads_next rooted.length_le
  rw [← rooted.row.first] at located
  cases found : (Item.nodes items).find? fun idx => decide (0 < (tree.node idx).entries.length) with
  | none =>
      refine absurd (contents_marks_nil fun idx member => ?_) nonempty
      simpa using List.find?_eq_none.mp found idx member
  | some leaf =>
      obtain ⟨before, after, split, full, empty⟩ := find?_split found
      obtain ⟨left, right, itemsEq, rfl, rfl⟩ := Item.nodes_split split
      cases entries : (tree.node leaf).entries with
      | nil => exact absurd entries full
      | cons entry above =>
          refine ⟨leaf, left, right, entry, above, ?_, ⟨itemsEq, entries⟩, contents_marks_nil empty⟩
          rw [RawBTree.firstNonemptyLeaf, located, found]

theorem Rooted.last_hit (rooted : Rooted layout tree root items)
    (nonempty : contents (marks tree.node items) ≠ []) :
    ∃ leaf left right below entry, tree.lastNonemptyLeaf = .ok (some leaf) ∧
      Hit tree items left leaf right below entry [] ∧ contents (marks tree.node right) = [] := by
  have enough : (Item.nodes items).reverse.length ≤ tree.arena.len := by
    rw [List.length_reverse]
    exact rooted.length_le
  have located := nonemptyLeaf_threads rooted.row.linked.threads_prev enough
  rw [List.head?_reverse, ← rooted.row.last] at located
  cases found : (Item.nodes items).reverse.find? fun idx => decide (0 < (tree.node idx).entries.length) with
  | none =>
      refine absurd (contents_marks_nil fun idx member => ?_) nonempty
      simpa using List.find?_eq_none.mp found idx (List.mem_reverse.mpr member)
  | some leaf =>
      obtain ⟨before, after, reversed, full, empty⟩ := find?_split found
      have split : Item.nodes items = after.reverse ++ leaf :: before.reverse := by
        rw [← List.reverse_reverse (Item.nodes items), reversed]
        simp
      obtain ⟨left, right, itemsEq, _, rightNodes⟩ := Item.nodes_split split
      rcases List.eq_nil_or_concat (tree.node leaf).entries with none | ⟨below, entry, entries⟩
      · exact absurd none full
      · rw [List.concat_eq_append] at entries
        refine ⟨leaf, left, right, below, entry, ?_, ⟨itemsEq, entries⟩, contents_marks_nil ?_⟩
        · rw [RawBTree.lastNonemptyLeaf, located, found]
        · rw [rightNodes]
          exact fun idx member => empty idx (List.mem_reverse.mp member)

/-- The leaves that hold the first and the last entry. -/
def RawBTree.firstStored (tree : RawBTree K V) : Option NodeIdx :=
  match tree.firstNonemptyLeaf with
  | .ok found => found
  | .error _ => none

@[inherit_doc RawBTree.firstStored]
def RawBTree.lastStored (tree : RawBTree K V) : Option NodeIdx :=
  match tree.lastNonemptyLeaf with
  | .ok found => found
  | .error _ => none

theorem Holds.popFirst (holds : Holds layout tree held) :
    ∃ tree' held', tree.popFirst layout = .ok ((contents held).head?, tree') ∧ Holds layout tree' held' ∧
      contents held' = (contents held).tail ∧
      (¬ (∃ leaf ∈ tree.firstStored, tree.removalClimbs layout leaf) → tree.ledger.Tracks (objectIds held) →
        tree'.ledger.Tracks (objectIds held')) := by
  have len := holds.len_eq
  by_cases empty : contents held = []
  · rw [empty, List.length_nil] at len
    refine ⟨tree, held, ?_, holds, by rw [empty]; rfl, fun _ tracks => tracks⟩
    rw [RawBTree.popFirst, if_pos len, empty]
    rfl
  · have stored : ¬ tree.len = 0 := fun zero => empty (List.length_eq_zero_iff.mp (len.symm.trans zero))
    cases holds with
    | vacant => exact absurd rfl empty
    | @rooted root items rooted =>
        obtain ⟨leaf, left, right, entry, above, located, hit, front⟩ := rooted.first_hit empty
        obtain ⟨tree', held', returned, removed⟩ := leafRemoveAt_removed rooted hit
        have split : contents (marks tree.node items) =
            (entry.1.key, entry.2) :: contents (above.map .node ++ marks tree.node right) := by
          rw [hit.marks_eq, contents_append, contents_append, front]
          rfl
        refine ⟨tree', held', ?_, removed.holds, ?_, fun safe tracks =>
          (removed.tracks (fun climbs => safe ⟨leaf, by rw [RawBTree.firstStored, located]; rfl, climbs⟩)
            tracks).release⟩
        · simp only [List.length_nil] at returned
          simp only [RawBTree.popFirst, if_neg stored, located, bind, Except.bind, returned, split]
          rfl
        · rw [removed.contents_eq, split, contents_append (marks tree.node left), front]
          rfl

theorem Holds.popLast (holds : Holds layout tree held) :
    ∃ tree' held', tree.popLast layout = .ok ((contents held).getLast?, tree') ∧ Holds layout tree' held' ∧
      contents held' = (contents held).dropLast ∧
      (¬ (∃ leaf ∈ tree.lastStored, tree.removalClimbs layout leaf) → tree.ledger.Tracks (objectIds held) →
        tree'.ledger.Tracks (objectIds held')) := by
  have len := holds.len_eq
  by_cases empty : contents held = []
  · rw [empty, List.length_nil] at len
    refine ⟨tree, held, ?_, holds, by rw [empty]; rfl, fun _ tracks => tracks⟩
    rw [RawBTree.popLast, if_pos len, empty]
    rfl
  · have stored : ¬ tree.len = 0 := fun zero => empty (List.length_eq_zero_iff.mp (len.symm.trans zero))
    cases holds with
    | vacant => exact absurd rfl empty
    | @rooted root items rooted =>
        obtain ⟨leaf, left, right, below, entry, located, hit, back⟩ := rooted.last_hit empty
        obtain ⟨tree', held', returned, removed⟩ := leafRemoveAt_removed rooted hit
        have split : contents (marks tree.node items) =
            contents (marks tree.node left ++ below.map .node) ++ [(entry.1.key, entry.2)] := by
          rw [hit.marks_eq, contents_append, contents_node, List.map_nil, List.nil_append, back]
        have slot : (tree.node leaf).entries.length - 1 = below.length := by
          rw [hit.entries]
          simp
        refine ⟨tree', held', ?_, removed.holds, ?_, fun safe tracks =>
          (removed.tracks (fun climbs => safe ⟨leaf, by rw [RawBTree.lastStored, located]; rfl, climbs⟩)
            tracks).release⟩
        · simp only [RawBTree.popLast, if_neg stored, located, bind, Except.bind, slot, returned, split]
          simp only [List.getLast?_concat]
          rfl
        · rw [removed.contents_eq, split, List.map_nil, List.nil_append, back]
          simp

end Pops

end Optimap.FlatBTree
