import Optimap.FlatBTree.BulkLeaves
import Optimap.FlatBTree.Iteration
import Optimap.FlatBTree.Ownership

/-!
# The bulk-loaded tree

Loading ascending pairs gives a tree with exactly these entries, in order. All of
its nodes are in place; what can be missing is a separator key in the last node
of a level, and exactly then the tree is not fit for removals.
-/

set_option autoImplicit false
set_option linter.unusedSectionVars false

namespace Optimap.FlatBTree

open Lib

variable {K V : Type} [LinearOrder K] {layout : NodeLayout} {tree : RawBTree K V}

/-- The number of nodes `bulk_load` makes for a level, counted from the leaves. -/
def levelSize (layout : NodeLayout) (n row : Nat) : Nat :=
  (parentCount layout)^[row] (RawBTree.numLeaves layout n)

/-- A tree packed from ascending pairs. -/
structure Packed (layout : NodeLayout) (tree : RawBTree K V) (root : NodeIdx) (items : List (LevelItem K))
    (pairs : List (K × V)) : Prop where
  readable : Readable tree root items
  row : LeafRow layout tree items
  orphan : (tree.node root).parent = none
  loose : ∀ depth < tree.height, ∀ idx ∈ Item.nodes (level tree.node root depth), LooseOk layout tree.node idx
  owned : Owned tree.arena (above tree.node root tree.height ++ Item.nodes items)
  contents_eq : contents (marks tree.node items) = pairs
  rooted : 0 < tree.height → (tree.node root).keys ≠ []
  bare : (∃ depth < tree.height, ∃ idx ∈ Item.nodes (level tree.node root depth), (tree.node idx).keys = []) ↔
    ∃ row, 1 < levelSize layout pairs.length row ∧
      levelSize layout pairs.length row % (layout.internalCap + 1) = 1

section Assembly

/-- A row of leaves is a tower. -/
theorem leaves_tower {children : List (NodeIdx × K)} (free : tree.arena.free = [])
    (unique : (children.map Prod.fst).Nodup) (bounded : ∀ idx ∈ children.map Prod.fst, idx < tree.arena.len)
    (orphans : ∀ idx ∈ children.map Prod.fst, (tree.node idx).parent = none) :
    Tower layout tree [children] := by
  refine ⟨.singleton _, ?_, ⟨?_, ?_⟩, free⟩
  · rintro row ⟨⟩
    exact orphans
  · rw [List.flatten_singleton, free, List.append_nil]
    exact unique
  · rw [List.flatten_singleton, free, List.append_nil]
    exact bounded

theorem mem_above {heap : Heap K V} {root idx : NodeIdx} {depth : Nat} :
    idx ∈ above heap root depth ↔ ∃ upper < depth, idx ∈ Item.nodes (level heap root upper) := by
  induction depth with
  | zero => simp [above]
  | succ depth ih =>
      rw [above, List.mem_append, ih]
      constructor
      · rintro (⟨upper, lower, member⟩ | member)
        · exact ⟨upper, Nat.lt_succ_of_lt lower, member⟩
        · exact ⟨depth, Nat.lt_succ_self _, member⟩
      · rintro ⟨upper, lower, member⟩
        rcases Nat.lt_succ_iff_lt_or_eq.mp lower with smaller | rfl
        · exact .inl ⟨upper, smaller, member⟩
        · exact .inr member

theorem filled_leaves {leaves : List NodeIdx} {chunks : List (List (K × V))}
    (filled : List.Forall₂ (Filled layout tree) leaves chunks) :
    ∀ leaf ∈ leaves, (tree.node leaf).isLeaf = true ∧ (tree.node leaf).parent = none ∧
      (tree.node leaf).entries.length ≤ layout.leafCap := by
  induction filled with
  | nil => simp
  | @cons leaf chunk leaves chunks head _ ih =>
      intro other member
      rcases List.mem_cons.mp member with rfl | member
      · refine ⟨head.isLeaf, head.orphan, ?_⟩
        have fits := head.fits
        rw [← head.entries_eq, List.length_map] at fits
        exact fits
      · exact ih other member

theorem bulkLoad_spec {pairs : List (K × V)} (ascending : Ascending pairs) (nonempty : pairs ≠ []) :
    ∃ tree root items, RawBTree.bulkLoad layout pairs = .ok tree ∧ Packed layout tree root items pairs := by
  have loaded := @loadLeaves_spec _ _ layout .new _ pairs rfl rfl
  set base := (RawBTree.loadLeaves layout (RawBTree.numLeaves layout pairs.length) pairs .new).2 with baseDef
  set leaves := (RawBTree.loadLeaves layout (RawBTree.numLeaves layout pairs.length) pairs .new).1
    with leavesDef
  obtain ⟨frame, unlinked, _, linked⟩ := @wireChain_spec _ _ base leaves none loaded.nodup
  set wired := RawBTree.wireChain none leaves base with wiredDef
  obtain ⟨chunks, flat, filled⟩ := loaded.chunked
  have filled' : List.Forall₂ (Filled layout wired) leaves chunks :=
    forall₂_filled_congr filled fun leaf _ => unlinked leaf
  have leafFacts := filled_leaves filled'
  obtain ⟨children, minKeys, childrenEq, headed⟩ := minKeys_spec filled'
  have bounded : ∀ idx ∈ leaves, idx < wired.arena.len :=
    fun idx member => frame.arenaLen ▸ (loaded.fresh idx member).2
  have tower : Tower layout wired [children] := by
    refine leaves_tower (frame.free.trans loaded.free) ?_ ?_ ?_
    · rw [childrenEq]; exact loaded.nodup
    · rw [childrenEq]; exact bounded
    · rw [childrenEq]; exact fun idx member => (leafFacts idx member).2.1
  have count : children.length = RawBTree.numLeaves layout pairs.length := by
    rw [← loaded.count, ← childrenEq, List.length_map]
  have pos : 0 < children.length := by
    rw [count, numLeaves_step (List.length_pos_iff.mpr nonempty)]
    omega
  obtain ⟨root, upper, top, finished, levels⟩ :=
    @loadLevels_spec _ _ layout wired children.length 0 children [] tower pos (Nat.le_succ _)
  rw [Nat.zero_add] at finished
  have isBottom : (upper ++ [children])[upper.length]? = some children := by simp
  obtain ⟨seps, bottom⟩ := levels.tower.levelRow levels.top isBottom
  have itemsNodes : Item.nodes (Item.row (children.map Prod.fst) seps) = leaves := by
    rw [Item.nodes_row bottom.paired, childrenEq]
  have payload : ∀ idx ∈ leaves, (top.node idx).payload = (wired.node idx).payload :=
    fun idx member => levels.payload idx (bounded idx member)
  have sameMarks : marks top.node (Item.row (children.map Prod.fst) seps) =
      marks wired.node (Item.row (children.map Prod.fst) seps) :=
    marks_congr fun idx member => Node.entries_of_payload (payload idx (itemsNodes ▸ member))
  obtain ⟨sorted, contentsEq⟩ := headed_marks headed bottom.keys_eq (flat ▸ ascending)
  rw [← sameMarks] at sorted contentsEq
  rw [flat] at contentsEq
  have aboveEq : above top.node root.1 upper.length = upper.flatten.map Prod.fst := by
    rw [bottom.above_eq, List.take_left]
  set tree : RawBTree K V := { top with
    root := some root.1
    firstLeaf := leaves.head?
    lastLeaf := leaves.getLast?
    len := pairs.length
    height := upper.length } with treeDef
  have returned : RawBTree.bulkLoad layout pairs = .ok tree := by
    rw [RawBTree.bulkLoad, if_neg (by simpa using nonempty)]
    simp only [← baseDef, ← leavesDef, ← wiredDef, minKeys, finished, bind, Except.bind]
    rfl
  have loose : ∀ depth < upper.length, ∀ idx ∈ Item.nodes (level top.node root.1 depth),
      LooseOk layout top.node idx := by
    intro depth lower idx member
    have isRow : (upper ++ [children])[depth]? = some upper[depth] := by
      rw [List.getElem?_append_left lower, List.getElem?_eq_getElem]
    obtain ⟨_, levelRow⟩ := levels.tower.levelRow levels.top isRow
    rw [levelRow.nodes_eq] at member
    exact levels.tower.looseOk isRow (by simp [lower]) idx member
  refine ⟨tree, root.1, Item.row (children.map Prod.fst) seps, returned, ?_⟩
  refine ⟨⟨rfl, fun depth lower idx member => (loose depth lower idx member).paired, bottom.level_eq, sorted⟩,
    ⟨?_, ?_, ?_, ?_, ?_, sorted, ?_⟩, ?_, loose, ?_, contentsEq, ?_, ?_⟩
  · intro idx member
    rw [itemsNodes] at member
    have same := Node.isLeaf_of_payload (payload idx member)
    exact same.trans (leafFacts idx member).1
  · intro idx member
    rw [itemsNodes] at member
    have same := Node.entries_of_payload (payload idx member)
    have fits := (leafFacts idx member).2.2
    rw [← same] at fits
    exact fits
  · rw [itemsNodes]
    exact linked.congr (fun idx member => Node.prev_of_payload (payload idx member))
      fun idx member => Node.next_of_payload (payload idx member)
  · rw [itemsNodes]
  · rw [itemsNodes]
  · have lengths := congrArg List.length contentsEq
    rw [contents, List.length_map] at lengths
    exact lengths.symm
  · exact levels.tower.orphans _ levels.top root.1 (by simp)
  · have owned := levels.tower.owned
    rw [List.flatten_append, List.map_append, ← aboveEq, List.flatten_singleton] at owned
    rw [itemsNodes, ← childrenEq]
    exact owned
  · intro pos
    exact levels.rooted (List.length_pos_iff.mp pos)
  · have bare := levels.bare
    rw [count] at bare
    refine Iff.trans ?_ bare
    rw [← aboveEq]
    constructor
    · rintro ⟨depth, lower, idx, member, noKeys⟩
      exact ⟨idx, mem_above.mpr ⟨depth, lower, member⟩, noKeys⟩
    · rintro ⟨idx, member, noKeys⟩
      obtain ⟨depth, lower, onLevel⟩ := mem_above.mp member
      exact ⟨depth, lower, idx, onLevel, noKeys⟩

end Assembly

section Sorting

/-- The value a key has last in a list of pairs. -/
def lastValue (key : K) (pairs : List (K × V)) : Option V :=
  ((pairs.filter fun pair => pair.1 = key).getLast?).map Prod.snd

theorem lastValue_concat (key : K) (pairs : List (K × V)) (pair : K × V) :
    lastValue key (pairs ++ [pair]) = if pair.1 = key then some pair.2 else lastValue key pairs := by
  by_cases same : pair.1 = key <;> simp [lastValue, same]

/-- Inserting pairs one by one leaves the last value of each key. -/
theorem insertAll_lookup (pairs : List (K × V)) :
    Ascending (pairs.foldl (fun entries pair => insertEntry pair.1 pair.2 entries) []) ∧
      ∀ key, lookupEntry key (pairs.foldl (fun entries pair => insertEntry pair.1 pair.2 entries) []) =
        lastValue key pairs := by
  induction pairs using List.reverseRecOn with
  | nil => exact ⟨.nil, fun _ => rfl⟩
  | append_singleton pairs pair ih =>
      obtain ⟨ascending, lookups⟩ := ih
      rw [List.foldl_append]
      refine ⟨ascending.insertEntry pair.1 pair.2, fun key => ?_⟩
      rw [lastValue_concat, ← lookups key]
      exact ascending.lookupEntry_insertEntry pair.1 key pair.2

theorem runSorted_inserts (pairs : List (K × V)) (map : SortedMap K V) :
    (runSorted (pairs.map fun pair => MapOp.insert pair.1 pair.2) map).2.entries =
      pairs.foldl (fun entries pair => insertEntry pair.1 pair.2 entries) map.entries := by
  induction pairs generalizing map with
  | nil => rfl
  | cons pair pairs ih => exact ih (map.insert pair.1 pair.2)

theorem mem_dedupPairs {last : K × V} {pairs : List (K × V)} {entry : K × V}
    (member : entry ∈ RawBTree.dedupPairs last pairs) : ∃ pair ∈ last :: pairs, pair.1 = entry.1 := by
  induction pairs generalizing last with
  | nil => exact ⟨entry, member, rfl⟩
  | cons pair pairs ih =>
      rw [RawBTree.dedupPairs] at member
      split at member
      · next same =>
          obtain ⟨other, isOther, otherKey⟩ := ih member
          rcases List.mem_cons.mp isOther with rfl | inside
          · exact ⟨last, List.mem_cons_self, otherKey⟩
          · exact ⟨other, List.mem_cons_of_mem _ (List.mem_cons_of_mem _ inside), otherKey⟩
      · rcases List.mem_cons.mp member with rfl | member
        · exact ⟨entry, List.mem_cons_self, rfl⟩
        · obtain ⟨other, isOther, otherKey⟩ := ih member
          exact ⟨other, List.mem_cons_of_mem _ isOther, otherKey⟩

/-- On pairs in key order, `dedup_by` keeps the last value of each key. -/
theorem dedupPairs_lookup {last : K × V} {pairs : List (K × V)}
    (ordered : (last :: pairs).Pairwise fun lower upper => lower.1 ≤ upper.1) :
    Ascending (RawBTree.dedupPairs last pairs) ∧
      ∀ key, lookupEntry key (RawBTree.dedupPairs last pairs) = lastValue key (last :: pairs) := by
  induction pairs generalizing last with
  | nil =>
      refine ⟨List.pairwise_singleton _ _, fun key => ?_⟩
      by_cases same : last.1 = key <;> simp [RawBTree.dedupPairs, lookupEntry, lastValue, same]
  | cons pair pairs ih =>
      obtain ⟨least, rest⟩ := List.pairwise_cons.mp ordered
      obtain ⟨ascending, lookups⟩ := ih rest
      rw [RawBTree.dedupPairs]
      split
      · next same =>
          have merged : (last.1, pair.2) = pair := by rw [same]
          rw [merged]
          refine ⟨ascending, fun key => ?_⟩
          rw [lookups key, lastValue, lastValue]
          by_cases isKey : pair.1 = key
          · simp [same, isKey, List.getLast?_cons_cons]
          · simp [same, isKey]
      · next different =>
          have larger : ∀ other ∈ pair :: pairs, last.1 < other.1 := by
            intro other member
            have first := lt_of_le_of_ne (least pair List.mem_cons_self) different
            rcases List.mem_cons.mp member with rfl | inside
            · exact first
            · exact lt_of_lt_of_le first ((List.pairwise_cons.mp rest).1 other inside)
          refine ⟨List.pairwise_cons.mpr ⟨fun entry member => ?_, ascending⟩, fun key => ?_⟩
          · obtain ⟨other, isOther, sameKey⟩ := mem_dedupPairs member
            rw [← sameKey]
            exact larger other isOther
          · by_cases isKey : last.1 = key
            · have none : (pair :: pairs).filter (fun other => other.1 = key) = [] := by
                rw [List.filter_eq_nil_iff]
                intro other member
                simpa using (isKey ▸ (larger other member).ne')
              rw [lastValue, List.filter_cons_of_pos (by simpa using isKey), none]
              simp [lookupEntry, isKey]
            · have skipped : lookupEntry key (last :: RawBTree.dedupPairs pair pairs) =
                  lookupEntry key (RawBTree.dedupPairs pair pairs) := by
                simp [lookupEntry, isKey]
              have filtered : (last :: pair :: pairs).filter (fun other => other.1 = key) =
                  (pair :: pairs).filter fun other => other.1 = key :=
                List.filter_cons_of_neg (by simpa using isKey)
              rw [skipped, lookups key, lastValue, lastValue, filtered]

/-- The sort is stable: pairs of one key keep their order. -/
theorem mergeSort_filter (pairs : List (K × V)) (key : K) :
    (pairs.mergeSort fun left right => left.1 ≤ right.1).filter (fun pair => pair.1 = key) =
      pairs.filter fun pair => pair.1 = key := by
  set ofKey := pairs.filter fun pair => pair.1 = key with ofKeyDef
  have equalKeys : ofKey.Pairwise fun left right => decide (left.1 ≤ right.1) = true := by
    refine List.pairwise_iff_forall_sublist.mpr fun {left right} inside => ?_
    have isKey : ∀ pair ∈ ofKey, pair.1 = key := fun pair member => by
      simpa using (List.mem_filter.mp member).2
    rw [isKey left (inside.subset (by simp)), isKey right (inside.subset (by simp))]
    simp
  have kept : ofKey.Sublist (pairs.mergeSort fun left right => left.1 ≤ right.1) :=
    List.sublist_mergeSort (fun _ _ _ first second => by simp at first second ⊢; exact first.trans second)
      (fun left right => by simpa using le_total left.1 right.1) equalKeys List.filter_sublist
  have inside := kept.filter fun pair => pair.1 = key
  rw [ofKeyDef, List.filter_filter] at inside
  simp only [Bool.and_self, ← ofKeyDef] at inside
  refine (inside.eq_of_length ?_).symm
  exact ((List.mergeSort_perm pairs _).filter _).length_eq.symm

theorem sortPairs_lookup (pairs : List (K × V)) :
    Ascending (RawBTree.sortPairs pairs) ∧
      ∀ key, lookupEntry key (RawBTree.sortPairs pairs) = lastValue key pairs := by
  have ordered := @List.pairwise_mergeSort _ (fun left right : K × V => decide (left.1 ≤ right.1))
    (fun _ _ _ first second => by simp at first second ⊢; exact first.trans second)
    (fun left right => by simpa using le_total left.1 right.1) pairs
  have stable := mergeSort_filter pairs
  rw [RawBTree.sortPairs]
  cases sorted : pairs.mergeSort fun left right => left.1 ≤ right.1 with
  | nil =>
      have empty : pairs = [] := by
        have lengths := (List.mergeSort_perm pairs fun left right => decide (left.1 ≤ right.1)).length_eq
        rw [sorted] at lengths
        exact List.length_eq_zero_iff.mp lengths.symm
      subst empty
      exact ⟨.nil, fun _ => rfl⟩
  | cons first rest =>
      rw [sorted] at ordered
      obtain ⟨ascending, lookups⟩ := @dedupPairs_lookup _ _ _ first rest (by simpa using ordered)
      refine ⟨ascending, fun key => ?_⟩
      have sameFilter := stable key
      rw [sorted] at sameFilter
      refine (lookups key).trans ?_
      rw [lastValue, lastValue, sameFilter]

/-- Sorting and deduplicating is inserting one by one. -/
theorem sortPairs_eq (pairs : List (K × V)) :
    RawBTree.sortPairs pairs =
      (runSorted (pairs.map fun pair => MapOp.insert pair.1 pair.2) SortedMap.empty).2.entries := by
  obtain ⟨sorted, sortedLookups⟩ := sortPairs_lookup pairs
  obtain ⟨inserted, insertedLookups⟩ := insertAll_lookup pairs
  rw [runSorted_inserts]
  exact sorted.ext_lookup inserted fun key => (sortedLookups key).trans (insertedLookups key).symm

end Sorting

section Construction

theorem Packed.formedAt {root : NodeIdx} {items : List (LevelItem K)} {pairs : List (K × V)}
    (packed : Packed layout tree root items pairs) : FormedAt layout (LooseOk layout) tree root :=
  packed.readable.formedAt packed.row packed.orphan packed.loose packed.owned

theorem Packed.length_le {root : NodeIdx} {items : List (LevelItem K)} {pairs : List (K × V)}
    (packed : Packed layout tree root items pairs) : (Item.nodes items).length ≤ tree.arena.len := by
  have bound := packed.owned.length_le
  rw [List.length_append] at bound
  omega

/-- A tree from sorted pairs: the empty one, or one that is packed. -/
theorem bulkLoad_cases (layout : NodeLayout) {pairs : List (K × V)} (ascending : Ascending pairs) :
    (pairs = [] ∧ RawBTree.bulkLoad layout pairs = .ok .new) ∨
      ∃ tree root items, RawBTree.bulkLoad layout pairs = .ok tree ∧ Packed layout tree root items pairs := by
  by_cases empty : pairs = []
  · exact .inl ⟨empty, by rw [empty]; rfl⟩
  · exact .inr (bulkLoad_spec ascending empty)

/-- `FromIterator` builds a tree with the same iteration and the same lookups as
inserting the pairs one by one, with all leaves at depth `height`, bracketing
separators, parent pointers and the chain of the leaves in order. -/
theorem from_iter_equals_insertion (layout : NodeLayout) (pairs : List (K × V)) :
    ∃ loaded replies inserted, RawBTree.fromIter layout pairs = .ok loaded ∧
      RawBTree.run layout (pairs.map fun pair => MapOp.insert pair.1 pair.2) .new = .ok (replies, inserted) ∧
      (∃ sequence, loaded.iterate = .ok sequence ∧ inserted.iterate = .ok sequence) ∧
      (∀ key, ∃ found, loaded.get key = .ok found ∧ inserted.get key = .ok found) ∧
      (loaded = .new ∨ ∃ root, FormedAt layout (LooseOk layout) loaded root) := by
  have start : Holds layout (RawBTree.new : RawBTree K V) [] := .vacant new_vacant
  obtain ⟨inserted, held, returned, holds, contentsEq⟩ := @Holds.run _ _ _ _ _ _ .empty start rfl
    (pairs.map fun pair => MapOp.insert pair.1 pair.2)
  rw [← sortPairs_eq] at contentsEq
  have iterated := holds.iterate_eq
  have found := holds.get_eq
  rw [contentsEq] at iterated found
  rcases bulkLoad_cases layout (sortPairs_lookup pairs).1 with ⟨empty, loaded⟩ | ⟨tree, root, items, loaded, packed⟩
  · rw [empty] at iterated found
    have vacant : Holds layout (RawBTree.new : RawBTree K V) [] := .vacant new_vacant
    exact ⟨.new, _, inserted, loaded, returned, ⟨[], vacant.iterate_eq, iterated⟩,
      fun key => ⟨_, vacant.get_eq key, found key⟩, .inl rfl⟩
  · have treeIterated := packed.row.iterate_eq packed.length_le
    have treeFound := packed.readable.get_eq
    rw [packed.contents_eq] at treeIterated treeFound
    exact ⟨tree, _, inserted, loaded, returned, ⟨_, treeIterated, iterated⟩,
      fun key => ⟨_, treeFound key, found key⟩, .inr ⟨root, packed.formedAt⟩⟩

end Construction

section Mutation

theorem Crown.of_internal {heap : Heap K V} {root : NodeIdx} {depth : Nat}
    (orphan : (heap root).parent = none)
    (internal : ∀ upper < depth, ∀ idx ∈ Item.nodes (level heap root upper), InternalOk heap layout idx) :
    Crown heap root layout depth := by
  induction depth with
  | zero => exact orphan
  | succ depth ih =>
      exact ⟨ih fun upper lower => internal upper (Nat.lt_succ_of_lt lower),
        internal depth (Nat.lt_succ_self _)⟩

/-- Every internal node except the root has a separator, hence two children. -/
def NodesKeyed (tree : RawBTree K V) : Prop :=
  ∀ root ∈ tree.root, ∀ depth, 0 < depth → depth < tree.height →
    ∀ idx ∈ Item.nodes (level tree.node root depth), 1 ≤ (tree.node idx).keys.length

/-- Mutating the tree gives the results of the map from now on. -/
def AnswersLike (layout : NodeLayout) (tree : RawBTree K V) (map : SortedMap K V) : Prop :=
  ∀ ops : List (MapOp K V), ∃ tree', RawBTree.run layout ops tree = .ok ((runSorted ops map).1, tree')

/-- No level of two or more nodes leaves a single one over when it is grouped
under parents. -/
def EvenLevels (layout : NodeLayout) (n : Nat) : Prop :=
  ∀ row, 1 < levelSize layout n row → levelSize layout n row % (layout.internalCap + 1) ≠ 1

theorem evenLevels_zero (layout : NodeLayout) : EvenLevels layout 0 := by
  have fixed : parentCount layout 0 = 0 := by
    rw [parentCount, Nat.zero_add, Nat.div_eq_of_lt (Nat.lt_succ_self _)]
  intro row several
  rw [levelSize, numLeaves_zero, Function.iterate_fixed fixed] at several
  omega

variable {root : NodeIdx} {items : List (LevelItem K)} {pairs : List (K × V)}

theorem Packed.nodesKeyed_iff (packed : Packed layout tree root items pairs) :
    NodesKeyed tree ↔ EvenLevels layout pairs.length := by
  have bare := packed.bare
  constructor
  · intro keyed row several lone
    obtain ⟨depth, lower, idx, member, noKeys⟩ := bare.mpr ⟨row, several, lone⟩
    rcases Nat.eq_zero_or_pos depth with rfl | positive
    · obtain rfl : idx = root := by simpa [level] using member
      exact packed.rooted lower noKeys
    · have someKeys := keyed root packed.readable.root_eq depth positive lower idx member
      rw [noKeys] at someKeys
      simp at someKeys
  · intro even other isRoot depth _ lower idx member
    rw [packed.readable.root_eq] at isRoot
    obtain rfl := Option.some.inj isRoot
    rw [Nat.one_le_iff_ne_zero, ← Nat.pos_iff_ne_zero, List.length_pos_iff]
    intro noKeys
    obtain ⟨row, several, lone⟩ := bare.mp ⟨depth, lower, idx, member, noKeys⟩
    exact even row several lone

/-- Packed without a lone child, the tree satisfies the invariant of the others. -/
theorem Packed.toRooted (packed : Packed layout tree root items pairs)
    (even : EvenLevels layout pairs.length) : Rooted layout tree root items := by
  refine ⟨⟨packed.readable.root_eq, Crown.of_internal packed.orphan fun depth lower idx member => ?_,
    packed.readable.level_eq, ?_⟩, packed.row⟩
  · have loose := packed.loose depth lower idx member
    refine ⟨loose.internal, loose.paired, ?_, loose.fits, loose.parents⟩
    rw [Nat.one_le_iff_ne_zero, ← Nat.pos_iff_ne_zero, List.length_pos_iff]
    intro noKeys
    obtain ⟨row, several, lone⟩ := packed.bare.mp ⟨depth, lower, idx, member, noKeys⟩
    exact even row several lone
  · rw [List.append_nil]
    exact packed.owned

/-- A bulk-loaded tree has a separator in every internal node below the root, and
answers like the map of its pairs ever after, exactly when no level leaves a lone
node over. -/
theorem bulk_load_fit_for_mutation_iff (layout : NodeLayout) (map : SortedMap K V) :
    ∃ tree, RawBTree.bulkLoad layout map.entries = .ok tree ∧
      ((AnswersLike layout tree map ∧ NodesKeyed tree) ↔ EvenLevels layout map.entries.length) := by
  rcases bulkLoad_cases layout map.ascending with ⟨empty, loaded⟩ | ⟨tree, root, items, loaded, packed⟩
  · refine ⟨.new, loaded, iff_of_true ⟨fun ops => ?_, ?_⟩ ?_⟩
    · have start : Holds layout (RawBTree.new : RawBTree K V) [] := .vacant new_vacant
      obtain ⟨tree', _, returned, _⟩ := start.run empty.symm ops
      exact ⟨tree', returned⟩
    · rintro root ⟨⟩
    · rw [empty]
      exact evenLevels_zero layout
  · refine ⟨tree, loaded, fun fit => packed.nodesKeyed_iff.mp fit.2, fun even => ⟨fun ops => ?_, ?_⟩⟩
    · have holds : Holds layout tree (marks tree.node items) := .rooted (packed.toRooted even)
      obtain ⟨tree', _, returned, _⟩ := holds.run packed.contents_eq ops
      exact ⟨tree', returned⟩
    · exact packed.nodesKeyed_iff.mpr even

/-- Seven keys fill four leaves, which leave one over behind a group of three. -/
def sevenPairs : SortedMap Nat Unit where
  entries := (List.range 7).map fun key => (key, ())
  ascending := by
    rw [Ascending]
    decide

/-- The last leaf has no sibling; removing its only key looks for one to the left
of the first child. -/
theorem bulk_loaded_removal_underflows :
    ∃ tree, RawBTree.bulkLoad tinyLayout sevenPairs.entries = .ok tree ∧
      RawBTree.run tinyLayout [.remove 6] tree = .error .childPosUnderflow ∧
      ¬ AnswersLike tinyLayout tree sevenPairs := by
  have stopped : ((RawBTree.bulkLoad tinyLayout sevenPairs.entries).bind fun tree =>
      (RawBTree.run tinyLayout [.remove 6] tree).map fun _ => ()) = .error .childPosUnderflow := by
    decide +kernel
  obtain ⟨tree, loaded⟩ : ∃ tree, RawBTree.bulkLoad tinyLayout sevenPairs.entries = .ok tree := by
    rcases bulkLoad_cases tinyLayout sevenPairs.ascending with ⟨_, loaded⟩ | ⟨tree, _, _, loaded, _⟩
    · exact ⟨_, loaded⟩
    · exact ⟨tree, loaded⟩
  rw [loaded] at stopped
  refine ⟨tree, loaded, ?_⟩
  cases ran : RawBTree.run tinyLayout [.remove 6] tree with
  | ok outcome =>
      rw [Except.bind, ran] at stopped
      simp [Except.map] at stopped
  | error fault =>
      rw [Except.bind, ran] at stopped
      obtain rfl : fault = .childPosUnderflow := by simpa [Except.map] using stopped
      refine ⟨rfl, fun answers => ?_⟩
      obtain ⟨tree', returned⟩ := answers [.remove 6]
      rw [ran] at returned
      simp at returned

end Mutation

end Optimap.FlatBTree
