import Optimap.FlatBTree.BulkLevels

/-!
# Leaves built from sorted pairs

The pairs are cut into chunks, one for each leaf. The first key of a chunk is the
separator in front of its leaf at whatever level it comes to stand.
-/

set_option autoImplicit false
set_option linter.unusedSectionVars false

namespace Optimap.FlatBTree

open Lib

variable {K V : Type} {layout : NodeLayout} {tree tree' : RawBTree K V}

/-- A leaf with the pairs of a chunk. -/
structure Filled (layout : NodeLayout) (tree : RawBTree K V) (leaf : NodeIdx) (chunk : List (K × V)) :
    Prop where
  isLeaf : (tree.node leaf).isLeaf = true
  orphan : (tree.node leaf).parent = none
  entries_eq : (tree.node leaf).entries.map (fun entry => (entry.1.key, entry.2)) = chunk
  nonempty : chunk ≠ []
  fits : chunk.length ≤ layout.leafCap

/-- A node with its links to other leaves left out. -/
def Node.unlinked (node : Node K V) : Node K V := { node with prev := none, next := none }

theorem Filled.congr {leaf : NodeIdx} {chunk : List (K × V)} (filled : Filled layout tree leaf chunk)
    (same : (tree'.node leaf).unlinked = (tree.node leaf).unlinked) : Filled layout tree' leaf chunk := by
  have sameLeaf : (tree'.node leaf).isLeaf = (tree.node leaf).isLeaf := by
    simpa [Node.unlinked] using congrArg Node.isLeaf same
  have sameParent : (tree'.node leaf).parent = (tree.node leaf).parent := by
    simpa [Node.unlinked] using congrArg Node.parent same
  have sameEntries : (tree'.node leaf).entries = (tree.node leaf).entries := by
    simpa [Node.unlinked] using congrArg Node.entries same
  exact ⟨by rw [sameLeaf]; exact filled.isLeaf, by rw [sameParent]; exact filled.orphan,
    by rw [sameEntries]; exact filled.entries_eq, filled.nonempty, filled.fits⟩

theorem forall₂_filled_congr {leaves : List NodeIdx} {chunks : List (List (K × V))}
    (filled : List.Forall₂ (Filled layout tree) leaves chunks)
    (same : ∀ leaf ∈ leaves, (tree'.node leaf).unlinked = (tree.node leaf).unlinked) :
    List.Forall₂ (Filled layout tree') leaves chunks := by
  induction filled with
  | nil => exact .nil
  | cons head _ ih =>
      exact .cons (head.congr (same _ List.mem_cons_self))
        (ih fun leaf member => same leaf (List.mem_cons_of_mem _ member))

section Chunks

theorem numLeaves_zero (layout : NodeLayout) : RawBTree.numLeaves layout 0 = 0 := by
  have capPos := layout.leafCap_pos
  exact Nat.div_eq_of_lt (by omega)

theorem numLeaves_step {layout : NodeLayout} {n : Nat} (pos : 0 < n) :
    RawBTree.numLeaves layout n = RawBTree.numLeaves layout (n - layout.leafCap) + 1 := by
  have capPos := layout.leafCap_pos
  rw [RawBTree.numLeaves, RawBTree.numLeaves, ← Nat.add_div_right _ capPos]
  rcases Nat.le_total layout.leafCap n with large | small
  · congr 1
    omega
  · rw [Nat.sub_eq_zero_of_le small, @Nat.div_eq_of_lt_le 1 _ _ (by omega) (by omega),
      @Nat.div_eq_of_lt_le 1 _ _ (by omega) (by omega)]

/-- What building the leaves does. -/
structure LoadedLeaves (layout : NodeLayout) (tree tree' : RawBTree K V) (pairs : List (K × V))
    (leaves : List NodeIdx) : Prop where
  chunked : ∃ chunks : List (List (K × V)), chunks.flatten = pairs ∧
    List.Forall₂ (Filled layout tree') leaves chunks
  fresh : ∀ leaf ∈ leaves, tree.arena.len ≤ leaf ∧ leaf < tree'.arena.len
  nodup : leaves.Nodup
  same : ∀ idx < tree.arena.len, tree'.node idx = tree.node idx
  free : tree'.arena.free = []
  len_le : tree.arena.len ≤ tree'.arena.len
  count : leaves.length = RawBTree.numLeaves layout pairs.length

theorem firstLeaf_spec {chunk : List (K × V)} (fresh : tree.arena.free = []) (nonempty : chunk ≠ [])
    (fits : chunk.length ≤ layout.leafCap)
    (made : tree' = (tree.allocNode.2.ownAll (chunk.map Prod.fst)).2.modify tree.allocNode.1 fun node =>
      { node.setEntries ((tree.allocNode.2.ownAll (chunk.map Prod.fst)).1.zip (chunk.map Prod.snd)) with
        isLeaf := true, parent := none }) :
    Filled layout tree' tree.arena.len chunk ∧ tree'.arena.free = [] ∧
      tree'.arena.len = tree.arena.len + 1 ∧ ∀ idx < tree.arena.len, tree'.node idx = tree.node idx := by
  obtain ⟨keysEq, ledger, owned⟩ := ownAll_spec (chunk.map Prod.fst) tree.allocNode.2
  set objects := (tree.allocNode.2.ownAll (chunk.map Prod.fst)).1 with objectsDef
  rw [owned, allocNode_fresh fresh] at made
  have leafNode : tree'.node tree.arena.len =
      { (tree.node tree.arena.len).setEntries (objects.zip (chunk.map Prod.snd)) with
        isLeaf := true, parent := none } := by
    rw [made, RawBTree.node_modify_self]
    rfl
  have zipped : (objects.zip (chunk.map Prod.snd)).map (fun entry => (entry.1.key, entry.2)) = chunk := by
    have mapped : (objects.zip (chunk.map Prod.snd)).map (fun entry => (entry.1.key, entry.2)) =
        (objects.map KeyObj.key).zip (chunk.map Prod.snd) := by
      rw [← List.map_id (chunk.map Prod.snd), List.zip_map, List.map_id]
      rfl
    rw [mapped, keysEq, List.zip_map']
    simp
  refine ⟨⟨?_, ?_, ?_, nonempty, fits⟩, ?_, ?_, fun idx bound => ?_⟩
  · rw [leafNode]
  · rw [leafNode]
  · rw [leafNode]
    exact zipped
  · rw [made]
    exact fresh
  · rw [made]
    rfl
  · rw [made, RawBTree.node_modify_of_ne _ (Nat.ne_of_lt bound)]
    rfl

theorem loadLeaves_spec {count : Nat} {pairs : List (K × V)} (fresh : tree.arena.free = [])
    (enough : count = RawBTree.numLeaves layout pairs.length) :
    LoadedLeaves layout tree (RawBTree.loadLeaves layout count pairs tree).2 pairs
      (RawBTree.loadLeaves layout count pairs tree).1 := by
  induction count generalizing pairs tree with
  | zero =>
      have empty : pairs = [] := by
        by_contra nonempty
        rw [numLeaves_step (List.length_pos_iff.mpr nonempty)] at enough
        omega
      subst empty
      exact ⟨⟨[], rfl, .nil⟩, by simp [RawBTree.loadLeaves], List.nodup_nil, fun _ _ => rfl, fresh, le_rfl,
        enough⟩
  | succ count ih =>
      have capPos := layout.leafCap_pos
      have nonempty : pairs ≠ [] := by
        rintro rfl
        rw [List.length_nil, numLeaves_zero] at enough
        omega
      set chunk := pairs.take layout.leafCap with chunkDef
      set later := pairs.drop layout.leafCap with laterDef
      set middle := (tree.allocNode.2.ownAll (chunk.map Prod.fst)).2.modify tree.allocNode.1 fun node =>
        { node.setEntries ((tree.allocNode.2.ownAll (chunk.map Prod.fst)).1.zip (chunk.map Prod.snd)) with
          isLeaf := true, parent := none } with middleDef
      obtain ⟨filled, freeMiddle, lenMiddle, lower⟩ := @firstLeaf_spec _ _ layout _ _ chunk fresh
        (by simp [chunkDef, nonempty]; omega) (by simp [chunkDef]) middleDef
      have loaded := @ih middle later freeMiddle (by
        rw [numLeaves_step (List.length_pos_iff.mpr nonempty)] at enough
        rw [laterDef, List.length_drop]
        omega)
      have opened : RawBTree.loadLeaves layout (count + 1) pairs tree =
          (tree.arena.len :: (RawBTree.loadLeaves layout count later middle).1,
            (RawBTree.loadLeaves layout count later middle).2) := by
        have allocated : tree.allocNode.1 = tree.arena.len := by rw [allocNode_fresh fresh]
        simp only [RawBTree.loadLeaves]
        rw [← chunkDef, ← laterDef, ← middleDef, allocated]
      rw [opened]
      set tree' := (RawBTree.loadLeaves layout count later middle).2 with treeDef
      set leaves := (RawBTree.loadLeaves layout count later middle).1 with leavesDef
      have inMiddle : ∀ idx : NodeIdx, idx < tree.arena.len → idx < middle.arena.len :=
        fun idx bound => lenMiddle ▸ Nat.lt_succ_of_lt bound
      have leafSame : tree'.node tree.arena.len = middle.node tree.arena.len :=
        loaded.same _ (lenMiddle ▸ Nat.lt_succ_self _)
      have lenLe := loaded.len_le
      refine ⟨?_, ?_, ?_, ?_, loaded.free, by omega, ?_⟩
      · obtain ⟨chunks, flat, rest⟩ := loaded.chunked
        refine ⟨chunk :: chunks, ?_, .cons (filled.congr (by rw [leafSame])) rest⟩
        rw [List.flatten_cons, flat, chunkDef, laterDef, List.take_append_drop]
      · intro idx member
        rcases List.mem_cons.mp member with rfl | member
        · have inside : tree.arena.len < tree'.arena.len := by omega
          exact ⟨le_rfl, inside⟩
        · obtain ⟨lowerBound, upperBound⟩ := loaded.fresh idx member
          exact ⟨le_trans (lenMiddle ▸ Nat.le_succ _) lowerBound, upperBound⟩
      · refine List.nodup_cons.mpr ⟨fun member => ?_, loaded.nodup⟩
        have lowerBound := (loaded.fresh _ member).1
        omega
      · intro idx bound
        rw [loaded.same idx (inMiddle idx bound), lower idx bound]
      · rw [List.length_cons, loaded.count, numLeaves_step (List.length_pos_iff.mpr nonempty), laterDef,
          List.length_drop]

end Chunks

section Chain

theorem wireChain_spec {leaves : List NodeIdx} (before : Option NodeIdx) (unique : leaves.Nodup) :
    RawBTree.SameFrame tree (RawBTree.wireChain before leaves tree) ∧
      (∀ idx, ((RawBTree.wireChain before leaves tree).node idx).unlinked = (tree.node idx).unlinked) ∧
      (∀ idx ∉ leaves, (RawBTree.wireChain before leaves tree).node idx = tree.node idx) ∧
      Linked (fun idx => ((RawBTree.wireChain before leaves tree).node idx).prev)
        (fun idx => ((RawBTree.wireChain before leaves tree).node idx).next) before leaves none := by
  induction leaves generalizing before tree with
  | nil => exact ⟨.refl tree, fun _ => rfl, fun _ _ => rfl, trivial⟩
  | cons leaf leaves ih =>
      obtain ⟨outside, rest⟩ := List.nodup_cons.mp unique
      set middle := (tree.setPrev before leaf).setNext leaves.head? leaf with middleDef
      have leafNode : middle.node leaf = { tree.node leaf with prev := before, next := leaves.head? } := by
        simp [middleDef, RawBTree.setPrev, RawBTree.setNext]
      have other : ∀ idx, idx ≠ leaf → middle.node idx = tree.node idx := by
        intro idx different
        simp [middleDef, RawBTree.setPrev, RawBTree.setNext, RawBTree.node_modify_of_ne _ different]
      have framed : RawBTree.SameFrame tree middle :=
        (RawBTree.SameFrame.modify tree leaf _).trans (RawBTree.SameFrame.modify _ leaf _)
      obtain ⟨frame, unlinked, same, linked⟩ := @ih middle (some leaf) rest
      refine ⟨framed.trans frame, fun idx => ?_, fun idx member => ?_, ?_, ?_, linked⟩
      · refine (unlinked idx).trans ?_
        by_cases isLeaf : idx = leaf
        · rw [isLeaf, leafNode]
          rfl
        · rw [other idx isLeaf]
      · rw [List.mem_cons, not_or] at member
        exact (same idx member.2).trans (other idx member.1)
      · have final := same leaf outside
        simp only [RawBTree.wireChain, ← middleDef, final, leafNode]
      · have final := same leaf outside
        simp only [RawBTree.wireChain, ← middleDef, final, leafNode, Option.or_none]

end Chain

section Rows

/-- A leaf under its first key. -/
def Headed (layout : NodeLayout) (tree : RawBTree K V) (child : NodeIdx × K) (chunk : List (K × V)) : Prop :=
  Filled layout tree child.1 chunk ∧ chunk.head?.map Prod.fst = some child.2

theorem minKeys_spec {leaves : List NodeIdx} {chunks : List (List (K × V))}
    (filled : List.Forall₂ (Filled layout tree) leaves chunks) :
    ∃ children, tree.minKeys leaves = .ok children ∧ children.map Prod.fst = leaves ∧
      List.Forall₂ (Headed layout tree) children chunks := by
  induction filled with
  | nil => exact ⟨[], rfl, rfl, .nil⟩
  | @cons leaf chunk leaves chunks head _ ih =>
      obtain ⟨children, returned, leavesEq, headed⟩ := ih
      have entriesEq := head.entries_eq
      cases stored : (tree.node leaf).entries with
      | nil =>
          rw [stored] at entriesEq
          exact absurd entriesEq.symm head.nonempty
      | cons entry entries =>
          refine ⟨(leaf, entry.1.key) :: children, ?_, by rw [List.map_cons, leavesEq], .cons ⟨head, ?_⟩ headed⟩
          · simp only [RawBTree.minKeys, stored, readSlot, List.getElem?_cons_zero, returned, bind, Except.bind]
            rfl
          · rw [← entriesEq, stored]
            rfl

variable [LinearOrder K]

theorem sorted_map_node {entries : List (KeyObj K × V)}
    (ascending : Ascending (entries.map fun entry => (entry.1.key, entry.2))) :
    Mark.Sorted (entries.map .node : List (Mark K V)) := by
  rw [Ascending, List.pairwise_map] at ascending
  rw [Mark.Sorted, List.pairwise_map]
  exact ascending

/-- The marks of a row of leaves under their first keys. -/
theorem headed_marks {children : List (NodeIdx × K)} {chunks : List (List (K × V))}
    {seps : List (KeyObj K)} (headed : List.Forall₂ (Headed layout tree) children chunks)
    (keys : seps.map KeyObj.key = (children.map Prod.snd).tail) (ascending : Ascending chunks.flatten) :
    Mark.Sorted (marks tree.node (Item.row (children.map Prod.fst) seps)) ∧
      contents (marks tree.node (Item.row (children.map Prod.fst) seps)) = chunks.flatten := by
  induction headed generalizing seps with
  | nil => exact ⟨.nil, rfl⟩
  | @cons child chunk children chunks head rest ih =>
      obtain ⟨chunkAscending, restAscending, cross⟩ := List.pairwise_append.mp ascending
      have entriesEq := head.1.entries_eq
      have entriesSorted : Mark.Sorted ((tree.node child.1).entries.map .node : List (Mark K V)) :=
        sorted_map_node (by rw [entriesEq]; exact chunkAscending)
      have entriesContents : contents ((tree.node child.1).entries.map .node : List (Mark K V)) = chunk := by
        rw [contents, nodes_map_node]
        exact entriesEq
      cases rest with
      | nil =>
          obtain rfl : seps = [] := by simpa using keys
          simp only [List.map_cons, List.map_nil, Item.row, Item.trail, marks_node, marks_nil, List.append_nil]
          exact ⟨entriesSorted, by rw [entriesContents]; simp⟩
      | @cons second chunk' children chunks head' rest =>
          cases seps with
          | nil => simp at keys
          | cons sep seps =>
              have keysEq : sep.key = second.2 ∧ seps.map KeyObj.key = children.map Prod.snd := by
                simpa using keys
              obtain ⟨sorted, contentsEq⟩ := @ih seps keysEq.2 restAscending
              have opened : marks tree.node (Item.row ((child :: second :: children).map Prod.fst) (sep :: seps)) =
                  (tree.node child.1).entries.map .node ++
                    .sep sep :: marks tree.node (Item.row ((second :: children).map Prod.fst) seps) := by
                simp [Item.row, Item.trail]
              rw [opened]
              refine ⟨?_, ?_⟩
              · cases stored : (tree.node second.1).entries with
                | nil =>
                    have empty := head'.1.entries_eq
                    rw [stored] at empty
                    exact absurd empty.symm head'.1.nonempty
                | cons entry entries =>
                    have chunkEq := head'.1.entries_eq
                    rw [stored, List.map_cons] at chunkEq
                    have sepKey : sep.key = entry.1.key := by
                      have minKey := head'.2
                      rw [← chunkEq] at minKey
                      rw [keysEq.1]
                      exact (Option.some.inj minKey).symm
                    have restMarks : marks tree.node (Item.row ((second :: children).map Prod.fst) seps) =
                        .node entry :: (entries.map .node ++
                          marks tree.node (Item.trail seps (children.map Prod.fst))) := by
                      simp [Item.row, stored]
                    rw [restMarks] at sorted ⊢
                    refine Mark.Sorted.insert_sep sepKey ?_
                    refine List.pairwise_append.mpr ⟨entriesSorted, sorted, fun mark member other later => ?_⟩
                    obtain ⟨low, isLow, rfl⟩ := List.mem_map.mp member
                    have smaller : low.1.key < entry.1.key := by
                      refine cross (low.1.key, low.2) ?_ (entry.1.key, entry.2) ?_
                      · rw [← entriesEq]
                        exact List.mem_map_of_mem isLow
                      · rw [List.flatten_cons, ← chunkEq]
                        simp
                    rcases List.mem_cons.mp later with rfl | later
                    · exact smaller
                    · exact smaller.trans ((List.pairwise_cons.mp sorted).1 other later)
              · rw [contents_append, contents_sep, entriesContents, contentsEq]
                rfl

end Rows

end Optimap.FlatBTree
