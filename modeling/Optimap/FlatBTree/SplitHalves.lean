import Optimap.FlatBTree.SplitPath

/-!
# Two trees from one

After the walk both halves stand on their own. Settling their roots and closing their leaf
chains makes trees of them, which together hold the marks of the tree that was cut, without the
separator at the cut if there is one.
-/

set_option autoImplicit false
set_option linter.unusedSectionVars false

namespace Optimap.FlatBTree

open Lib

variable {K V : Type} [LinearOrder K] {layout : NodeLayout} {tree t t' f : RawBTree K V} {root top leaf : NodeIdx}
  {items left right row : List (LevelItem K)} {below above : List (KeyObj K × V)} {depth height fuel : Nat}
  {counts : List Nat} {edge : CollapseEdge} {fillings : Fillings K V} {leafNode : Node K V}

section Starting

theorem Copied.of_leaf {dst : RawBTree K V} (isLeaf : (dst.node leaf).isLeaf = true) (owned : Owned dst.arena [leaf]) :
    Copied layout dst 0 leaf [.node (dst.node leaf).entries] [] := by
  refine ⟨trivial, ⟨fun _ => trivial, fun _ => trivial⟩, rfl, ?_, owned⟩
  intro other member
  obtain rfl := List.mem_singleton.mp member
  exact isLeaf

/-- The boundary leaf by itself. -/
theorem Stays.of_leaf {outside : List NodeIdx} (owned : Owned t.arena (leaf :: outside))
    (same : (t.node leaf).payload = leafNode.payload) (untouched : ∀ other ∈ outside, t.node other = tree.node other) :
    Stays layout tree leaf leafNode t 0 leaf [.node leaf] outside [] := by
  refine ⟨trivial, ⟨fun _ => trivial, fun _ => trivial⟩, rfl, owned, ?_, (List.nodup_cons.mp owned.nodup_idxs).1, untouched⟩
  intro other member
  obtain rfl := List.mem_singleton.mp member
  rw [if_pos rfl, same]

/-- The first leaf that moves, when the one it is split from stays. -/
theorem buildLeaf_builds {s : Surgery K V} (entries : List (KeyObj K × V)) (owned : Owned s.dst.arena []) :
    ∃ top s', s.buildLeaf entries = (top, s') ∧ Copied layout s'.dst 0 top [.node entries] [] ∧
      Chained s' (leavesUnder s'.dst.node 0 top) ∧ s'.count = s.count + entries.length ∧ s'.tree = s.tree ∧
      s'.dst = { s.dst with arena := s'.dst.arena } := by
  obtain ⟨allocated, _⟩ := owned.alloc
  set top := s.dst.arena.allocNode.1 with topDef
  set dst := s.dst.allocNode.2.modify top fun node =>
    { node.setEntries entries with isLeaf := true, parent := none, prev := none, next := none } with dstDef
  have node : dst.node top = { (s.dst.allocNode.2.node top).setEntries entries with
      isLeaf := true, parent := none, prev := none, next := none } := RawBTree.node_modify_self _
  have copied := @Copied.of_leaf _ _ _ layout top dst (by rw [node]) (allocated.of_same rfl rfl)
  rw [show (dst.node top).entries = entries by rw [node]; rfl] at copied
  refine ⟨top, ⟨s.tree, dst, ⟨some top, some top⟩, s.count + entries.length⟩, rfl, copied, ⟨⟨?_, ?_, trivial⟩, rfl⟩, rfl,
    rfl, rfl⟩
  · change (dst.node top).prev = none
    rw [node]
  · change (dst.node top).next = none
    rw [node]

variable {outside : List NodeIdx} (rooted : Rooted layout tree root items) (member : leaf ∈ Item.nodes items)
  (entries : (tree.node leaf).entries = below ++ above)
  (whole : (under tree.node 0 leaf ++ outside).Perm (under tree.node tree.height root))
include rooted member entries whole

theorem Rooted.owned_leaf : Owned tree.arena (leaf :: outside) := by
  have owned := rooted.crownAt.owned
  rw [List.append_nil, ← rooted.crownAt.level_eq] at owned
  exact owned.perm (whole.trans rooted.subtree.1.under_perm)

/-- The boundary leaf, its right part moving. -/
theorem splitLeafRight_halves (fuel : Nat) :
    ∃ leafNode leftBelow top s,
      Surgery.splitLeafRight fuel leaf below.length ⟨tree, tree.fresh, ⟨none, none⟩, 0⟩ = .ok (leftBelow, some top, s) ∧
      HalvesRight layout tree leaf leafNode (below ≠ []) above s 0 leaf leftBelow top outside [] [] [] [] ∧
      leafNode.entries = below ∧ leafNode.isLeaf = true ∧ leafNode.prev = (tree.node leaf).prev ∧
      leftBelow.isSome = decide (0 < below.length) := by
  have owned := rooted.owned_leaf member entries whole
  have isLeaf := rooted.row.leaf leaf member
  have apart : leaf ∉ outside := (List.nodup_cons.mp owned.nodup_idxs).1
  have fillings : ([.node leaf] : List (LevelItem K)).map (filledAt tree.node leaf above) = [.node above] := by
    simp [filledAt, Item.map]
  by_cases bare : below = []
  · subst bare
    obtain ⟨top, s, moving, moved⟩ := @Surgery.deepCopySubtree_moves _ _ layout tree 0 fuel leaf
      ⟨tree, tree.fresh, ⟨none, none⟩, 0⟩ [] (Nat.zero_le _) trivial
      (fun other isOther => by
        obtain rfl := List.mem_singleton.mp isOther
        exact isLeaf)
      (List.nodup_singleton leaf) (fun _ _ => rfl) rfl new_vacant.owned (fun tail isTail => absurd isTail (by simp))
    obtain ⟨copies, filled⟩ := moved.copies_whole fun child isChild => trivial
    have copied := @Copied.of_leaf _ _ _ layout top s.dst
      ((copies top (List.mem_singleton.mpr rfl)).2.2 top (List.mem_singleton.mpr rfl)) moved.row.owned
    have topEntries : (s.dst.node top).entries = above := by
      have same := (List.forall₂_cons.mp filled).1
      rw [← List.nil_append above, ← entries]
      simpa [level, FlatBTree.filled, Item.map] using same
    rw [topEntries, ← fillings] at copied
    have treeEq : s.tree = tree.vacateAll [leaf] := by rw [moved.after]; rfl
    have count : s.count = stored (([.node leaf] : List (LevelItem K)).map (filledAt tree.node leaf above)) := by
      rw [moved.after, fillings]
      simp [Surgery.afterMove, storedIn, stored, entries, leavesUnder, level]
    refine ⟨{ tree.node leaf with entries := [] }, none, top, s, ?_, ⟨rfl, .nothing (by simp) ⟨?_, apart, ?_⟩ ?_, copied,
      ⟨moved.row.linked, ?_⟩, count, ?_, moved.extended.frame⟩, rfl, isLeaf, rfl, rfl⟩
    · simp [Surgery.splitLeafRight, moving, bind, Except.bind, pure, Except.pure]
    · rw [treeEq]
      exact Owned.vacateAll owned
    · intro other isOutside
      rw [treeEq]
      exact node_vacateAll fun inside => apart (List.mem_singleton.mp inside ▸ isOutside)
    · rw [treeEq]
      rfl
    · exact moved.row.ends_eq
    · rw [treeEq]
      rfl
  · have part : 0 < below.length := List.length_pos_iff.mpr bare
    obtain ⟨top, s, building, copied, chained, count, treeEq, dstFrame⟩ := @buildLeaf_builds _ _ _ layout
      ⟨tree, tree.fresh, ⟨none, none⟩, 0⟩ above new_vacant.owned
    set kept := (tree.setEntries below leaf).setNext none leaf with keptDef
    have node : kept.node leaf = { (tree.node leaf).setEntries below with next := none } := by
      rw [keptDef, RawBTree.setNext, RawBTree.node_modify_self, RawBTree.setEntries, RawBTree.node_modify_self]
    have others : ∀ other ∈ outside, kept.node other = tree.node other := by
      intro other isOutside
      have different : other ≠ leaf := fun same => apart (same ▸ isOutside)
      rw [keptDef, RawBTree.setNext, RawBTree.node_modify_of_ne _ different, RawBTree.setEntries,
        RawBTree.node_modify_of_ne _ different]
    rw [← fillings] at copied
    refine ⟨{ (tree.node leaf).setEntries below with next := none }, some leaf, top, { s with tree := kept }, ?_,
      ⟨rfl, .part (.inside bare) (.of_leaf (owned.of_same rfl rfl) (congrArg Node.payload node) others) rfl, copied,
        ⟨chained.linked, chained.ends⟩, ?_, rfl, dstFrame⟩, rfl, isLeaf, rfl, by simp [part]⟩
    · have slot : ¬ below.length = 0 := part.ne'
      simp only [Surgery.splitLeafRight, if_neg slot, entries, List.drop_left, List.take_left, building, treeEq, keptDef]
    · change s.count = _
      rw [count, fillings]
      simp [stored]

/-- The boundary leaf, its left part moving. -/
theorem splitLeafLeft_halves :
    ∃ leafNode leftBelow s,
      Surgery.splitLeafLeft leaf below.length ⟨tree, tree.fresh, ⟨none, none⟩, 0⟩ = (leftBelow, s) ∧
      HalvesLeft layout tree leaf leafNode below s 0 leaf leftBelow outside [] [] [] [] ∧
      leafNode.entries = above ∧ leafNode.isLeaf = true ∧ leafNode.next = (tree.node leaf).next ∧
      leftBelow.isSome = decide (0 < below.length) := by
  have owned := rooted.owned_leaf member entries whole
  have isLeaf := rooted.row.leaf leaf member
  have apart : leaf ∉ outside := (List.nodup_cons.mp owned.nodup_idxs).1
  have fillings : ([.node leaf] : List (LevelItem K)).map (filledAt tree.node leaf below) = [.node below] := by
    simp [filledAt, Item.map]
  by_cases bare : below = []
  · subst bare
    exact ⟨tree.node leaf, none, _, rfl, ⟨rfl, .of_leaf owned rfl fun _ _ => rfl,
      .nothing rfl rfl new_vacant.owned rfl rfl, rfl, rfl⟩, entries, isLeaf, rfl, rfl⟩
  · have part : 0 < below.length := List.length_pos_iff.mpr bare
    obtain ⟨top, s, building, copied, chained, count, treeEq, dstFrame⟩ := @buildLeaf_builds _ _ _ layout
      ⟨tree, tree.fresh, ⟨none, none⟩, 0⟩ below new_vacant.owned
    set kept := (tree.setEntries above leaf).setPrev none leaf with keptDef
    have node : kept.node leaf = { (tree.node leaf).setEntries above with prev := none } := by
      rw [keptDef, RawBTree.setPrev, RawBTree.node_modify_self, RawBTree.setEntries, RawBTree.node_modify_self]
    have others : ∀ other ∈ outside, kept.node other = tree.node other := by
      intro other isOutside
      have different : other ≠ leaf := fun same => apart (same ▸ isOutside)
      rw [keptDef, RawBTree.setPrev, RawBTree.node_modify_of_ne _ different, RawBTree.setEntries,
        RawBTree.node_modify_of_ne _ different]
    rw [← fillings] at copied
    refine ⟨{ (tree.node leaf).setEntries above with prev := none }, some top, { s with tree := kept }, ?_,
      ⟨rfl, .of_leaf (owned.of_same rfl rfl) (congrArg Node.payload node) others,
        .part (.inside bare) copied ⟨chained.linked, chained.ends⟩ ?_ rfl, rfl, dstFrame⟩, rfl, isLeaf, rfl,
      by simp [part]⟩
    · simp only [Surgery.splitLeafLeft, if_pos part, entries, List.drop_left, List.take_left, building, treeEq, keptDef]
    · change s.count = _
      rw [count]
      simp [stored, filledAt, Item.map]

end Starting

section Settling

theorem setPrev_same {idx : NodeIdx} {prev : Option NodeIdx} (same : (tree.node idx).prev = prev) :
    tree.setPrev prev idx = tree := by
  refine (RawBTree.SameFrame.modify tree idx _).ext fun other => ?_
  by_cases isIdx : other = idx
  · subst isIdx
    rw [RawBTree.node_modify_self, ← same]
  · exact RawBTree.node_modify_of_ne _ isIdx

/-- Only links of leaves differ. -/
structure Relinked (t f : RawBTree K V) : Prop where
  nodes : ∀ other, ∃ prev next, f.node other = { t.node other with prev := prev, next := next }
  free : f.arena.free = t.arena.free
  arenaLen : f.arena.len = t.arena.len

theorem Relinked.of_arena (same : f.arena = t.arena) : Relinked t f := by
  have nodes : f.node = t.node := congrArg Arena.nodes same
  exact ⟨fun other => ⟨_, _, by rw [nodes]⟩, by rw [same], by rw [same]⟩

/-- Fillings that fit in leaves and ascend. -/
structure Fillings.Ordered (layout : NodeLayout) (fillings : Fillings K V) : Prop where
  fits : ∀ entries ∈ Item.nodes fillings, entries.length ≤ layout.leafCap
  sorted : Mark.Sorted (fillings.flatMap spread)

/-- What the leaves of a half look like as a tree. -/
structure LeafChain (f : RawBTree K V) (leaves : List NodeIdx) : Prop where
  linked : Linked (fun idx => (f.node idx).prev) (fun idx => (f.node idx).next) none leaves none
  first : f.firstLeaf = leaves.head?
  last : f.lastLeaf = leaves.getLast?

/-- A settled half whose leaves are linked is a tree. -/
theorem Settled.holds (settled : Settled layout t t' depth top height root) (relinked : Relinked t' f)
    (rootEq : f.root = some root) (heightEq : f.height = height)
    (leaf : ∀ leaf ∈ Item.nodes (level t.node top depth), (t.node leaf).isLeaf = true)
    (filledEq : (level t.node top depth).map (filled t.node) = fillings)
    (chain : LeafChain f (Item.nodes (level t.node top depth))) (ordered : fillings.Ordered layout)
    (len : f.len = stored fillings) : Holds layout f (fillings.flatMap spread) := by
  have shape : ∀ other, SameShape t'.node f.node other ∧ (f.node other).parent = (t'.node other).parent ∧
      (f.node other).entries = (t'.node other).entries := by
    intro other
    obtain ⟨prev, next, node⟩ := relinked.nodes other
    exact ⟨⟨by rw [node], by rw [node], by rw [node]⟩, by rw [node], by rw [node]⟩
  obtain ⟨sameLevel, sameUnder⟩ := settled.sub.level_congr fun other _ => (shape other).1
  have crownAt := @Subtree.crownAt _ _ layout f root height [] rootEq ((shape root).2.1.trans settled.orphan)
    (settled.sub.congr settled.owned.nodup_idxs (fun other _ => (shape other).1) fun other _ => (shape other).2.1)
    (settled.keyed.congr fun other _ => (shape other).1)
    (by
      rw [sameUnder, List.append_nil]
      exact settled.owned.of_same relinked.free relinked.arenaLen)
  rw [sameLevel, settled.level_eq, ← heightEq] at crownAt
  have refilled : (level t.node top depth).map (filled f.node) = fillings := by
    rw [← filledEq]
    exact filled_congr fun other _ => (shape other).2.2.trans (Node.entries_of_payload (settled.payload other))
  have marksEq : marks f.node (level t.node top depth) = fillings.flatMap spread := by rw [marks_filled, refilled]
  have entries : (Item.nodes (level t.node top depth)).map (fun idx => (f.node idx).entries) = Item.nodes fillings := by
    rw [← refilled]
    exact (Item.nodes_map _ _ _).symm
  rw [← marksEq]
  refine .rooted ⟨crownAt, ⟨?_, ?_, chain.linked, chain.first, chain.last, ?_, ?_⟩⟩
  · intro idx member
    rw [(shape idx).1.isLeaf, Node.isLeaf_of_payload (settled.payload idx)]
    exact leaf idx member
  · exact fun idx member => ordered.fits _ (entries ▸ List.mem_map_of_mem member)
  · rw [marksEq]
    exact ordered.sorted
  · rw [marksEq, length_spread]
    exact len

/-- The tree over the half that moved. -/
theorem Copied.settles {s : Surgery K V} (edge : CollapseEdge) (copied : Copied layout s.dst depth top fillings counts)
    (chained : Chained s (leavesUnder s.dst.node depth top)) (count : s.count = stored fillings) (enough : depth ≤ fuel)
    (tapers : Tapers counts) (ordered : fillings.Ordered layout) :
    ∃ root height dst, s.dst.settleRoot edge fuel (some top) = .ok (some root, height, dst) ∧
      Holds layout (({ s with dst := dst } : Surgery K V).closeChain.movedTree (some root) height)
        (fillings.flatMap spread) ∧
      (({ s with dst := dst } : Surgery K V).closeChain.movedTree (some root) height).ledger = s.dst.ledger := by
  obtain ⟨root, height, dst, settling, settled⟩ := @settleRoot_settles _ _ layout s.dst depth fuel top edge enough copied.sub
    (copied.hollowed.top tapers) copied.leaf copied.owned
  have linked := chained.linked.congr (fun leaf _ => Node.prev_of_payload (settled.payload leaf))
    fun leaf _ => Node.next_of_payload (settled.payload leaf)
  obtain ⟨first, rest, firstEq⟩ := List.exists_cons_of_ne_nil copied.sub.leaves_ne_nil
  obtain ⟨front, last, lastEq⟩ := List.eq_nil_or_concat (leavesUnder s.dst.node depth top) |>.resolve_left
    copied.sub.leaves_ne_nil
  rw [List.concat_eq_append] at lastEq
  -- the chain of moved leaves is closed at both ends already
  have closed : ({ s with dst := dst } : Surgery K V).closeChain = { s with dst := dst } := by
    have firstLeaf : s.ends.firstLeaf = some first := by rw [chained.ends, firstEq]; rfl
    have chainTail : s.ends.chainTail = some last := by rw [chained.ends, lastEq]; simp
    have firstPrev : (dst.node first).prev = none := by
      rw [firstEq] at linked
      exact linked.1
    have lastNext : (dst.node last).next = none := by
      rw [lastEq] at linked
      simpa using linked.around.2
    rw [Surgery.closeChain]
    simp only [firstLeaf, chainTail, setPrev_same firstPrev, setNext_same lastNext]
  refine ⟨root, height, dst, settling, ?_, ?_⟩
  · rw [closed]
    exact settled.holds (.of_arena rfl) rfl rfl copied.leaf copied.filled
      ⟨linked, congrArg ChainEnds.firstLeaf chained.ends, congrArg ChainEnds.chainTail chained.ends⟩ ordered count
  · rw [closed]
    change dst.ledger = _
    rw [settled.frame]

end Settling

section Kept

theorem Stays.filled (stays : Stays layout tree leaf leafNode t depth top row [] counts) :
    row.map (filled t.node) = row.map (filledAt tree.node leaf leafNode.entries) := by
  refine List.map_congr_left fun item member => ?_
  cases item with
  | sep key => rfl
  | node idx =>
      have entries := Node.entries_of_payload (stays.inside idx (Item.mem_nodes.mpr member))
      simp only [FlatBTree.filled, filledAt, Item.map, entries]
      split <;> rfl

variable (stays : Stays layout tree leaf leafNode t tree.height root row [] counts)
  (rooted : Rooted layout tree root items) (isLeaf : leafNode.isLeaf = true)
  (ordered : Fillings.Ordered layout (row.map (filledAt tree.node leaf leafNode.entries))) (tapers : Tapers counts)
include stays rooted isLeaf ordered tapers

/-- The settled root of the half that stays, and what makes it a tree. -/
theorem Stays.settles (edge : CollapseEdge) (inside : ∀ idx ∈ Item.nodes row, idx ∈ Item.nodes items) :
    ∃ root' height t', t.settleRoot edge tree.height (some root) = .ok (some root', height, t') ∧
      t' = { t with arena := t'.arena } ∧
      (∀ other ∈ Item.nodes row,
        (t'.node other).payload = (if other = leaf then leafNode else tree.node other).payload) ∧
      ∀ f, Relinked t' f → f.root = some root' → f.height = height → LeafChain f (Item.nodes row) →
        f.len = stored (row.map (filledAt tree.node leaf leafNode.entries)) →
        Holds layout f ((row.map (filledAt tree.node leaf leafNode.entries)).flatMap spread) := by
  have leaves : ∀ other ∈ Item.nodes (level t.node root tree.height), (t.node other).isLeaf = true := by
    rw [stays.level_eq]
    intro other member
    rw [Node.isLeaf_of_payload (stays.inside other member)]
    split
    · exact isLeaf
    · exact rooted.row.leaf other (inside other member)
  have owned := stays.owned
  rw [List.append_nil] at owned
  obtain ⟨root', height, t', settling, settled⟩ := @settleRoot_settles _ _ layout t tree.height tree.height root edge le_rfl
    stays.sub (stays.hollowed.top tapers) leaves owned
  refine ⟨root', height, t', settling, settled.frame, fun other member =>
    (settled.payload other).trans (stays.inside other member), fun f relinked rootEq heightEq chain len => ?_⟩
  exact settled.holds relinked rootEq heightEq leaves (by rw [stays.level_eq]; exact stays.filled)
    (by rw [stays.level_eq]; exact chain) ordered len

/-- The left half where it stands. -/
theorem Stays.settlesLeft (itemsEq : items = left ++ .node leaf :: right) {gone : List (KeyObj K)}
    (leftRow : LeftRow leaf (below ≠ []) left row gone) (leafPrev : leafNode.prev = (tree.node leaf).prev) :
    ∃ root' height t' last, t.settleRoot .rightmost tree.height (some root) = .ok (some root', height, t') ∧
      t' = { t with arena := t'.arena } ∧
      (if 0 < below.length then some leaf else (tree.node leaf).prev) = some last ∧
      ∀ len, len = stored (row.map (filledAt tree.node leaf leafNode.entries)) →
        Holds layout { t'.setNext none last with
          root := some root', firstLeaf := tree.firstLeaf, lastLeaf := some last, height := height, len := len }
          ((row.map (filledAt tree.node leaf leafNode.entries)).flatMap spread) := by
  have linked := rooted.row.linked
  have prevLeaf : (tree.node leaf).prev = (Item.nodes left).getLast? := by
    rw [itemsEq, Item.nodes_append, Item.nodes_node] at linked
    simpa using linked.around.1
  -- the leaves that stay are the first ones of the tree
  obtain ⟨rest, split, lastEq, final⟩ : ∃ rest, Item.nodes items = Item.nodes row ++ rest ∧
      (if 0 < below.length then some leaf else (tree.node leaf).prev) = (Item.nodes row).getLast? ∧
      (leaf ∈ Item.nodes row → (Item.nodes row).getLast? = some leaf) := by
    have unique := rooted.nodes_nodup
    cases leftRow with
    | inside divided =>
        refine ⟨Item.nodes right, ?_, ?_, fun _ => ?_⟩
        · rw [itemsEq]
          simp
        · rw [if_pos (List.length_pos_iff.mpr divided)]
          simp
        · simp
    | @between front key whole =>
        refine ⟨leaf :: Item.nodes right, ?_, ?_, fun member => ?_⟩
        · rw [itemsEq]
          simp
        · rw [if_neg fun part => whole (List.length_pos_iff.mp part), prevLeaf]
          simp
        · rw [itemsEq, Item.nodes_append, Item.nodes_append] at unique
          exact absurd rfl ((List.nodup_append.mp unique).2.2 leaf (List.mem_append_left _ member) leaf (by simp))
  obtain ⟨root', height, t', settling, frame, payload, holds⟩ := stays.settles rooted isLeaf ordered tapers .rightmost
    fun idx member => split ▸ List.mem_append_left _ member
  have nonempty : Item.nodes row ≠ [] := by
    have leaves := stays.sub.leaves_ne_nil
    rwa [leavesUnder, stays.level_eq] at leaves
  obtain ⟨last, isLast⟩ := List.getLast?_isSome.mpr nonempty |> Option.isSome_iff_exists.mp
  refine ⟨root', height, t', last, settling, frame, lastEq.trans isLast, fun len lenEq => ?_⟩
  have node : ∀ other, (t'.setNext none last).node other =
      { t'.node other with next := if other = last then none else (t'.node other).next } := by
    intro other
    rw [RawBTree.setNext, RawBTree.node_modify]
    by_cases isLast : other = last <;> simp [isLast]
  refine holds _ ⟨fun other => ⟨_, _, node other⟩, rfl, rfl⟩ rfl rfl ⟨?_, ?_, isLast.symm⟩ lenEq
  · change Linked (fun idx => ((t'.setNext none last).node idx).prev) (fun idx => ((t'.setNext none last).node idx).next)
      none (Item.nodes row) none
    have unique := rooted.nodes_nodup
    rw [split] at linked unique
    refine (Linked.append_iff.mp linked).1.retarget (List.nodup_append.mp unique).1 ?_ ?_ ?_
    · intro cell isCell
      obtain rfl := Option.some.inj (isLast.symm.trans isCell)
      simp [node]
    · intro cell member
      rw [node, Node.prev_of_payload (payload cell member)]
      split
      · next same => rw [same, leafPrev]
      · rfl
    · intro cell member different
      have notLast : cell ≠ last := fun same => different (same ▸ isLast)
      have notLeaf : cell ≠ leaf := fun same => different (same ▸ final (same ▸ member))
      rw [node]
      simp only [if_neg notLast]
      rw [Node.next_of_payload (payload cell member), if_neg notLeaf]
  · change tree.firstLeaf = _
    rw [rooted.row.first, split, List.head?_append_of_ne_nil _ nonempty]

/-- The right half where it stands. -/
theorem Stays.settlesRight (itemsEq : items = left ++ .node leaf :: right) (rowEq : row = .node leaf :: right)
    (leafNext : leafNode.next = (tree.node leaf).next) :
    ∃ root' height t', t.settleRoot .leftmost tree.height (some root) = .ok (some root', height, t') ∧
      t' = { t with arena := t'.arena } ∧
      ∀ len, len = stored (row.map (filledAt tree.node leaf leafNode.entries)) →
        Holds layout { t'.setPrev none leaf with
          root := some root', firstLeaf := some leaf, lastLeaf := tree.lastLeaf, height := height, len := len }
          ((row.map (filledAt tree.node leaf leafNode.entries)).flatMap spread) := by
  have split : Item.nodes items = Item.nodes left ++ Item.nodes row := by
    rw [itemsEq, rowEq, Item.nodes_append]
  have linked := rooted.row.linked
  have unique := rooted.nodes_nodup
  obtain ⟨root', height, t', settling, frame, payload, holds⟩ := stays.settles rooted isLeaf ordered tapers .leftmost
    fun idx member => split ▸ List.mem_append_right _ member
  have first : (Item.nodes row).head? = some leaf := by rw [rowEq]; rfl
  refine ⟨root', height, t', settling, frame, fun len lenEq => ?_⟩
  have node : ∀ other, (t'.setPrev none leaf).node other =
      { t'.node other with prev := if other = leaf then none else (t'.node other).prev } := by
    intro other
    rw [RawBTree.setPrev, RawBTree.node_modify]
    by_cases isLeaf : other = leaf <;> simp [isLeaf]
  refine holds _ ⟨fun other => ⟨_, _, node other⟩, rfl, rfl⟩ rfl rfl ⟨?_, first.symm, ?_⟩ lenEq
  · change Linked (fun idx => ((t'.setPrev none leaf).node idx).prev) (fun idx => ((t'.setPrev none leaf).node idx).next)
      none (Item.nodes row) none
    rw [split] at linked unique
    refine (Linked.append_iff.mp linked).2.reroot (List.nodup_append.mp unique).2.1 ?_ ?_ ?_
    · intro cell isCell
      obtain rfl := Option.some.inj (first.symm.trans isCell)
      simp [node]
    · intro cell member different
      have notLeaf : cell ≠ leaf := fun same => different (same ▸ first)
      rw [node]
      simp only [if_neg notLeaf]
      rw [Node.prev_of_payload (payload cell member), if_neg notLeaf]
    · intro cell member
      rw [node, Node.next_of_payload (payload cell member)]
      split
      · next same => rw [same, leafNext]
      · rfl
  · change tree.lastLeaf = _
    rw [rooted.row.last, split, List.getLast?_append_of_ne_nil]
    rw [rowEq]
    simp

end Kept

section Cases

theorem LeftKept.cases {divided : Prop} {leftBelow : Option NodeIdx} {outside : List NodeIdx} {idx : NodeIdx}
    (kept : LeftKept layout tree leaf leafNode divided t depth idx outside left leftBelow counts) :
    (left = [] ∧ ¬ divided) ∨ ∃ row gone, leftBelow = some idx ∧ LeftRow leaf divided left row gone ∧
      Stays layout tree leaf leafNode t depth idx row outside counts ∧ t.ledger = tree.ledger.dropping gone := by
  cases kept with
  | nothing whole => exact .inl ⟨rfl, whole⟩
  | part leftRow stays ledger => exact .inr ⟨_, _, rfl, leftRow, stays, ledger⟩

theorem LeftMoved.cases {s : Surgery K V} {leftBelow : Option NodeIdx}
    (moved : LeftMoved layout tree leaf below s depth left leftBelow counts) :
    (left = [] ∧ below = []) ∨ ∃ row gone top, leftBelow = some top ∧ LeftRow leaf (below ≠ []) left row gone ∧
      Copied layout s.dst depth top (row.map (filledAt tree.node leaf below)) counts ∧
      Chained s (leavesUnder s.dst.node depth top) ∧ s.count = stored (row.map (filledAt tree.node leaf below)) ∧
      s.tree.ledger = tree.ledger.dropping gone := by
  cases moved with
  | nothing whole => exact .inl ⟨rfl, whole⟩
  | part leftRow copied chained count ledger => exact .inr ⟨_, _, _, rfl, leftRow, copied, chained, count, ledger⟩

end Cases

section Cutting

/-- Two trees that hold what one held, with the objects dropped on the way. -/
structure Halved (layout : NodeLayout) (tree l r : RawBTree K V) (held lower upper : List (Mark K V))
    (gone : List (KeyObj K)) : Prop where
  left : Holds layout l lower
  right : Holds layout r upper
  marks : held = lower ++ (gone.map .sep ++ upper)
  dropped : (l.ledger.dropped ++ r.ledger.dropped).Perm (gone.map KeyObj.id ++ tree.ledger.dropped)
  nextId : l.ledger.nextId = tree.ledger.nextId ∧ r.ledger.nextId = tree.ledger.nextId
  few : gone.length ≤ 1

/-- The marks of both halves. -/
structure CutMarks (tree : RawBTree K V) (left : List (LevelItem K)) (leaf : NodeIdx) (right row : List (LevelItem K))
    (below above : List (KeyObj K × V)) (gone : List (KeyObj K)) : Prop where
  lower : (row.map (filledAt tree.node leaf below)).flatMap spread ++ gone.map .sep =
    marks tree.node left ++ below.map .node
  upper : (((.node leaf :: right) : List (LevelItem K)).map (filledAt tree.node leaf above)).flatMap spread =
    above.map .node ++ marks tree.node right
  few : gone.length ≤ 1

variable (rooted : Rooted layout tree root items) (split : items = left ++ .node leaf :: right)
  (entries : (tree.node leaf).entries = below ++ above)
include rooted split entries

theorem Rooted.leaf_apart : leaf ∉ Item.nodes left ∧ leaf ∉ Item.nodes right := by
  have unique := rooted.nodes_nodup
  rw [split, Item.nodes_append, Item.nodes_node] at unique
  obtain ⟨_, inner, front⟩ := List.nodup_append.mp unique
  exact ⟨fun member => front leaf member leaf List.mem_cons_self rfl, (List.nodup_cons.mp inner).1⟩

theorem Rooted.split_unique {left' right' : List (LevelItem K)}
    (same : left ++ .node leaf :: right = left' ++ .node leaf :: right') : left = left' ∧ right = right' := by
  obtain ⟨inFront, behind⟩ := rooted.leaf_apart split entries
  obtain ⟨front, _, back⟩ := (List.append_cons_inj_of_notMem (fun isIn => inFront (Item.mem_nodes.mpr isIn))
    fun isIn => behind (Item.mem_nodes.mpr isIn)).mp same
  exact ⟨front, back⟩

theorem Rooted.cut {gone : List (KeyObj K)} (leftRow : LeftRow leaf (below ≠ []) left row gone) :
    CutMarks tree left leaf right row below above gone := by
  obtain ⟨inFront, behind⟩ := rooted.leaf_apart split entries
  refine ⟨?_, ?_, ?_⟩
  · cases leftRow with
    | inside divided =>
        rw [List.map_append, map_filledAt inFront, List.flatMap_append, ← marks_filled]
        simp [filledAt, Item.map, spread]
    | @between front key whole =>
        rw [Item.nodes_append] at inFront
        rw [map_filledAt fun member => inFront (List.mem_append_left _ member), ← marks_filled, not_not.mp whole]
        simp [marks_append]
  · rw [List.map_cons, map_filledAt behind, List.flatMap_cons, ← marks_filled]
    simp [filledAt, Item.map, spread]
  · cases leftRow <;> simp

theorem Rooted.marks_cut {gone : List (KeyObj K)} (cut : CutMarks tree left leaf right row below above gone) :
    marks tree.node items = (row.map (filledAt tree.node leaf below)).flatMap spread ++ (gone.map .sep ++
      (((.node leaf :: right) : List (LevelItem K)).map (filledAt tree.node leaf above)).flatMap spread) := by
  rw [← List.append_assoc, cut.lower, cut.upper, split, marks_append, marks_node, entries, List.map_append]
  simp

/-- Both halves fit in leaves and ascend, and together they have all entries. -/
theorem Rooted.cut_ordered {gone : List (KeyObj K)} (leftRow : LeftRow leaf (below ≠ []) left row gone) :
    Fillings.Ordered layout (row.map (filledAt tree.node leaf below)) ∧
      Fillings.Ordered layout (((.node leaf :: right) : List (LevelItem K)).map (filledAt tree.node leaf above)) ∧
      tree.len = stored (row.map (filledAt tree.node leaf below)) +
        stored (((.node leaf :: right) : List (LevelItem K)).map (filledAt tree.node leaf above)) := by
  have marksEq := rooted.marks_cut split entries (rooted.cut split entries leftRow)
  have sorted := rooted.row.sorted
  have len := rooted.row.len
  rw [marksEq] at sorted len
  obtain ⟨lowerSorted, rest, _⟩ := List.pairwise_append.mp sorted
  have fits : ∀ part : List (KeyObj K × V), part.length ≤ (tree.node leaf).entries.length →
      ∀ row' : List (LevelItem K), (∀ idx ∈ Item.nodes row', idx ∈ Item.nodes items) →
      ∀ filling ∈ Item.nodes (row'.map (filledAt tree.node leaf part)), filling.length ≤ layout.leafCap := by
    intro part shorter row' inside filling member
    rw [filledAt, Item.nodes_map] at member
    obtain ⟨idx, isNode, rfl⟩ := List.mem_map.mp member
    have whole := rooted.row.fits idx (inside idx isNode)
    split
    · next same => exact shorter.trans (same ▸ whole)
    · exact whole
  refine ⟨⟨fits below ?_ row ?_, lowerSorted⟩, ⟨fits above ?_ _ ?_, (List.pairwise_append.mp rest).2.1⟩, ?_⟩
  · rw [entries]
    simp
  · intro idx member
    rw [split]
    cases leftRow with
    | inside divided =>
        rw [Item.nodes_append] at member ⊢
        exact (List.mem_append.mp member).elim (fun inFront => List.mem_append_left _ inFront)
          fun isLeaf => List.mem_append_right _ (by simpa using Or.inl (List.mem_singleton.mp isLeaf))
    | between whole =>
        rw [Item.nodes_append, Item.nodes_append]
        exact List.mem_append_left _ (List.mem_append_left _ member)
  · rw [entries]
    simp
  · intro idx member
    rw [split, Item.nodes_append]
    exact List.mem_append_right _ member
  · have noEntries : Item.nodes (gone.map .sep : List (Mark K V)) = [] := by simp [Item.nodes]
    rw [len, Item.nodes_append, Item.nodes_append, List.length_append, length_spread, noEntries, List.nil_append,
      length_spread]

/-- Cut at a slot of a leaf, the right half moving. -/
theorem Rooted.surgeryRight_halves {path : PathBuf} (pathEq : tree.pathToNode tree.height leaf = .ok path)
    (leads : PathTo tree.node root tree.height leaf path) (inside : ¬ (tree.firstLeaf = some leaf ∧ below.length = 0))
    (tapersLeft : Tapers (leftCounts (decide (0 < below.length)) path)) (tapersRight : Tapers (rightCounts tree.node path)) :
    ∃ l r lower upper gone, tree.surgeryRight leaf below.length = .ok (l, r) ∧
      Halved layout tree l r (marks tree.node items) lower upper gone ∧
      lower ++ gone.map .sep = marks tree.node left ++ below.map .node ∧
      upper = above.map .node ++ marks tree.node right := by
  have member : leaf ∈ Item.nodes items := by rw [split]; simp
  have onLevel : leaf ∈ Item.nodes (level tree.node root tree.height) := by rw [rooted.crownAt.level_eq]; exact member
  obtain ⟨outside, whole⟩ := rooted.elsewhere (Nat.add_zero _) onLevel
  obtain ⟨leafNode, leftBelow, top, s, starting, halves, leafEntries, isLeaf, leafPrev, present⟩ :=
    splitLeafRight_halves rooted member entries whole tree.height
  obtain ⟨leftTop, rightTop, s', left', right', walked, halves'⟩ :=
    splitPathRight_halves rooted (Nat.add_zero _) leads onLevel whole halves
  rw [present, List.nil_append, List.nil_append] at halves'
  have levelEq : level tree.node root tree.height = left ++ .node leaf :: right := rooted.crownAt.level_eq.trans split
  obtain ⟨rfl, rfl⟩ := rooted.split_unique split entries (levelEq.symm.trans halves'.level_eq)
  rcases halves'.kept.cases with ⟨rfl, isWhole⟩ | ⟨row, gone, rfl, leftRow, stays, ledger⟩
  · refine absurd ⟨?_, List.length_eq_zero_iff.mpr (not_not.mp isWhole)⟩ inside
    rw [rooted.row.first, split]
    rfl
  obtain ⟨lowerOrdered, upperOrdered, len⟩ := rooted.cut_ordered split entries leftRow
  have cut := rooted.cut split entries leftRow
  obtain ⟨leftRoot, leftHeight, t', last, settling, frame, isLast, leftHolds⟩ := stays.settlesLeft rooted isLeaf
    (by rw [leafEntries]; exact lowerOrdered) tapersLeft split leftRow leafPrev
  obtain ⟨rightRoot, rightHeight, dst, settling', rightHolds, ledger'⟩ := halves'.copied.settles .leftmost halves'.chained
    halves'.count le_rfl tapersRight upperOrdered
  rw [leafEntries] at leftHolds
  have treeFrame := halves'.frame
  have firstLeaf : t'.firstLeaf = tree.firstLeaf := by rw [frame, treeFrame]
  have count : t'.len - s'.count = stored (row.map (filledAt tree.node leaf below)) := by
    have whole : t'.len = tree.len := by rw [frame, treeFrame]
    rw [whole, len, halves'.count, Nat.add_sub_cancel]
  refine ⟨_, _, _, _, gone, ?_, ⟨leftHolds _ count, rightHolds, rooted.marks_cut split entries cut, ?_, ?_, cut.few⟩,
    cut.lower, cut.upper⟩
  · simp only [RawBTree.surgeryRight, pathEq, bind, Except.bind, starting, walked, settling, isLast, settling',
      pure, Except.pure]
    rw [← firstLeaf]
    rfl
  · change (List.Perm (t'.ledger.dropped ++ _) _)
    rw [frame, ledger, ledger', halves'.dstFrame]
    exact (List.append_nil _).symm ▸ List.Perm.refl _
  · refine ⟨?_, ?_⟩
    · change t'.ledger.nextId = _
      rw [frame, ledger]
      rfl
    · rw [ledger', halves'.dstFrame]
      rfl

/-- Cut at a slot of a leaf, the left half moving. -/
theorem Rooted.surgeryLeft_halves {path : PathBuf} (pathEq : tree.pathToNode tree.height leaf = .ok path)
    (leads : PathTo tree.node root tree.height leaf path) (inside : ¬ (tree.firstLeaf = some leaf ∧ below.length = 0))
    (tapersLeft : Tapers (leftCounts (decide (0 < below.length)) path)) (tapersRight : Tapers (rightCounts tree.node path)) :
    ∃ l r lower upper gone, tree.surgeryLeft leaf below.length = .ok (l, r) ∧
      Halved layout tree l r (marks tree.node items) lower upper gone ∧
      lower ++ gone.map .sep = marks tree.node left ++ below.map .node ∧
      upper = above.map .node ++ marks tree.node right := by
  have member : leaf ∈ Item.nodes items := by rw [split]; simp
  have onLevel : leaf ∈ Item.nodes (level tree.node root tree.height) := by rw [rooted.crownAt.level_eq]; exact member
  obtain ⟨outside, whole⟩ := rooted.elsewhere (Nat.add_zero _) onLevel
  obtain ⟨leafNode, leftBelow, s, starting, halves, leafEntries, isLeaf, leafNext, present⟩ :=
    splitLeafLeft_halves rooted member entries whole
  obtain ⟨leftTop, s', left', right', walked, halves'⟩ :=
    splitPathLeft_halves rooted (Nat.add_zero _) leads onLevel whole halves
  rw [present, List.nil_append, List.nil_append] at halves'
  have levelEq : level tree.node root tree.height = left ++ .node leaf :: right := rooted.crownAt.level_eq.trans split
  obtain ⟨rfl, rfl⟩ := rooted.split_unique split entries (levelEq.symm.trans halves'.level_eq)
  rcases halves'.moved.cases with ⟨rfl, isWhole⟩ | ⟨row, gone, top, rfl, leftRow, copied, chained, moved, ledger⟩
  · refine absurd ⟨?_, List.length_eq_zero_iff.mpr isWhole⟩ inside
    rw [rooted.row.first, split]
    rfl
  obtain ⟨lowerOrdered, upperOrdered, len⟩ := rooted.cut_ordered split entries leftRow
  have cut := rooted.cut split entries leftRow
  obtain ⟨rightRoot, rightHeight, t', settling, frame, rightHolds⟩ := halves'.stays.settlesRight rooted isLeaf
    (by rw [leafEntries]; exact upperOrdered) tapersRight split rfl leafNext
  obtain ⟨leftRoot, leftHeight, dst, settling', leftHolds, ledger'⟩ := copied.settles .rightmost chained moved le_rfl
    tapersLeft lowerOrdered
  rw [leafEntries] at rightHolds
  have treeFrame := halves'.frame
  have lastLeaf : t'.lastLeaf = tree.lastLeaf := by rw [frame, treeFrame]
  have count : t'.len - s'.count =
      stored (((.node leaf :: right) : List (LevelItem K)).map (filledAt tree.node leaf above)) := by
    have whole : t'.len = tree.len := by rw [frame, treeFrame]
    rw [whole, len, moved, Nat.add_sub_cancel_left]
  refine ⟨_, _, _, _, gone, ?_, ⟨leftHolds, rightHolds _ count, rooted.marks_cut split entries cut, ?_, ?_, cut.few⟩,
    cut.lower, cut.upper⟩
  · simp only [RawBTree.surgeryLeft, pathEq, bind, Except.bind, starting, walked, settling, settling', pure, Except.pure]
    rw [← lastLeaf]
    rfl
  · rw [ledger', halves'.dstFrame]
    change List.Perm t'.ledger.dropped _
    rw [frame, ledger]
    exact List.Perm.refl _
  · refine ⟨?_, ?_⟩
    · rw [ledger', halves'.dstFrame]
      rfl
    · change t'.ledger.nextId = _
      rw [frame, ledger]
      rfl

end Cutting

end Optimap.FlatBTree
