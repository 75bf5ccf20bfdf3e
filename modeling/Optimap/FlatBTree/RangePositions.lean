import Optimap.FlatBTree.Retain
import Optimap.FlatBTree.BulkRefinement

/-!
# Where bounds resolve to

`lower_bound` is led to the leaf that parts the keys below its key from the
others, and looks at one leaf more. Unless that one is empty, it finds the place
of the key in the chain.
-/

set_option autoImplicit false
set_option linter.unusedSectionVars false

namespace Optimap.FlatBTree

open Lib

variable {K V : Type} [LinearOrder K] {layout : NodeLayout} {tree : RawBTree K V} {root : NodeIdx}
  {items : List (LevelItem K)}

/-- What walking needs of a tree: levels that can be searched, over a chained row
of leaves. -/
structure Standing (layout : NodeLayout) (tree : RawBTree K V) (root : NodeIdx) (items : List (LevelItem K)) :
    Prop where
  readable : Readable tree root items
  row : LeafRow layout tree items
  owned : Owned tree.arena (above tree.node root tree.height ++ Item.nodes items)

theorem Rooted.standing (rooted : Rooted layout tree root items) : Standing layout tree root items := by
  refine ⟨rooted.readable, rooted.row, ?_⟩
  have owned := rooted.crownAt.owned
  rw [List.append_nil] at owned
  exact owned

theorem Packed.standing {pairs : List (K × V)} (packed : Packed layout tree root items pairs) :
    Standing layout tree root items := ⟨packed.readable, packed.row, packed.owned⟩

theorem Standing.nodes_nodup (standing : Standing layout tree root items) : (Item.nodes items).Nodup :=
  standing.owned.nodup_idxs.sublist (List.sublist_append_right _ _)

theorem Standing.length_le (standing : Standing layout tree root items) :
    (Item.nodes items).length ≤ tree.arena.len := by
  have bound := standing.owned.length_le
  rw [List.length_append] at bound
  omega

section LowerBound

/-- The leaf where the separators part the keys below `key` from the others. -/
structure LowerLanding (tree : RawBTree K V) (items : List (LevelItem K)) (key : K)
    (left : List (LevelItem K)) (leaf : NodeIdx) (right : List (LevelItem K)) : Prop where
  split : items = left ++ .node leaf :: right
  below : ∀ mark ∈ marks tree.node left, mark.object.key < key
  above : ∀ mark ∈ marks tree.node right, key ≤ mark.object.key

theorem Readable.lowerLanding {key : K} {left right : List (LevelItem K)} {leaf : NodeIdx}
    (readable : Readable tree root items) (split : items = left ++ .node leaf :: right)
    (parted : Parted (· < key) left right) : LowerLanding tree items key left leaf right := by
  have sorted := readable.sorted
  refine ⟨split, ?_, ?_⟩
  · rcases parted.left with rfl | ⟨front, separator, rfl, small⟩
    · simp
    · rw [split] at sorted
      simp only [marks_append, marks_sep, marks_nil, List.append_assoc, List.cons_append,
        List.nil_append] at sorted ⊢
      intro mark member
      exact lt_of_le_of_lt (Mark.Below.le (sorted.below_of_sep le_rfl mark member)) small
  · rcases parted.right with rfl | ⟨separator, back, rfl, large⟩
    · simp
    · rw [split] at sorted
      simp only [marks_append, marks_node, marks_sep] at sorted ⊢
      obtain ⟨_, inner, _⟩ := List.pairwise_append.mp sorted
      obtain ⟨_, upper, _⟩ := List.pairwise_append.mp inner
      intro mark member
      rcases List.mem_cons.mp member with rfl | inside
      · exact not_lt.mp large
      · exact le_trans (not_lt.mp large) ((List.pairwise_cons.mp upper).1 mark inside)

theorem Readable.lowerLeaf_lands (readable : Readable tree root items) (key : K) :
    ∃ leaf left right, tree.lowerLeaf key root = .ok leaf ∧ LowerLanding tree items key left leaf right := by
  have lands : ∀ choose : List (KeyObj K) → Nat,
      (∀ keys, choose keys = keys.findIdx fun object => decide (¬ object.key < key)) →
      ∃ leaf left right, tree.descend choose tree.height root = .ok leaf ∧
        LowerLanding tree items key left leaf right := by
    intro choose agrees
    obtain ⟨leaf, left, right, landed, split, parted⟩ :=
      @descend_lands _ _ _ tree root (· < key) _ 0 root [] [] choose agrees tree.height
        (by rw [Nat.zero_add]; exact readable.paired) rfl ⟨.inl rfl, .inl rfl⟩
    rw [Nat.zero_add, readable.level_eq] at split
    exact ⟨leaf, left, right, landed, readable.lowerLanding split parted⟩
  rw [RawBTree.lowerLeaf]
  split
  · exact lands _ fun keys => by simp only [not_lt]
  · exact lands _ (partitionPoint_eq_findIdx (· < key))

/-- The slots of a leaf on both sides of a key. -/
theorem lowerSlot_split (tree : RawBTree K V) (key : K) (entries : List (KeyObj K × V)) :
    ∃ below above, entries = below ++ above ∧ tree.lowerSlot key entries = below.length ∧
      (∀ entry ∈ below, entry.1.key < key) ∧ ∀ entry ∈ above.head?, key ≤ entry.1.key := by
  have slot : tree.lowerSlot key entries =
      (entries.map Prod.fst).findIdx fun object => decide (¬ object.key < key) := by
    rw [RawBTree.lowerSlot]
    split
    · rw [List.findIdx_map]
      simp only [Function.comp_def, not_lt]
    · refine Eq.trans ?_ (partitionPoint_eq_findIdx (· < key) (entries.map Prod.fst))
      rw [RawBTree.partitionPoint, RawBTree.partitionPoint, List.takeWhile_map, List.length_map]
      rfl
  obtain ⟨before, after, keysEq, index, lower, upper⟩ := findIdx_split (· < key) (entries.map Prod.fst)
  obtain ⟨below, above, rfl, rfl, rfl⟩ := List.map_eq_append_iff.mp keysEq
  refine ⟨below, above, rfl, by rw [slot, index, List.length_map], ?_, ?_⟩
  · exact fun entry member => lower entry.1 (List.mem_map_of_mem member)
  · intro entry isHead
    refine not_lt.mp (upper entry.1 ?_)
    rw [List.head?_map, isHead]
    rfl

/-- The search for `key` stops at an empty leaf: nothing from `key` on is in the
leaf it is led to, and the next leaf is empty. -/
def Overlooks (tree : RawBTree K V) (key : K) : Prop :=
  ∃ root leaf next, tree.root = some root ∧ tree.lowerLeaf key root = .ok leaf ∧
    (∀ entry ∈ (tree.node leaf).entries, entry.1.key < key) ∧ (tree.node leaf).next = some next ∧
    (tree.node next).entries = []

/-- The slot of the first key from `key` on. -/
structure LowerHit (tree : RawBTree K V) (items : List (LevelItem K)) (key : K) (left : List (LevelItem K))
    (leaf : NodeIdx) (right : List (LevelItem K)) (below : List (KeyObj K × V)) (entry : KeyObj K × V)
    (above : List (KeyObj K × V)) : Prop where
  hit : Hit tree items left leaf right below entry above
  lower : ∀ other ∈ Item.nodes (marks tree.node left) ++ below, other.1.key < key
  upper : key ≤ entry.1.key

theorem mem_nodes_marks {heap : Heap K V} {row : List (LevelItem K)} {entry : KeyObj K × V}
    (member : entry ∈ Item.nodes (marks heap row)) : .node entry ∈ marks heap row :=
  Item.mem_nodes.mp member

/-- What `lower_bound` finds. -/
theorem Standing.lowerBound_cases (standing : Standing layout tree root items) (key : K) :
    (∃ left leaf right below entry above, LowerHit tree items key left leaf right below entry above ∧
      tree.lowerBound key = .ok (some (leaf, below.length)) ∧ ¬ Overlooks tree key) ∨
    (tree.lowerBound key = .ok none ∧ ¬ Overlooks tree key ∧
      ∀ entry ∈ Item.nodes (marks tree.node items), entry.1.key < key) ∨
    (tree.lowerBound key = .ok none ∧ Overlooks tree key) := by
  have rootEq := standing.readable.root_eq
  obtain ⟨leaf, left, right, landed, landing⟩ := standing.readable.lowerLeaf_lands key
  obtain ⟨below, above, entriesEq, slot, lower, upper⟩ := lowerSlot_split tree key (tree.node leaf).entries
  have outside : ∀ other ∈ Item.nodes (marks tree.node left), other.1.key < key :=
    fun other member => landing.below _ (mem_nodes_marks member)
  have linked := standing.row.linked
  rw [landing.split, Item.nodes_append, Item.nodes_node] at linked
  have next := linked.around.2
  rw [Option.or_none] at next
  have sole : ∀ {other}, Overlooks tree key → (tree.node leaf).next = other →
      above = [] ∧ ∃ idx, other = some idx ∧ (tree.node idx).entries = [] := by
    rintro other ⟨root', leaf', idx, rootEq', landed', small, nextEq, empty⟩ rfl
    rw [rootEq] at rootEq'
    obtain rfl := Option.some.inj rootEq'
    rw [landed] at landed'
    obtain rfl := Except.ok.inj landed'
    refine ⟨?_, idx, nextEq, empty⟩
    cases above with
    | nil => rfl
    | cons entry above =>
        have large := upper entry rfl
        exact absurd (small entry (by rw [entriesEq]; simp)) (not_lt.mpr large)
  have opened : tree.lowerBound key = if below.length < (tree.node leaf).entries.length then
      .ok (some (leaf, below.length)) else
        (tree.node leaf).next.elim (.ok none) fun next =>
          if 0 < (tree.node next).entries.length then .ok (some (next, 0)) else .ok none := by
    rw [RawBTree.lowerBound, rootEq]
    simp only [landed, bind, Except.bind, slot]
    cases (tree.node leaf).next <;> rfl
  cases above with
  | cons entry above =>
      refine .inl ⟨left, leaf, right, below, entry, above, ⟨⟨landing.split, entriesEq⟩, ?_, upper entry rfl⟩,
        ?_, ?_⟩
      · intro other member
        rcases List.mem_append.mp member with outer | inner
        · exact outside other outer
        · exact lower other inner
      · rw [opened, if_pos (by rw [entriesEq]; simp)]
      · intro overlooks
        exact absurd (sole overlooks rfl).1 (by simp)
  | nil =>
      rw [List.append_nil] at entriesEq
      have noSlot : ¬ below.length < (tree.node leaf).entries.length := by rw [entriesEq]; simp
      rw [opened, if_neg noSlot]
      have row := landing.split
      cases nodesRight : Item.nodes right with
      | nil =>
          rw [nodesRight] at next
          have last : (tree.node leaf).next = none := next
          rw [last]
          refine .inr (.inl ⟨rfl, fun overlooks => ?_, fun entry member => ?_⟩)
          · obtain ⟨_, idx, isSome, _⟩ := sole overlooks last
            simp at isSome
          · rw [row, nodes_marks, Item.nodes_append, Item.nodes_node, nodesRight, List.flatMap_append,
              List.flatMap_cons, List.flatMap_nil, List.append_nil, entriesEq] at member
            rcases List.mem_append.mp member with outer | inner
            · rw [← nodes_marks] at outer
              exact outside entry outer
            · exact lower entry inner
      | cons idx others =>
          rw [nodesRight] at next
          have nextEq : (tree.node leaf).next = some idx := next
          rw [nextEq, Option.elim_some]
          obtain ⟨front, back, rightEq, frontNodes, _⟩ := @Item.nodes_split _ _ right [] others idx nodesRight
          cases entriesNext : (tree.node idx).entries with
          | nil =>
              rw [if_neg (by simp)]
              refine .inr (.inr ⟨rfl, root, leaf, idx, rootEq, landed, ?_, nextEq, entriesNext⟩)
              rw [entriesEq]
              exact lower
          | cons entry above =>
              rw [if_pos (by simp)]
              refine .inl ⟨left ++ .node leaf :: front, idx, back, [], entry, above,
                ⟨⟨?_, entriesNext⟩, ?_, ?_⟩, rfl, ?_⟩
              · rw [row, rightEq]
                simp
              · intro other member
                rw [List.append_nil, nodes_marks, Item.nodes_append, Item.nodes_node, frontNodes,
                  List.flatMap_append, List.flatMap_cons, List.flatMap_nil, List.append_nil, entriesEq] at member
                rcases List.mem_append.mp member with outer | inner
                · rw [← nodes_marks] at outer
                  exact outside other outer
                · exact lower other inner
              · refine landing.above (.node entry) ?_
                rw [rightEq, marks_append, marks_node, entriesNext]
                simp
              · intro overlooks
                obtain ⟨_, other, isSome, empty⟩ := sole overlooks nextEq
                obtain rfl := Option.some.inj isSome
                rw [entriesNext] at empty
                simp at empty

end LowerBound

section Positions

/-- The leaves from left to right. -/
def RawBTree.leaves (tree : RawBTree K V) : List NodeIdx :=
  match tree.root with
  | none => []
  | some root => Item.nodes (level tree.node root tree.height)

/-- The leaf of the first stored key from `key` on, or, for the place behind `key`
itself, the next leaf if `key` is the last one in its leaf. -/
def RawBTree.anchor (tree : RawBTree K V) (behind : Bool) (key : K) : Option NodeIdx :=
  match tree.leaves.find? fun leaf => (tree.node leaf).entries.any fun entry => key ≤ entry.1.key with
  | none => none
  | some leaf =>
      if behind ∧ (tree.node leaf).entries.getLast?.map (fun entry => entry.1.key) = some key then
        (tree.node leaf).next
      else some leaf

/-- A position between the entries of the chain. -/
inductive Splits (tree : RawBTree K V) (leaves : List NodeIdx) :
    Position → List (KeyObj K × V) → List (KeyObj K × V) → Prop where
  | finish : Splits tree leaves (none, 0) (chainEntries tree leaves) []
  | inside {before after : List NodeIdx} {leaf : NodeIdx} {idx : Nat} (split : leaves = before ++ leaf :: after)
      (bound : idx ≤ (tree.node leaf).entries.length) :
      Splits tree leaves (some leaf, idx) (chainEntries tree before ++ (tree.node leaf).entries.take idx)
        ((tree.node leaf).entries.drop idx ++ chainEntries tree after)

theorem chainEntries_append (left right : List NodeIdx) :
    chainEntries tree (left ++ right) = chainEntries tree left ++ chainEntries tree right := by
  simp [chainEntries]

theorem Splits.whole {leaves : List NodeIdx} {pos : Position} {passed rest : List (KeyObj K × V)}
    (splits : Splits tree leaves pos passed rest) : chainEntries tree leaves = passed ++ rest := by
  cases splits with
  | finish => simp
  | inside split bound =>
      rw [split, chainEntries_append, chainEntries_cons, List.append_assoc, ← List.append_assoc (List.take _ _),
        List.take_append_drop]

variable {key : K} {left right : List (LevelItem K)} {leaf : NodeIdx} {below above : List (KeyObj K × V)}
  {entry : KeyObj K × V}

theorem LowerHit.upper_lt (standing : Standing layout tree root items)
    (lowerHit : LowerHit tree items key left leaf right below entry above) :
    ∀ other ∈ above ++ chainEntries tree (Item.nodes right), entry.1.key < other.1.key := by
  have sorted := standing.row.sorted
  rw [lowerHit.hit.marks_eq] at sorted
  intro other member
  refine sorted.around.2 (.node other) ?_
  rcases List.mem_append.mp member with inner | outer
  · exact List.mem_append_left _ (List.mem_map_of_mem inner)
  · rw [chainEntries, ← nodes_marks] at outer
    exact List.mem_append_right _ (Item.mem_nodes.mp outer)

theorem LowerHit.splits (lowerHit : LowerHit tree items key left leaf right below entry above) :
    Splits tree (Item.nodes items) (some leaf, below.length) (chainEntries tree (Item.nodes left) ++ below)
      (entry :: above ++ chainEntries tree (Item.nodes right)) := by
  have entriesEq := lowerHit.hit.entries
  have inside := @Splits.inside _ _ tree (Item.nodes items) (Item.nodes left) (Item.nodes right) leaf below.length
    (by rw [lowerHit.hit.split]; simp) (by rw [entriesEq]; simp)
  rw [entriesEq, List.take_left, List.drop_left] at inside
  exact inside

theorem LowerHit.next_eq (standing : Standing layout tree root items)
    (lowerHit : LowerHit tree items key left leaf right below entry above) :
    (tree.node leaf).next = (Item.nodes right).head? := by
  have linked := standing.row.linked
  rw [lowerHit.hit.split, Item.nodes_append, Item.nodes_node] at linked
  exact linked.around.2.trans Option.or_none

/-- The position behind the entry found. -/
theorem LowerHit.splits_after (standing : Standing layout tree root items)
    (lowerHit : LowerHit tree items key left leaf right below entry above) :
    Splits tree (Item.nodes items)
      (if below.length + 1 < (tree.node leaf).entries.length then (some leaf, below.length + 1)
        else ((tree.node leaf).next, 0))
      (chainEntries tree (Item.nodes left) ++ below ++ [entry])
      (above ++ chainEntries tree (Item.nodes right)) := by
  have entriesEq := lowerHit.hit.entries
  have rowEq : Item.nodes items = Item.nodes left ++ leaf :: Item.nodes right := by
    rw [lowerHit.hit.split]; simp
  have whole : (tree.node leaf).entries = (below ++ [entry]) ++ above := by
    rw [entriesEq]; simp
  split
  · next more =>
      have inside := @Splits.inside _ _ tree (Item.nodes items) (Item.nodes left) (Item.nodes right) leaf
        (below.length + 1) rowEq (by omega)
      have lengths : below.length + 1 = (below ++ [entry]).length := by simp
      rw [whole, lengths, List.take_left, List.drop_left, ← List.append_assoc, ← lengths] at inside
      exact inside
  · next last =>
      have noneAbove : above = [] := by
        rw [entriesEq] at last
        simp only [List.length_append, List.length_cons] at last
        exact List.length_eq_zero_iff.mp (by omega)
      subst noneAbove
      rw [lowerHit.next_eq standing, List.nil_append]
      cases nodesRight : Item.nodes right with
      | nil =>
          have atEnd := @Splits.finish _ _ tree (Item.nodes items)
          rw [rowEq, nodesRight, chainEntries_append, chainEntries_cons, whole] at atEnd
          rw [rowEq, nodesRight]
          simpa [chainEntries] using atEnd
      | cons next others =>
          have inside := @Splits.inside _ _ tree (Item.nodes items) (Item.nodes left ++ [leaf]) others next 0
            (by rw [rowEq, nodesRight]; simp) (Nat.zero_le _)
          rw [chainEntries_append, chainEntries_cons, whole] at inside
          simpa [chainEntries] using inside

theorem LowerHit.anchor_eq (standing : Standing layout tree root items)
    (lowerHit : LowerHit tree items key left leaf right below entry above) (behind : Bool) :
    tree.anchor behind key =
      if behind ∧ entry.1.key = key ∧ ¬ below.length + 1 < (tree.node leaf).entries.length then
        (tree.node leaf).next else some leaf := by
  have entriesEq := lowerHit.hit.entries
  have leavesEq : tree.leaves = Item.nodes left ++ leaf :: Item.nodes right := by
    rw [RawBTree.leaves, standing.readable.root_eq]
    simp only
    rw [standing.readable.level_eq, lowerHit.hit.split]
    simp
  have found : (tree.leaves.find? fun leaf => (tree.node leaf).entries.any fun entry => key ≤ entry.1.key) =
      some leaf := by
    rw [leavesEq, List.find?_append, List.find?_eq_none.mpr, Option.none_or, List.find?_cons_of_pos]
    · rw [List.any_eq_true]
      exact ⟨entry, by rw [entriesEq]; simp, by simpa using lowerHit.upper⟩
    · intro idx member
      rw [List.any_eq_true]
      rintro ⟨other, stored, large⟩
      have small := lowerHit.lower other (List.mem_append_left _ (by
        rw [nodes_marks]
        exact List.mem_flatMap.mpr ⟨idx, member, stored⟩))
      exact absurd small (not_lt.mpr (by simpa using large))
  have lastKey : (tree.node leaf).entries.getLast?.map (fun entry => entry.1.key) = some key ↔
      entry.1.key = key ∧ ¬ below.length + 1 < (tree.node leaf).entries.length := by
    have later := lowerHit.upper_lt standing
    rw [entriesEq]
    rcases List.eq_nil_or_concat above with rfl | ⟨front, last, rfl⟩
    · simp
    · rw [List.concat_eq_append] at later ⊢
      have larger := later last (by simp)
      have different : last.1.key ≠ key := (lt_of_le_of_lt lowerHit.upper larger).ne'
      have shape : below ++ entry :: (front ++ [last]) = (below ++ entry :: front) ++ [last] := by simp
      rw [shape, List.getLast?_concat]
      simp [different]
  rw [RawBTree.anchor, found]
  simp only [lastKey]

theorem anchor_none (standing : Standing layout tree root items) (behind : Bool)
    (small : ∀ entry ∈ Item.nodes (marks tree.node items), entry.1.key < key) :
    tree.anchor behind key = none := by
  have missing : (tree.leaves.find? fun leaf => (tree.node leaf).entries.any fun entry => key ≤ entry.1.key) =
      none := by
    rw [List.find?_eq_none]
    intro idx member
    rw [List.any_eq_true]
    rintro ⟨other, stored, large⟩
    rw [RawBTree.leaves, standing.readable.root_eq] at member
    simp only at member
    rw [standing.readable.level_eq] at member
    have below := small other (by rw [nodes_marks]; exact List.mem_flatMap.mpr ⟨idx, member, stored⟩)
    exact absurd below (not_lt.mpr (by simpa using large))
  rw [RawBTree.anchor, missing]

/-- Where a search resolves to, when it does not stop at an empty leaf. -/
structure Resolved (tree : RawBTree K V) (leaves : List NodeIdx) (low : K → Prop) (pos : Position)
    (passed rest : List (KeyObj K × V)) : Prop where
  splits : Splits tree leaves pos passed rest
  passed_low : ∀ entry ∈ passed, low entry.1.key
  rest_high : ∀ entry ∈ rest, ¬ low entry.1.key

theorem Standing.position_resolved (standing : Standing layout tree root items) (sound : ¬ Overlooks tree key) :
    ∃ found passed rest, tree.lowerBound key = .ok found ∧ (RawBTree.position found).1 = tree.anchor false key ∧
      Resolved tree (Item.nodes items) (· < key) (RawBTree.position found) passed rest := by
  rcases standing.lowerBound_cases key with ⟨left, leaf, right, below, entry, above, lowerHit, found, _⟩ |
    ⟨found, _, small⟩ | ⟨_, overlooks⟩
  · refine ⟨_, _, _, found, ?_, lowerHit.splits, ?_, fun other member => ?_⟩
    · rw [lowerHit.anchor_eq standing]
      simp [RawBTree.position]
    · rw [chainEntries, ← nodes_marks]
      exact lowerHit.lower
    · rcases List.mem_cons.mp member with rfl | later
      · exact not_lt.mpr lowerHit.upper
      · exact not_lt.mpr (lowerHit.upper.trans (lowerHit.upper_lt standing other later).le)
  · refine ⟨none, _, [], found, (anchor_none standing false small).symm, .finish, ?_, by simp⟩
    rw [chainEntries, ← nodes_marks]
    exact small
  · exact absurd overlooks sound

theorem Standing.positionAfter_resolved (standing : Standing layout tree root items) (sound : ¬ Overlooks tree key) :
    ∃ found pos passed rest, tree.lowerBound key = .ok found ∧ tree.positionAfter key found = .ok pos ∧
      pos.1 = tree.anchor true key ∧ Resolved tree (Item.nodes items) (· ≤ key) pos passed rest := by
  rcases standing.lowerBound_cases key with ⟨left, leaf, right, below, entry, above, lowerHit, found, _⟩ |
    ⟨found, _, small⟩ | ⟨_, overlooks⟩
  · have read : readSlot (tree.node leaf).entries below.length = .ok entry := by
      simp [readSlot, lowerHit.hit.entries]
    have lower : ∀ other ∈ chainEntries tree (Item.nodes left) ++ below, other.1.key < key := by
      rw [chainEntries, ← nodes_marks]
      exact lowerHit.lower
    by_cases same : entry.1.key = key
    · refine ⟨_, _, _, _, found, ?_, ?_, lowerHit.splits_after standing, fun other member => ?_,
        fun other member => ?_⟩
      · simp only [RawBTree.positionAfter, read, bind, Except.bind, same, if_true]
        split <;> rfl
      · rw [lowerHit.anchor_eq standing]
        simp only [same, true_and]
        split <;> simp
      · rcases List.mem_append.mp member with before | isEntry
        · exact (lower other before).le
        · rw [List.mem_singleton.mp isEntry]
          exact same.le
      · rw [← same]
        exact not_le.mpr (lowerHit.upper_lt standing other member)
    · refine ⟨_, _, _, _, found, ?_, ?_, lowerHit.splits, fun other member => (lower other member).le,
        fun other member => ?_⟩
      · simp only [RawBTree.positionAfter, read, bind, Except.bind, if_neg same]
        rfl
      · rw [lowerHit.anchor_eq standing]
        simp [same]
      · have larger := lt_of_le_of_ne lowerHit.upper (Ne.symm same)
        rcases List.mem_cons.mp member with rfl | later
        · exact not_le.mpr larger
        · exact not_le.mpr (larger.trans (lowerHit.upper_lt standing other later))
  · refine ⟨none, (none, 0), _, [], found, rfl, (anchor_none standing true small).symm, .finish, ?_, by simp⟩
    rw [chainEntries, ← nodes_marks]
    exact fun entry member => (small entry member).le
  · exact absurd overlooks sound

theorem Standing.lowerBound_overlooks (standing : Standing layout tree root items) (overlooks : Overlooks tree key) :
    tree.lowerBound key = .ok none := by
  rcases standing.lowerBound_cases key with ⟨_, _, _, _, _, _, _, _, sound⟩ | ⟨found, _⟩ | ⟨found, _⟩
  · exact absurd overlooks sound
  · exact found
  · exact found

end Positions

end Optimap.FlatBTree
