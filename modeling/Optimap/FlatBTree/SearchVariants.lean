import Optimap.Lib.BinarySearch
import Optimap.FlatBTree.RangeLaw

/-!
# The variants of searching

Shallow trees are scanned, taller ones searched with the standard library's binary
search, and the operations for keys that need only be comparable for equality walk
the whole chain of leaves. They all end at the same slot.
-/

set_option autoImplicit false
set_option linter.unusedSectionVars false

namespace Optimap.FlatBTree

open Lib

variable {K V : Type}

namespace RawBTree

section Scans
variable [DecidableEq K]

/-- The walk along the chain that the scanning operations share. -/
def findByEq (tree : RawBTree K V) (key : K) : Nat → Option NodeIdx → Result (Option (NodeIdx × Nat))
  | _, none => .ok none
  | 0, some _ => .error .endless
  | fuel + 1, some leaf =>
      match (tree.node leaf).entries.findIdx? fun entry => entry.1.key = key with
      | some slot => .ok (some (leaf, slot))
      | none => findByEq tree key fuel (tree.node leaf).next

def getByEq (tree : RawBTree K V) (key : K) : Result (Option V) := do
  match ← tree.findByEq key tree.arena.len tree.firstLeaf with
  | none => pure none
  | some (leaf, slot) => do
      let entry ← readSlot (tree.node leaf).entries slot
      pure (some entry.2)

def getKeyValueByEq (tree : RawBTree K V) (key : K) : Result (Option (K × V)) := do
  match ← tree.findByEq key tree.arena.len tree.firstLeaf with
  | none => pure none
  | some (leaf, slot) => do
      let entry ← readSlot (tree.node leaf).entries slot
      pure (some (entry.1.key, entry.2))

def removeEntryByEq (layout : NodeLayout) (tree : RawBTree K V) (key : K) :
    Result (Option (K × V) × RawBTree K V) := do
  match ← tree.findByEq key tree.arena.len tree.firstLeaf with
  | none => pure (none, tree)
  | some (leaf, slot) => do
      let (entry, tree) ← tree.leafRemoveAt layout leaf slot
      pure (some (entry.1.key, entry.2), tree)

def removeByEq (layout : NodeLayout) (tree : RawBTree K V) (key : K) :
    Result (Option V × RawBTree K V) := do
  match ← tree.findByEq key tree.arena.len tree.firstLeaf with
  | none => pure (none, tree)
  | some (leaf, slot) => do
      let (entry, tree) ← tree.leafRemoveAt layout leaf slot
      pure (some entry.2, tree.drop entry.1)

end Scans

section Places
variable [LinearOrder K]

/-- The scan of a leaf with the place it stops at: `Ok` at an equal key, `Err` at the
first larger one. -/
def scanPlace (key : K) : List (KeyObj K × V) → Except Nat Nat
  | [] => .error 0
  | entry :: entries =>
      match compare key entry.1.key with
      | .eq => .ok 0
      | .lt => .error 0
      | .gt =>
          match scanPlace key entries with
          | .ok slot => .ok (slot + 1)
          | .error slot => .error (slot + 1)

/-- `search_linear` down to its leaf, and the place it stops at. -/
def placeLinear (tree : RawBTree K V) (key : K) (root : NodeIdx) : Result (NodeIdx × Except Nat Nat) := do
  let leaf ← tree.descend (fun keys => keys.findIdx fun object => compare key object.key = .lt) tree.height root
  pure (leaf, scanPlace key (tree.node leaf).entries)

/-- `search_binary`, with the loops of `partition_point` and `binary_search_by`. -/
def placeBinary (tree : RawBTree K V) (key : K) (root : NodeIdx) : Result (NodeIdx × Except Nat Nat) := do
  let leaf ← tree.descend (slicePartitionPoint fun object => compare object.key key ≠ .gt) tree.height root
  pure (leaf, binarySearchBy (fun entry => compare entry.1.key key) (tree.node leaf).entries)

/-- The slot of an `Ok`; where the key is missing, the searches return `None`. -/
def foundAt : NodeIdx × Except Nat Nat → Option (NodeIdx × Nat)
  | (leaf, .ok slot) => some (leaf, slot)
  | (_, .error _) => none

/-- The slot a key is in or would go to. -/
def slotOf : Except Nat Nat → Nat
  | .ok slot => slot
  | .error slot => slot

/-- What `lower_bound` does from a leaf and a slot in it on. -/
def lowerBoundFrom (tree : RawBTree K V) (leaf : NodeIdx) (pos : Nat) : Option (NodeIdx × Nat) :=
  if pos < (tree.node leaf).entries.length then some (leaf, pos)
  else
    match (tree.node leaf).next with
    | none => none
    | some next => if 0 < (tree.node next).entries.length then some (next, 0) else none

/-- `lower_bound` by scanning, as in shallow trees. -/
def lowerBoundLinear (tree : RawBTree K V) (key : K) (root : NodeIdx) : Result (Option (NodeIdx × Nat)) := do
  let leaf ← tree.descend (fun keys => keys.findIdx fun object => compare key object.key ≠ .gt) tree.height root
  pure (tree.lowerBoundFrom leaf ((tree.node leaf).entries.findIdx fun entry => compare key entry.1.key ≠ .gt))

/-- `lower_bound` by the standard library's binary search, as in taller trees. -/
def lowerBoundBinary (tree : RawBTree K V) (key : K) (root : NodeIdx) : Result (Option (NodeIdx × Nat)) := do
  let leaf ← tree.descend (slicePartitionPoint fun object => compare object.key key = .lt) tree.height root
  pure (tree.lowerBoundFrom leaf
    (slicePartitionPoint (fun entry => compare entry.1.key key = .lt) (tree.node leaf).entries))

end Places

end RawBTree

variable [LinearOrder K] {layout : NodeLayout} {tree : RawBTree K V} {root : NodeIdx} {items : List (LevelItem K)}

/-! ## The separators of a node ascend -/

/-- Expanding a row keeps its separators. -/
theorem seps_sublist_expand (heap : Heap K V) (row : List (LevelItem K)) :
    (Item.seps row).Sublist (Item.seps (row.flatMap (expand heap))) := by
  induction row with
  | nil => exact List.Sublist.slnil
  | cons item row ih =>
      rw [List.flatMap_cons, Item.seps_append]
      cases item with
      | node idx => exact ih.trans (List.sublist_append_right _ _)
      | sep key => exact ih.cons_cons key

theorem seps_sublist_level (heap : Heap K V) (root : NodeIdx) (upper lower : Nat) :
    (Item.seps (level heap root upper)).Sublist (Item.seps (level heap root (upper + lower))) := by
  induction lower with
  | zero => exact List.Sublist.refl _
  | succ lower ih => exact ih.trans (seps_sublist_expand heap _)

theorem keys_sublist_expand {heap : Heap K V} {row : List (LevelItem K)} {idx : NodeIdx}
    (paired : (heap idx).children.length = (heap idx).keys.length + 1) (member : idx ∈ Item.nodes row) :
    ((heap idx).keys).Sublist (Item.seps (row.flatMap (expand heap))) := by
  obtain ⟨left, right, rfl⟩ := List.append_of_mem (Item.mem_nodes.mp member)
  rw [List.flatMap_append, List.flatMap_cons, expand, Item.seps_append, Item.seps_append, Item.seps_row paired]
  exact (List.sublist_append_left _ _).trans (List.sublist_append_right _ _)

theorem seps_sublist_marks (heap : Heap K V) (row : List (LevelItem K)) :
    ((Item.seps row).map Item.sep : List (Mark K V)).Sublist (marks heap row) := by
  induction row with
  | nil => exact List.Sublist.slnil
  | cons item row ih =>
      cases item with
      | node idx => exact ih.trans (List.sublist_append_right _ _)
      | sep key => exact ih.cons_cons _

theorem Readable.keys_sorted (readable : Readable tree root items) {depth : Nat} (lower : depth < tree.height)
    {idx : NodeIdx} (member : idx ∈ Item.nodes (level tree.node root depth)) :
    (tree.node idx).keys.Pairwise fun first second => first.key ≤ second.key := by
  obtain ⟨rest, height⟩ : ∃ rest, tree.height = depth + 1 + rest := ⟨_, (Nat.add_sub_of_le lower).symm⟩
  have onRow := (keys_sublist_expand (readable.paired depth lower idx member) member).trans
    (seps_sublist_level tree.node root (depth + 1) rest)
  rw [← height, readable.level_eq] at onRow
  have sorted := readable.sorted.sublist ((onRow.map Item.sep).trans (seps_sublist_marks tree.node items))
  have ascending := List.pairwise_map.mp sorted
  exact ascending

/-- Descents that choose alike at sorted separators end alike. -/
theorem Readable.descend_congr (readable : Readable tree root items) {choose other : List (KeyObj K) → Nat}
    (agree : ∀ keys, (keys.Pairwise fun first second : KeyObj K => first.key ≤ second.key) →
      choose keys = other keys) (steps : Nat) :
    ∀ depth idx, depth + steps = tree.height → idx ∈ Item.nodes (level tree.node root depth) →
      tree.descend choose steps idx = tree.descend other steps idx := by
  induction steps with
  | zero => intro depth idx _ _; rfl
  | succ steps ih =>
      intro depth idx height member
      have lower : depth < tree.height := by omega
      rw [RawBTree.descend, RawBTree.descend, agree _ (readable.keys_sorted lower member)]
      cases found : (tree.node idx).children[other (tree.node idx).keys]? with
      | none => simp only [readSlot, found, bind, Except.bind]
      | some child =>
          have below : child ∈ Item.nodes (level tree.node root (depth + 1)) := by
            rw [level, nodes_expand (readable.paired depth lower)]
            exact List.mem_flatMap.mpr ⟨idx, member, List.mem_of_getElem? found⟩
          simp only [readSlot, found, bind, Except.bind]
          exact ih (depth + 1) child (by omega) below
/-! ## The place in a leaf -/

section Places
variable {key : K} {left right : List (LevelItem K)} {leaf : NodeIdx} {below above : List (KeyObj K × V)}
  {entry : KeyObj K × V}

theorem scanPlace_missing (small : ∀ other ∈ below, other.1.key < key) (large : ∀ other ∈ above, key < other.1.key) :
    RawBTree.scanPlace key (below ++ above) = .error below.length := by
  induction below with
  | nil =>
      cases above with
      | nil => rfl
      | cons head above =>
          rw [List.nil_append, RawBTree.scanPlace, compare_lt_iff_lt.mpr (large head List.mem_cons_self)]
          rfl
  | cons head below ih =>
      have rest := ih fun other member => small other (List.mem_cons_of_mem _ member)
      rw [List.cons_append, RawBTree.scanPlace, compare_gt_iff_gt.mpr (small head List.mem_cons_self), rest]
      rfl

theorem scanPlace_found (small : ∀ other ∈ below, other.1.key < key) (same : entry.1.key = key) :
    RawBTree.scanPlace key (below ++ entry :: above) = .ok below.length := by
  induction below with
  | nil =>
      rw [List.nil_append, RawBTree.scanPlace, compare_eq_iff_eq.mpr same.symm]
      rfl
  | cons head below ih =>
      have rest := ih fun other member => small other (List.mem_cons_of_mem _ member)
      rw [List.cons_append, RawBTree.scanPlace, compare_gt_iff_gt.mpr (small head List.mem_cons_self), rest]
      rfl

/-- Both searches of a leaf stop in the gap of a missing key. -/
theorem Gap.places (gap : Gap tree items key left leaf right below above) :
    RawBTree.scanPlace key (tree.node leaf).entries = .error below.length ∧
      binarySearchBy (fun entry => compare entry.1.key key) (tree.node leaf).entries = .error below.length := by
  have small : ∀ other ∈ below, other.1.key < key :=
    fun other member => gap.lower _ (List.mem_append_right _ (List.mem_map_of_mem member))
  have large : ∀ other ∈ above, key < other.1.key :=
    fun other member => gap.upper _ (List.mem_append_left _ (List.mem_map_of_mem member))
  rw [gap.entries]
  constructor
  · exact scanPlace_missing small large
  · exact binarySearchBy_missing (fun other member => compare_lt_iff_lt.mpr (small other member))
      fun other member => compare_gt_iff_gt.mpr (large other member)

theorem Hit.places (readable : Readable tree root items)
    (hit : Hit tree items left leaf right below entry above) :
    RawBTree.scanPlace entry.1.key (tree.node leaf).entries = .ok below.length ∧
      binarySearchBy (fun other => compare other.1.key entry.1.key) (tree.node leaf).entries =
        .ok below.length := by
  obtain ⟨small, large⟩ := hit.around readable
  rw [hit.entries]
  constructor
  · exact scanPlace_found small rfl
  · exact binarySearchBy_found (fun other member => compare_lt_iff_lt.mpr (small other member))
      (compare_eq_iff_eq.mpr rfl) fun other member => compare_gt_iff_gt.mpr (large other member)

end Places

/-! ## The searches -/

/-- The leaf and the place in it that every search for a key ends at. -/
structure EndsAt (tree : RawBTree K V) (key : K) (root leaf : NodeIdx) (place : Except Nat Nat) : Prop where
  linear : tree.placeLinear key root = .ok (leaf, place)
  binary : tree.placeBinary key root = .ok (leaf, place)
  searchLinear : tree.searchLinear key root = .ok (RawBTree.foundAt (leaf, place))
  searchBinary : tree.searchBinary key root = .ok (RawBTree.foundAt (leaf, place))
  search : tree.search key = .ok (RawBTree.foundAt (leaf, place))
  insertNoPath : tree.searchForInsertNoPath key root = .ok (leaf, RawBTree.slotOf place)
  insert : ∃ path, tree.searchForInsert key root = .ok (leaf, RawBTree.slotOf place, path)

theorem Readable.endsAt (readable : Readable tree root items) (key : K) :
    ∃ leaf place, EndsAt tree key root leaf place := by
  obtain ⟨leaf, path, left, right, landed, landing, _⟩ := readable.descendPath key
  have scanned : tree.descend (RawBTree.scanAbove key) tree.height root = .ok leaf := by
    rw [@descend_eq_descendPath _ _ _ _ _ key [] fun _ => rfl, landed]
    rfl
  have halved : tree.descend (RawBTree.partitionPoint fun object => decide (object.key ≤ key)) tree.height root =
      .ok leaf := by
    rw [@descend_eq_descendPath _ _ _ _ _ key [] (partitionPoint_eq_scanAbove key), landed]
    rfl
  have compared : (fun keys : List (KeyObj K) => keys.findIdx fun object => compare key object.key = .lt) =
      RawBTree.scanAbove key := by
    funext keys
    simp only [RawBTree.scanAbove, compare_lt_iff_lt]
  have looped : tree.descend (slicePartitionPoint fun object => compare object.key key ≠ .gt) tree.height root =
      .ok leaf := by
    rw [← halved]
    refine readable.descend_congr (fun keys sorted => ?_) tree.height 0 root (Nat.zero_add _) (by simp [level])
    simp only [compare_le_iff_le]
    exact slicePartitionPoint_eq_takeWhile (sorted.imp fun ordered => by
      simpa using fun second => ordered.trans second)
  have assemble : ∀ place : Except Nat Nat,
      RawBTree.scanPlace key (tree.node leaf).entries = place →
      binarySearchBy (fun entry => compare entry.1.key key) (tree.node leaf).entries = place →
      (RawBTree.scanLeaf key (tree.node leaf).entries).map (fun slot => (leaf, slot)) =
        RawBTree.foundAt (leaf, place) →
      ((tree.node leaf).entries.findIdx? fun entry => decide (entry.1.key = key)).map (fun slot => (leaf, slot)) =
        RawBTree.foundAt (leaf, place) →
      RawBTree.insertSlot key (tree.node leaf).entries = RawBTree.slotOf place →
      EndsAt tree key root leaf place := by
    intro place scan loop found equal slot
    have linear : tree.searchLinear key root = .ok (RawBTree.foundAt (leaf, place)) := by
      simp only [RawBTree.searchLinear, scanned, bind, Except.bind, pure, Except.pure, found]
    have binary : tree.searchBinary key root = .ok (RawBTree.foundAt (leaf, place)) := by
      simp only [RawBTree.searchBinary, halved, bind, Except.bind, pure, Except.pure, equal]
    refine ⟨?_, ?_, linear, binary, ?_, ?_, path, ?_⟩
    · simp only [RawBTree.placeLinear, compared, scanned, bind, Except.bind, pure, Except.pure, scan]
    · simp only [RawBTree.placeBinary, looped, bind, Except.bind, pure, Except.pure, loop]
    · rw [RawBTree.search, readable.root_eq]
      simp only [linear, binary, ite_self]
    · simp only [RawBTree.searchForInsertNoPath, scanned, bind, Except.bind, pure, Except.pure, slot]
    · simp only [RawBTree.searchForInsert, landed, bind, Except.bind, pure, Except.pure, slot]
  cases landing.cases readable with
  | inl missing =>
      obtain ⟨below, above, gap⟩ := missing
      exact ⟨leaf, .error below.length, assemble _ gap.places.1 gap.places.2 (by rw [gap.leaf_search.1]; rfl)
        (by rw [gap.leaf_search.2]; rfl) gap.insertSlot_eq.1⟩
  | inr found =>
      obtain ⟨below, entry, above, hit, rfl⟩ := found
      exact ⟨leaf, .ok below.length, assemble _ (hit.places readable).1 (hit.places readable).2
        (by rw [(hit.leaf_search readable).1]; rfl) (by rw [(hit.leaf_search readable).2]; rfl)
        (hit.insertSlot_eq readable).1⟩

/-! ## The lower bound -/

theorem Readable.entries_sorted (readable : Readable tree root items) {leaf : NodeIdx}
    (member : leaf ∈ Item.nodes items) :
    (tree.node leaf).entries.Pairwise fun first second => first.1.key < second.1.key := by
  obtain ⟨left, right, split⟩ := List.append_of_mem (Item.mem_nodes.mp member)
  have sorted := readable.sorted
  rw [split, marks_append, marks_node] at sorted
  have inside : Mark.Sorted ((tree.node leaf).entries.map (Item.node) : List (Mark K V)) :=
    List.Pairwise.sublist ((List.sublist_append_left _ _).trans (List.sublist_append_right _ _)) sorted
  have ascending := List.pairwise_map.mp inside
  exact ascending

/-- The slots of a leaf, found by scanning, by the model of `partition_point` and by
the loop. -/
theorem lowerSlot_eq_findIdx (tree : RawBTree K V) (key : K) (entries : List (KeyObj K × V)) :
    tree.lowerSlot key entries = entries.findIdx fun entry => decide (key ≤ entry.1.key) := by
  unfold RawBTree.lowerSlot RawBTree.partitionPoint
  rw [length_takeWhile_eq_findIdx]
  simp only [← decide_not, not_lt, ite_self]

/-- Both branches of `lower_bound`, and the loops of the second one. -/
theorem Readable.lowerBounds_agree (readable : Readable tree root items) (key : K) :
    tree.lowerBoundBinary key root = tree.lowerBoundLinear key root ∧
      tree.lowerBound key = tree.lowerBoundLinear key root := by
  have halved : tree.descend (RawBTree.partitionPoint fun object => decide (object.key < key)) tree.height root =
      tree.descend (fun keys => keys.findIdx fun object => decide (key ≤ object.key)) tree.height root := by
    refine readable.descend_congr (fun keys _ => ?_) tree.height 0 root (Nat.zero_add _) (by simp [level])
    simp only [partitionPoint_eq_findIdx (· < key), not_lt]
  have looped : tree.descend (slicePartitionPoint fun object => decide (object.key < key)) tree.height root =
      tree.descend (RawBTree.partitionPoint fun object => decide (object.key < key)) tree.height root := by
    refine readable.descend_congr (fun keys sorted => ?_) tree.height 0 root (Nat.zero_add _) (by simp [level])
    exact slicePartitionPoint_eq_takeWhile (sorted.imp fun ordered => by
      simpa using fun second => ordered.trans_lt second)
  obtain ⟨leaf, left, right, landed, landing⟩ := readable.lowerLeaf_lands key
  have scanned : tree.descend (fun keys => keys.findIdx fun object => decide (key ≤ object.key)) tree.height root =
      .ok leaf := by
    rw [RawBTree.lowerLeaf, halved, ite_self] at landed
    exact landed
  have onRow : leaf ∈ Item.nodes items := by
    rw [landing.split]
    simp
  have slots : slicePartitionPoint (fun entry => decide (entry.1.key < key)) (tree.node leaf).entries =
      (tree.node leaf).entries.findIdx fun entry => decide (key ≤ entry.1.key) := by
    rw [slicePartitionPoint_eq_takeWhile ((readable.entries_sorted onRow).imp fun ordered => by
      simpa using fun second => ordered.trans second), length_takeWhile_eq_findIdx]
    simp only [← decide_not, not_lt]
  have linear : tree.lowerBoundLinear key root = .ok (tree.lowerBoundFrom leaf
      ((tree.node leaf).entries.findIdx fun entry => decide (key ≤ entry.1.key))) := by
    simp only [RawBTree.lowerBoundLinear, compare_le_iff_le, scanned, bind, Except.bind, pure, Except.pure]
  constructor
  · rw [linear]
    simp only [RawBTree.lowerBoundBinary, compare_lt_iff_lt, looped, halved, scanned, slots, bind, Except.bind, pure,
      Except.pure]
  · rw [linear, RawBTree.lowerBound, readable.root_eq]
    simp only [landed, lowerSlot_eq_findIdx, RawBTree.lowerBoundFrom, bind, Except.bind]
    split
    · rfl
    · cases (tree.node leaf).next with
      | none => rfl
      | some next =>
          simp only
          split <;> rfl

/-! ## Scanning for equality -/

/-- The walk along the chain answers with the first leaf that has an equal key. -/
theorem findByEq_threads {cells : List NodeIdx} {key : K} (threads : Threads (fun idx => (tree.node idx).next) cells)
    {fuel : Nat} (enough : cells.length ≤ fuel) :
    tree.findByEq key fuel cells.head? = .ok (cells.findSome? fun leaf =>
      ((tree.node leaf).entries.findIdx? fun entry => decide (entry.1.key = key)).map fun slot => (leaf, slot)) := by
  induction cells generalizing fuel with
  | nil => cases fuel <;> rfl
  | cons leaf leaves ih =>
      obtain ⟨fuel, rfl⟩ : ∃ less, fuel = less + 1 := ⟨fuel - 1, by simp only [List.length_cons] at enough; omega⟩
      obtain ⟨forward, rest⟩ := threads
      have later := ih rest (by simpa using enough)
      have next : (tree.node leaf).next = leaves.head? := forward
      rw [List.head?_cons, RawBTree.findByEq, next, later, List.findSome?_cons]
      cases (tree.node leaf).entries.findIdx? fun entry => decide (entry.1.key = key) with
      | none => rfl
      | some slot => rfl

/-- A row whose entries all have other keys is walked past. -/
theorem findSome?_missing {key : K} {row : List (LevelItem K)}
    (different : ∀ entry ∈ Item.nodes (marks tree.node row), entry.1.key ≠ key) :
    ((Item.nodes row).findSome? fun leaf =>
      ((tree.node leaf).entries.findIdx? fun entry => decide (entry.1.key = key)).map fun slot => (leaf, slot)) =
      none := by
  rw [List.findSome?_eq_none_iff]
  intro leaf member
  rw [Option.map_eq_none_iff, List.findIdx?_eq_none_iff]
  intro entry stored
  have other := different entry (by rw [nodes_marks]; exact List.mem_flatMap.mpr ⟨leaf, member, stored⟩)
  simpa using other

/-- The walk finds what the search by order finds. -/
theorem Standing.findByEq_eq (standing : Standing layout tree root items) (key : K) :
    tree.findByEq key tree.arena.len tree.firstLeaf = tree.search key := by
  have walked := @findByEq_threads _ _ _ tree _ key standing.row.linked.threads_next _ standing.length_le
  rw [← standing.row.first] at walked
  rw [walked]
  cases standing.readable.search_cases key with
  | inl missing =>
      obtain ⟨left, leaf, right, below, above, gap, searched⟩ := missing
      rw [searched, findSome?_missing]
      intro entry member
      rw [gap.marks_eq, Item.mem_nodes] at member
      cases List.mem_append.mp member with
      | inl before =>
          have smaller : entry.1.key < key := gap.lower _ before
          exact smaller.ne
      | inr behind =>
          have larger : key < entry.1.key := gap.upper _ behind
          exact larger.ne'
  | inr found =>
      obtain ⟨left, leaf, right, below, entry, above, hit, rfl, searched⟩ := found
      have sorted := standing.readable.sorted
      rw [hit.marks_eq] at sorted
      have leftMissing := @findSome?_missing _ _ _ tree entry.1.key left fun other member => by
        have smaller : other.1.key < entry.1.key :=
          sorted.around.1 (.node other) (List.mem_append_left _ (Item.mem_nodes.mp member))
        exact smaller.ne
      rw [searched, hit.split, Item.nodes_append, Item.nodes_node, List.findSome?_append, leftMissing,
        Option.none_or, List.findSome?_cons, (hit.leaf_search standing.readable).2]
      rfl

/-! ## Agreement -/

/-- A tree without nodes, or one whose levels can be searched and whose leaves are
chained in order. -/
def Searchable (layout : NodeLayout) (tree : RawBTree K V) : Prop :=
  (tree.root = none ∧ tree.firstLeaf = none) ∨ ∃ root items, Standing layout tree root items

/-- Every tree the operations, `retain` and bulk loading lead to can be searched. -/
theorem Reached.searchable (reached : Reached layout tree) : Searchable layout tree := reached.cases

/-- What the search variants share on one tree and key. -/
structure VariantsAgree (layout : NodeLayout) (tree : RawBTree K V) (key : K) : Prop where
  /-- Both in-node searches and the insertion searches end at one leaf and place. -/
  place : ∀ root, tree.root = some root → ∃ leaf place, EndsAt tree key root leaf place
  /-- Both branches of `lower_bound` give the position it returns. -/
  lowerBound : ∀ root, tree.root = some root → tree.lowerBoundBinary key root = tree.lowerBoundLinear key root ∧
    tree.lowerBound key = tree.lowerBoundLinear key root
  /-- The scan for equality stops at the slot that the search by order finds. -/
  findByEq : tree.findByEq key tree.arena.len tree.firstLeaf = tree.search key
  getByEq : tree.getByEq key = tree.get key
  getKeyValueByEq : (tree.getKeyValueByEq key).map (Option.map Prod.snd) = tree.get key
  removeEntryByEq : tree.removeEntryByEq layout key = tree.removeEntry layout key
  removeByEq : tree.removeByEq layout key = tree.remove layout key

theorem Searchable.findByEq_eq (searchable : Searchable layout tree) (key : K) :
    tree.findByEq key tree.arena.len tree.firstLeaf = tree.search key := by
  cases searchable with
  | inl empty =>
      rw [empty.2, RawBTree.search, empty.1]
      unfold RawBTree.findByEq
      rfl
  | inr standing =>
      obtain ⟨root, items, standing⟩ := standing
      exact standing.findByEq_eq key

/-- All ways to search a tree for a key agree. -/
theorem search_variants_agree (searchable : Searchable layout tree) (key : K) : VariantsAgree layout tree key := by
  have scanned := searchable.findByEq_eq key
  have readable : ∀ root, tree.root = some root → ∃ items, Readable tree root items := by
    intro root isRoot
    cases searchable with
    | inl empty =>
        rw [empty.1] at isRoot
        cases isRoot
    | inr standing =>
        obtain ⟨other, items, standing⟩ := standing
        rw [standing.readable.root_eq] at isRoot
        cases isRoot
        exact ⟨items, standing.readable⟩
  refine ⟨fun root isRoot => ?_, fun root isRoot => ?_, scanned, ?_, ?_, ?_, ?_⟩
  · obtain ⟨items, readable⟩ := readable root isRoot
    exact readable.endsAt key
  · obtain ⟨items, readable⟩ := readable root isRoot
    exact readable.lowerBounds_agree key
  · rw [RawBTree.getByEq, scanned]
    rfl
  · rw [RawBTree.getKeyValueByEq, scanned, RawBTree.get]
    cases tree.search key with
    | error fault => rfl
    | ok found =>
        cases found with
        | none => rfl
        | some slot =>
            simp only [bind, Except.bind]
            cases readSlot (tree.node slot.1).entries slot.2 with
            | error fault => rfl
            | ok entry => rfl
  · rw [RawBTree.removeEntryByEq, scanned]
    rfl
  · rw [RawBTree.removeByEq, scanned]
    rfl

/-- Eight keys make a tree of height two; the key 2 is also a separator in its root. -/
theorem variants_agree_at_separator :
    ∃ replies tree, RawBTree.run tinyLayout (ascendingInserts 8) .new = .ok (replies, tree) ∧
      VariantsAgree tinyLayout tree 2 := by
  have start : Holds tinyLayout (RawBTree.new : RawBTree Nat Unit) [] := .vacant new_vacant
  obtain ⟨tree, held, returned, _⟩ := @Holds.run _ _ _ _ _ _ .empty start rfl (ascendingInserts 8)
  have reached : Reached tinyLayout tree := .inl (Tended.new.run returned)
  exact ⟨_, tree, returned, search_variants_agree reached.searchable 2⟩

end Optimap.FlatBTree
