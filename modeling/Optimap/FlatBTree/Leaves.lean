import Optimap.Lib.Linked
import Optimap.FlatBTree.Marks
import Optimap.FlatBTree.Crown

/-!
# Trees and their leaves

The invariant of the tree: a crown of as many levels as the height says, over a
row of chained leaves whose marks are sorted. Every descent for a key ends at the
leaf in whose gap the key belongs.
-/

set_option autoImplicit false
set_option linter.unusedSectionVars false

namespace Optimap.FlatBTree

open Lib

variable {K V : Type} [LinearOrder K]

/-- The leaves of a tree, with the separators between them. -/
structure LeafRow (layout : NodeLayout) (tree : RawBTree K V) (items : List (LevelItem K)) : Prop where
  leaf : ∀ idx ∈ Item.nodes items, (tree.node idx).isLeaf = true
  fits : ∀ idx ∈ Item.nodes items, (tree.node idx).entries.length ≤ layout.leafCap
  linked : Linked (fun idx => (tree.node idx).prev) (fun idx => (tree.node idx).next) none
    (Item.nodes items) none
  first : tree.firstLeaf = (Item.nodes items).head?
  last : tree.lastLeaf = (Item.nodes items).getLast?
  sorted : Mark.Sorted (marks tree.node items)
  len : tree.len = (Item.nodes (marks tree.node items)).length

structure Rooted (layout : NodeLayout) (tree : RawBTree K V) (root : NodeIdx)
    (items : List (LevelItem K)) : Prop where
  crownAt : CrownAt layout tree root tree.height items []
  row : LeafRow layout tree items

structure Vacant (tree : RawBTree K V) : Prop where
  root : tree.root = none
  firstLeaf : tree.firstLeaf = none
  lastLeaf : tree.lastLeaf = none
  len : tree.len = 0
  height : tree.height = 0
  owned : Owned tree.arena []

/-- The tree is well formed and holds these marks. -/
inductive Holds (layout : NodeLayout) (tree : RawBTree K V) : List (Mark K V) → Prop where
  | vacant (empty : Vacant tree) : Holds layout tree []
  | rooted {root : NodeIdx} {items : List (LevelItem K)} (rooted : Rooted layout tree root items) :
      Holds layout tree (marks tree.node items)

variable {layout : NodeLayout} {tree tree' : RawBTree K V} {root : NodeIdx} {items : List (LevelItem K)}

theorem Holds.sorted {held : List (Mark K V)} (holds : Holds layout tree held) : Mark.Sorted held := by
  cases holds with
  | vacant => exact .nil
  | rooted rooted => exact rooted.row.sorted

theorem Holds.len_eq {held : List (Mark K V)} (holds : Holds layout tree held) :
    tree.len = (contents held).length := by
  cases holds with
  | vacant empty => exact empty.len
  | rooted rooted => rw [rooted.row.len, contents, List.length_map]

/-- Work on the levels above does not touch the leaves. -/
theorem LeafRow.kept {nodes rest : List NodeIdx} (row : LeafRow layout tree items)
    (kept : Kept tree tree' nodes rest) (inside : ∀ idx ∈ Item.nodes items, idx ∈ nodes) :
    LeafRow layout tree' items ∧ marks tree'.node items = marks tree.node items := by
  have payload : ∀ idx ∈ Item.nodes items, (tree'.node idx).payload = (tree.node idx).payload :=
    fun idx member => kept.payload idx (inside idx member)
  have sameMarks : marks tree'.node items = marks tree.node items :=
    marks_congr fun idx member => Node.entries_of_payload (payload idx member)
  refine ⟨⟨?_, ?_, ?_, kept.firstLeaf.trans row.first, kept.lastLeaf.trans row.last, ?_, ?_⟩, sameMarks⟩
  · intro idx member
    rw [Node.isLeaf_of_payload (payload idx member)]
    exact row.leaf idx member
  · intro idx member
    rw [Node.entries_of_payload (payload idx member)]
    exact row.fits idx member
  · exact row.linked.congr (fun idx member => Node.prev_of_payload (payload idx member))
      fun idx member => Node.next_of_payload (payload idx member)
  · rw [sameMarks]; exact row.sorted
  · rw [sameMarks, kept.len]; exact row.len

section Descent

/-- The separators next to a node of a level: `low` on its left, not on its right. -/
structure Parted (low : K → Prop) (left right : List (LevelItem K)) : Prop where
  left : left = [] ∨ ∃ front separator, left = front ++ [.sep separator] ∧ low separator.key
  right : right = [] ∨ ∃ separator back, right = .sep separator :: back ∧ ¬ low separator.key

/-- The separators next to a node of a level leave `key` between them. -/
structure Guarded (key : K) (left right : List (LevelItem K)) : Prop where
  left : left = [] ∨ ∃ front separator, left = front ++ [.sep separator] ∧ separator.key ≤ key
  right : right = [] ∨ ∃ separator back, right = .sep separator :: back ∧ key < separator.key

theorem guarded_iff_parted {key : K} {left right : List (LevelItem K)} :
    Guarded key left right ↔ Parted (· ≤ key) left right := by
  constructor
  · rintro ⟨lower, upper⟩
    exact ⟨lower, by simpa only [not_le] using upper⟩
  · rintro ⟨lower, upper⟩
    exact ⟨lower, by simpa only [not_le] using upper⟩

section Parting
variable {low : K → Prop} [DecidablePred low]

theorem findIdx_split (low : K → Prop) [DecidablePred low] (keys : List (KeyObj K)) :
    ∃ before after, keys = before ++ after ∧
      keys.findIdx (fun object => decide (¬ low object.key)) = before.length ∧
      (∀ separator ∈ before, low separator.key) ∧ ∀ separator ∈ after.head?, ¬ low separator.key := by
  induction keys with
  | nil => exact ⟨[], [], rfl, rfl, by simp, by simp⟩
  | cons head keys ih =>
      by_cases isLow : low head.key
      · obtain ⟨before, after, rfl, slot, lower, upper⟩ := ih
        refine ⟨head :: before, after, rfl, ?_, ?_, upper⟩
        · simp only [List.findIdx_cons, isLow, slot, not_true_eq_false, decide_false, cond_false,
            List.length_cons]
        · intro separator member
          rcases List.mem_cons.mp member with rfl | member
          · exact isLow
          · exact lower separator member
      · refine ⟨[], head :: keys, rfl, ?_, by simp, by simpa using isLow⟩
        simp [List.findIdx_cons, isLow]

/-- Scanning up to the first separator that is not low and binary search choose
the same child. -/
theorem partitionPoint_eq_findIdx (low : K → Prop) [DecidablePred low] (keys : List (KeyObj K)) :
    RawBTree.partitionPoint (fun object => decide (low object.key)) keys =
      keys.findIdx fun object => decide (¬ low object.key) := by
  induction keys with
  | nil => rfl
  | cons head keys ih =>
      rw [RawBTree.partitionPoint] at ih ⊢
      by_cases isLow : low head.key
      · simp [List.findIdx_cons, isLow] at ih ⊢
        exact ih
      · simp [List.findIdx_cons, isLow]

theorem scanAbove_eq_findIdx (key : K) (keys : List (KeyObj K)) :
    RawBTree.scanAbove key keys = keys.findIdx fun object => decide (¬ object.key ≤ key) := by
  simp only [RawBTree.scanAbove, not_le]

/-- Scanning and binary search choose the same child. -/
theorem partitionPoint_eq_scanAbove (key : K) (keys : List (KeyObj K)) :
    RawBTree.partitionPoint (fun object => decide (object.key ≤ key)) keys = RawBTree.scanAbove key keys := by
  rw [scanAbove_eq_findIdx]
  exact partitionPoint_eq_findIdx (· ≤ key) keys

variable {heap : Heap K V} {depth : Nat} {idx : NodeIdx} {left right : List (LevelItem K)}

theorem Parted.expand_left (parted : Parted low left right) :
    left.flatMap (expand heap) = [] ∨
      ∃ front separator, left.flatMap (expand heap) = front ++ [.sep separator] ∧ low separator.key := by
  rcases parted.left with rfl | ⟨front, separator, rfl, small⟩
  · exact .inl rfl
  · exact .inr ⟨front.flatMap (expand heap), separator, by simp [expand], small⟩

theorem Parted.expand_right (parted : Parted low left right) :
    right.flatMap (expand heap) = [] ∨
      ∃ separator back, right.flatMap (expand heap) = .sep separator :: back ∧ ¬ low separator.key := by
  rcases parted.right with rfl | ⟨separator, back, rfl, large⟩
  · exact .inl rfl
  · exact .inr ⟨separator, back.flatMap (expand heap), by simp [expand], large⟩

/-- One step down keeps to the parting. -/
theorem Parted.step (paired : (heap idx).children.length = (heap idx).keys.length + 1)
    (split : level heap root depth = left ++ .node idx :: right) (parted : Parted low left right) :
    ∃ child left' right',
      (heap idx).children[(heap idx).keys.findIdx fun object => decide (¬ low object.key)]? = some child ∧
      level heap root (depth + 1) = left' ++ .node child :: right' ∧ Parted low left' right' := by
  obtain ⟨before, after, keysEq, slot, lower, upper⟩ := findIdx_split low (heap idx).keys
  rw [keysEq, List.length_append] at paired
  obtain ⟨childrenBefore, rest, childrenEq, lengthBefore⟩ :
      ∃ childrenBefore rest, (heap idx).children = childrenBefore ++ rest ∧
        childrenBefore.length = before.length :=
    ⟨(heap idx).children.take before.length, (heap idx).children.drop before.length, by simp,
      by rw [List.length_take]; omega⟩
  rw [childrenEq, List.length_append] at paired
  cases rest with
  | nil => simp only [List.length_nil] at paired; omega
  | cons child childrenAfter =>
      simp only [List.length_cons] at paired
      have row : expand heap (.node idx) =
          Item.lead childrenBefore before ++ .node child :: Item.trail after childrenAfter := by
        rw [expand, childrenEq, keysEq, Item.row_around child lengthBefore]
      refine ⟨child, left.flatMap (expand heap) ++ Item.lead childrenBefore before,
        Item.trail after childrenAfter ++ right.flatMap (expand heap), ?_, ?_, ?_, ?_⟩
      · rw [slot, childrenEq, ← lengthBefore]
        simp
      · rw [level, split, List.flatMap_append, List.flatMap_cons, row]
        simp
      · rcases Item.lead_getLast lengthBefore with empty | ⟨front, last, same, isLast⟩
        · rw [empty, List.append_nil]
          exact parted.expand_left
        · rw [same, ← List.append_assoc]
          exact .inr ⟨_, last, rfl, lower last (List.mem_of_getLast? isLast)⟩
      · cases after with
        | nil => exact parted.expand_right
        | cons separator after =>
            cases childrenAfter with
            | nil => simp only [List.length_nil, List.length_cons] at paired; omega
            | cons next childrenAfter =>
                exact .inr ⟨separator, _, rfl, upper separator rfl⟩

/-- The descent for a parting ends at a node of the last level. -/
theorem descend_lands {choose : List (KeyObj K) → Nat}
    (agrees : ∀ keys, choose keys = keys.findIdx fun object => decide (¬ low object.key)) (steps : Nat)
    (paired : ∀ upper < depth + steps, ∀ idx ∈ Item.nodes (level tree.node root upper),
      (tree.node idx).children.length = (tree.node idx).keys.length + 1)
    (split : level tree.node root depth = left ++ .node idx :: right) (parted : Parted low left right) :
    ∃ leaf left' right', tree.descend choose steps idx = .ok leaf ∧
      level tree.node root (depth + steps) = left' ++ .node leaf :: right' ∧ Parted low left' right' := by
  induction steps generalizing depth idx left right with
  | zero => exact ⟨idx, left, right, rfl, split, parted⟩
  | succ steps ih =>
      have shift : depth + (steps + 1) = depth + 1 + steps := by omega
      rw [shift] at paired ⊢
      obtain ⟨child, left', right', found, split', parted'⟩ :=
        parted.step (paired depth (by omega) idx (by rw [split]; simp)) split
      obtain ⟨leaf, final, final', landed, rest⟩ := ih paired split' parted'
      refine ⟨leaf, final, final', ?_, rest⟩
      rw [RawBTree.descend, agrees]
      simp only [readSlot, found, bind, Except.bind]
      exact landed

end Parting

variable {heap : Heap K V} {depth : Nat} {idx : NodeIdx} {left right : List (LevelItem K)}

/-- One step down keeps the key between its separators. -/
theorem Guarded.step {key : K} (paired : (heap idx).children.length = (heap idx).keys.length + 1)
    (split : level heap root depth = left ++ .node idx :: right) (guarded : Guarded key left right) :
    ∃ child left' right', (heap idx).children[RawBTree.scanAbove key (heap idx).keys]? = some child ∧
      level heap root (depth + 1) = left' ++ .node child :: right' ∧ Guarded key left' right' := by
  obtain ⟨child, left', right', found, split', parted⟩ := (guarded_iff_parted.mp guarded).step paired split
  rw [← scanAbove_eq_findIdx] at found
  exact ⟨child, left', right', found, split', guarded_iff_parted.mpr parted⟩

theorem descendPath_lands {key : K} {path : PathBuf} (steps : Nat)
    (paired : ∀ upper < depth + steps, ∀ idx ∈ Item.nodes (level tree.node root upper),
      (tree.node idx).children.length = (tree.node idx).keys.length + 1)
    (split : level tree.node root depth = left ++ .node idx :: right) (guarded : Guarded key left right)
    (leads : PathTo tree.node root depth idx path) :
    ∃ leaf path' left' right', tree.descendPath key steps idx path = .ok (leaf, path') ∧
      level tree.node root (depth + steps) = left' ++ .node leaf :: right' ∧ Guarded key left' right' ∧
      PathTo tree.node root (depth + steps) leaf path' := by
  induction steps generalizing depth idx left right path with
  | zero => exact ⟨idx, path, left, right, rfl, split, guarded, leads⟩
  | succ steps ih =>
      have shift : depth + (steps + 1) = depth + 1 + steps := by omega
      rw [shift] at paired ⊢
      obtain ⟨child, left', right', found, split', guarded'⟩ :=
        guarded.step (paired depth (by omega) idx (by rw [split]; simp)) split
      obtain ⟨leaf, path', final, final', landed, rest⟩ := ih paired split' guarded'
        ⟨idx, _, path, rfl, by rw [split]; simp, found, leads⟩
      refine ⟨leaf, path', final, final', ?_, rest⟩
      rw [RawBTree.descendPath]
      simp only [readSlot, found, bind, Except.bind]
      exact landed

theorem descend_eq_descendPath {choose : List (KeyObj K) → Nat} {key : K} {path : PathBuf}
    (agrees : ∀ keys, choose keys = RawBTree.scanAbove key keys) (steps : Nat) (idx : NodeIdx) :
    tree.descend choose steps idx = (tree.descendPath key steps idx path).map Prod.fst := by
  induction steps generalizing idx path with
  | zero => rfl
  | succ steps ih =>
      rw [RawBTree.descend, RawBTree.descendPath, agrees]
      cases readSlot (tree.node idx).children (RawBTree.scanAbove key (tree.node idx).keys) with
      | error fault => rfl
      | ok child => exact ih child

end Descent

/-- The leaf a search for `key` ends at. -/
structure Landing (tree : RawBTree K V) (items : List (LevelItem K)) (key : K)
    (left : List (LevelItem K)) (leaf : NodeIdx) (right : List (LevelItem K)) : Prop where
  split : items = left ++ .node leaf :: right
  below : ∀ mark ∈ marks tree.node left, Mark.Below key mark
  above : ∀ mark ∈ marks tree.node right, Mark.Above key mark

/-- What searching needs of a tree: levels down to the leaves, in order. -/
structure Readable (tree : RawBTree K V) (root : NodeIdx) (items : List (LevelItem K)) : Prop where
  root_eq : tree.root = some root
  paired : ∀ depth < tree.height, ∀ idx ∈ Item.nodes (level tree.node root depth),
    (tree.node idx).children.length = (tree.node idx).keys.length + 1
  level_eq : level tree.node root tree.height = items
  sorted : Mark.Sorted (marks tree.node items)

theorem Crown.internal_at {heap : Heap K V} {depth : Nat} (crown : Crown heap root layout depth) {upper : Nat}
    (lower : upper < depth) {idx : NodeIdx} (member : idx ∈ Item.nodes (level heap root upper)) :
    InternalOk heap layout idx := by
  induction depth with
  | zero => omega
  | succ depth ih =>
      rcases Nat.lt_succ_iff_lt_or_eq.mp lower with smaller | rfl
      · exact ih crown.1 smaller
      · exact crown.2 idx member

theorem Rooted.readable (rooted : Rooted layout tree root items) : Readable tree root items :=
  ⟨rooted.crownAt.root_eq, fun _ lower _ member => (rooted.crownAt.crown.internal_at lower member).paired,
    rooted.crownAt.level_eq, rooted.row.sorted⟩

theorem Readable.landing {key : K} {left right : List (LevelItem K)} {leaf : NodeIdx}
    (readable : Readable tree root items) (split : items = left ++ .node leaf :: right)
    (guarded : Guarded key left right) : Landing tree items key left leaf right := by
  have sorted := readable.sorted
  refine ⟨split, ?_, ?_⟩
  · rcases guarded.left with rfl | ⟨front, separator, rfl, small⟩
    · simp
    · rw [split] at sorted
      simp only [marks_append, marks_sep, marks_nil, List.append_assoc, List.cons_append,
        List.nil_append] at sorted ⊢
      exact sorted.below_of_sep small
  · rcases guarded.right with rfl | ⟨separator, back, rfl, large⟩
    · simp
    · rw [split] at sorted
      simp only [marks_append, marks_node, marks_sep] at sorted ⊢
      rw [← List.append_assoc] at sorted
      exact sorted.above_of_sep large

theorem Readable.descendPath (readable : Readable tree root items) (key : K) :
    ∃ leaf path left right, tree.descendPath key tree.height root [] = .ok (leaf, path) ∧
      Landing tree items key left leaf right ∧ PathTo tree.node root tree.height leaf path := by
  obtain ⟨leaf, path, left, right, landed, split, guarded, leads⟩ :=
    @descendPath_lands _ _ _ tree root 0 root [] [] key [] tree.height
      (by rw [Nat.zero_add]; exact readable.paired) rfl ⟨.inl rfl, .inl rfl⟩ rfl
  rw [Nat.zero_add] at split leads
  rw [readable.level_eq] at split
  exact ⟨leaf, path, left, right, landed, readable.landing split guarded, leads⟩

theorem Readable.descend (readable : Readable tree root items) {choose : List (KeyObj K) → Nat} (key : K)
    (agrees : ∀ keys, choose keys = RawBTree.scanAbove key keys) :
    ∃ leaf left right, tree.descend choose tree.height root = .ok leaf ∧
      Landing tree items key left leaf right := by
  obtain ⟨leaf, path, left, right, landed, landing, _⟩ := readable.descendPath key
  refine ⟨leaf, left, right, ?_, landing⟩
  rw [@descend_eq_descendPath _ _ _ _ _ key [] agrees, landed]
  rfl

section Update
variable {left right : List (LevelItem K)} {leaf : NodeIdx}

theorem Rooted.nodes_nodup (rooted : Rooted layout tree root items) : (Item.nodes items).Nodup := by
  have nodup := rooted.crownAt.nodes_nodup
  rw [rooted.crownAt.level_eq] at nodup
  exact nodup

theorem Rooted.notMem_above (rooted : Rooted layout tree root items) {idx : NodeIdx}
    (member : idx ∈ Item.nodes items) : idx ∉ above tree.node root tree.height := by
  intro inside
  have owned := rooted.crownAt.owned
  rw [List.append_assoc] at owned
  exact owned.apart idx inside (by simp [member])

theorem beside_leaf (nodup : (Item.nodes (left ++ .node leaf :: right)).Nodup) :
    ∀ idx ∈ Item.nodes left ++ Item.nodes right, idx ≠ leaf := by
  intro idx member same
  simp only [Item.nodes_append, Item.nodes_node] at nodup
  exact (List.nodup_cons.mp (List.nodup_middle.mp nodup)).1 (same ▸ member)

/-- Writing the entries of one leaf. -/
theorem Rooted.setEntries (rooted : Rooted layout tree root items)
    (split : items = left ++ .node leaf :: right) {entries : List (KeyObj K × V)} {len : Nat}
    (fits : entries.length ≤ layout.leafCap)
    (sorted : Mark.Sorted (marks tree.node left ++ (entries.map .node ++ marks tree.node right)))
    (counted : len = (Item.nodes (marks tree.node left ++
      ((entries.map .node : List (Mark K V)) ++ marks tree.node right))).length) :
    Rooted layout { tree.setEntries entries leaf with len := len } root items ∧
      marks (tree.setEntries entries leaf).node items =
        marks tree.node left ++ (entries.map .node ++ marks tree.node right) := by
  set tree' : RawBTree K V := { tree.setEntries entries leaf with len := len } with treeDef
  have onRow : leaf ∈ Item.nodes items := by rw [split]; simp
  have leafNode : tree'.node leaf = (tree.node leaf).setEntries entries :=
    RawBTree.node_modify_self fun node => node.setEntries entries
  have other : ∀ idx, idx ≠ leaf → tree'.node idx = tree.node idx :=
    fun idx different => RawBTree.node_modify_of_ne (fun node => node.setEntries entries) different
  have keeps : ∀ idx, (tree'.node idx).isLeaf = (tree.node idx).isLeaf ∧
      (tree'.node idx).parent = (tree.node idx).parent ∧ (tree'.node idx).prev = (tree.node idx).prev ∧
      (tree'.node idx).next = (tree.node idx).next := by
    intro idx
    by_cases same : idx = leaf
    · rw [same, leafNode]
      exact ⟨rfl, rfl, rfl, rfl⟩
    · rw [other idx same]
      exact ⟨rfl, rfl, rfl, rfl⟩
  have beside := beside_leaf (split ▸ rooted.nodes_nodup)
  have newMarks : marks tree'.node items =
      marks tree.node left ++ (entries.map .node ++ marks tree.node right) := by
    have leftMarks : marks tree'.node left = marks tree.node left :=
      marks_congr fun idx member => by rw [other idx (beside idx (List.mem_append_left _ member))]
    have rightMarks : marks tree'.node right = marks tree.node right :=
      marks_congr fun idx member => by rw [other idx (beside idx (List.mem_append_right _ member))]
    rw [split, marks_append, marks_node, leafNode, leftMarks, rightMarks]
    rfl
  refine ⟨⟨?_, ?_⟩, newMarks⟩
  · refine rooted.crownAt.update rfl rfl rfl (fun idx member => other idx fun same => ?_)
      fun idx _ => (keeps idx).2.1
    exact rooted.notMem_above onRow (same ▸ member)
  · refine ⟨fun idx member => ?_, fun idx member => ?_, ?_, rooted.row.first, rooted.row.last, ?_, ?_⟩
    · rw [(keeps idx).1]
      exact rooted.row.leaf idx member
    · by_cases same : idx = leaf
      · rw [same, leafNode]
        exact fits
      · rw [other idx same]
        exact rooted.row.fits idx member
    · exact rooted.row.linked.congr (fun idx _ => (keeps idx).2.2.1) fun idx _ => (keeps idx).2.2.2
    · rw [newMarks]; exact sorted
    · rw [newMarks]; exact counted

end Update

section Slots

/-- `key` is missing from the tree and belongs between two slots of a leaf. -/
structure Gap (tree : RawBTree K V) (items : List (LevelItem K)) (key : K) (left : List (LevelItem K))
    (leaf : NodeIdx) (right : List (LevelItem K)) (below above : List (KeyObj K × V)) : Prop where
  split : items = left ++ .node leaf :: right
  entries : (tree.node leaf).entries = below ++ above
  lower : ∀ mark ∈ marks tree.node left ++ below.map .node, Mark.Below key mark
  upper : ∀ mark ∈ above.map .node ++ marks tree.node right, Mark.Above key mark

/-- The entry in a slot of a leaf. -/
structure Hit (tree : RawBTree K V) (items : List (LevelItem K)) (left : List (LevelItem K))
    (leaf : NodeIdx) (right : List (LevelItem K)) (below : List (KeyObj K × V)) (entry : KeyObj K × V)
    (above : List (KeyObj K × V)) : Prop where
  split : items = left ++ .node leaf :: right
  entries : (tree.node leaf).entries = below ++ entry :: above

variable {key : K} {left right : List (LevelItem K)} {leaf : NodeIdx} {below above : List (KeyObj K × V)}
  {entry : KeyObj K × V}

theorem Gap.marks_eq (gap : Gap tree items key left leaf right below above) :
    marks tree.node items = (marks tree.node left ++ below.map .node) ++
      (above.map .node ++ marks tree.node right) := by
  rw [gap.split, marks_append, marks_node, gap.entries, List.map_append]
  simp

theorem Hit.marks_eq (hit : Hit tree items left leaf right below entry above) :
    marks tree.node items = (marks tree.node left ++ below.map .node) ++
      .node entry :: (above.map .node ++ marks tree.node right) := by
  rw [hit.split, marks_append, marks_node, hit.entries, List.map_append]
  simp

/-- The keys of a leaf beside an entry. -/
theorem Hit.around (readable : Readable tree root items)
    (hit : Hit tree items left leaf right below entry above) :
    (∀ other ∈ below, other.1.key < entry.1.key) ∧ ∀ other ∈ above, entry.1.key < other.1.key := by
  have sorted := readable.sorted
  rw [hit.marks_eq] at sorted
  obtain ⟨lower, upper⟩ := sorted.around
  refine ⟨fun other member => ?_, fun other member => ?_⟩
  · exact lower (.node other) (List.mem_append_right _ (List.mem_map_of_mem member))
  · exact upper (.node other) (List.mem_append_left _ (List.mem_map_of_mem member))

theorem Landing.cases (readable : Readable tree root items)
    (landing : Landing tree items key left leaf right) :
    (∃ below above, Gap tree items key left leaf right below above) ∨
      ∃ below entry above, Hit tree items left leaf right below entry above ∧ entry.1.key = key := by
  have sorted := readable.sorted
  rw [landing.split, marks_append, marks_node] at sorted
  have inside : Mark.Sorted ((tree.node leaf).entries.map (Item.node) : List (Mark K V)) :=
    List.Pairwise.sublist ((List.sublist_append_left _ _).trans (List.sublist_append_right _ _)) sorted
  have ascending := inside.ascending
  rw [contents, nodes_map_node] at ascending
  rcases ascending.locate key with ⟨lower, upper, same, between⟩ | ⟨lower, value, upper, same⟩
  · obtain ⟨below, above, entriesEq, rfl, rfl⟩ := List.map_eq_append_iff.mp same
    refine .inl ⟨below, above, landing.split, entriesEq, fun mark member => ?_, fun mark member => ?_⟩
    · rcases List.mem_append.mp member with outside | inLeaf
      · exact landing.below mark outside
      · obtain ⟨other, isOther, rfl⟩ := List.mem_map.mp inLeaf
        exact between.below_lt _ (List.mem_map_of_mem isOther)
    · rcases List.mem_append.mp member with inLeaf | outside
      · obtain ⟨other, isOther, rfl⟩ := List.mem_map.mp inLeaf
        exact between.lt_above _ (List.mem_map_of_mem isOther)
      · exact landing.above mark outside
  · obtain ⟨below, rest, entriesEq, _, restEq⟩ := List.map_eq_append_iff.mp same
    obtain ⟨entry, above, rfl, isEntry, _⟩ := List.map_eq_cons_iff.mp restEq
    exact .inr ⟨below, entry, above, ⟨landing.split, entriesEq⟩, (Prod.mk.inj isEntry).1⟩

theorem Gap.insertSlot_eq (gap : Gap tree items key left leaf right below above) :
    RawBTree.insertSlot key (tree.node leaf).entries = below.length ∧
      ∀ other ∈ (tree.node leaf).entries[below.length]?, other.1.key ≠ key := by
  have low : ∀ other ∈ below, other.1.key < key :=
    fun other member => gap.lower _ (List.mem_append_right _ (List.mem_map_of_mem member))
  have high : ∀ other ∈ above, key < other.1.key :=
    fun other member => gap.upper _ (List.mem_append_left _ (List.mem_map_of_mem member))
  rw [gap.entries]
  refine ⟨?_, fun other found => ?_⟩
  · rw [RawBTree.insertSlot, List.findIdx_append, List.findIdx_eq_length.mpr]
    · cases above with
      | nil => simp
      | cons head above => simp [List.findIdx_cons, (high head List.mem_cons_self).le]
    · intro other member
      simpa using low other member
  · rw [List.getElem?_append_right le_rfl, Nat.sub_self] at found
    exact (high other (List.mem_of_getElem? found)).ne'

theorem Hit.insertSlot_eq (readable : Readable tree root items)
    (hit : Hit tree items left leaf right below entry above) :
    RawBTree.insertSlot entry.1.key (tree.node leaf).entries = below.length ∧
      (tree.node leaf).entries[below.length]? = some entry := by
  obtain ⟨low, _⟩ := hit.around readable
  rw [hit.entries]
  refine ⟨?_, by simp⟩
  rw [RawBTree.insertSlot, List.findIdx_append, List.findIdx_eq_length.mpr]
  · simp [List.findIdx_cons]
  · intro other member
    simpa using low other member

theorem scanLeaf_below {rest : List (KeyObj K × V)} (low : ∀ other ∈ below, other.1.key < key) :
    RawBTree.scanLeaf key (below ++ rest) = (RawBTree.scanLeaf key rest).map (below.length + ·) := by
  induction below with
  | nil => simp
  | cons head below ih =>
      have smaller := low head List.mem_cons_self
      rw [List.cons_append, RawBTree.scanLeaf, if_neg smaller.ne', if_neg smaller.not_gt,
        ih fun other member => low other (List.mem_cons_of_mem _ member), Option.map_map]
      congr 1
      funext slot
      simp only [Function.comp_apply, List.length_cons]
      omega

/-- Both searches of a leaf. -/
theorem Gap.leaf_search (gap : Gap tree items key left leaf right below above) :
    RawBTree.scanLeaf key (tree.node leaf).entries = none ∧
      (tree.node leaf).entries.findIdx? (fun entry => decide (entry.1.key = key)) = none := by
  have low : ∀ other ∈ below, other.1.key < key :=
    fun other member => gap.lower _ (List.mem_append_right _ (List.mem_map_of_mem member))
  have high : ∀ other ∈ above, key < other.1.key :=
    fun other member => gap.upper _ (List.mem_append_left _ (List.mem_map_of_mem member))
  rw [gap.entries]
  refine ⟨?_, ?_⟩
  · rw [scanLeaf_below low]
    cases above with
    | nil => rfl
    | cons head above =>
        have larger := high head List.mem_cons_self
        rw [RawBTree.scanLeaf, if_neg larger.ne, if_pos larger]
        rfl
  · rw [List.findIdx?_eq_none_iff]
    intro other member
    rcases List.mem_append.mp member with inBelow | inAbove
    · simpa using (low other inBelow).ne
    · simpa using (high other inAbove).ne'

theorem Hit.leaf_search (readable : Readable tree root items)
    (hit : Hit tree items left leaf right below entry above) :
    RawBTree.scanLeaf entry.1.key (tree.node leaf).entries = some below.length ∧
      (tree.node leaf).entries.findIdx? (fun other => decide (other.1.key = entry.1.key)) =
        some below.length := by
  obtain ⟨low, _⟩ := hit.around readable
  rw [hit.entries]
  refine ⟨?_, ?_⟩
  · rw [scanLeaf_below low, RawBTree.scanLeaf, if_pos rfl]
    rfl
  · have missing : below.findIdx? (fun other => decide (other.1.key = entry.1.key)) = none := by
      rw [List.findIdx?_eq_none_iff]
      intro other member
      simpa using (low other member).ne
    simp [List.findIdx?_append, missing, List.findIdx?_cons]

end Slots

section Lookup
variable {held : List (Mark K V)} {key : K} {left right : List (LevelItem K)} {leaf : NodeIdx}
  {below above : List (KeyObj K × V)} {entry : KeyObj K × V}

/-- Where a key is in the tree. -/
theorem Readable.search_cases (readable : Readable tree root items) (key : K) :
    (∃ left leaf right below above, Gap tree items key left leaf right below above ∧
      tree.search key = .ok none) ∨
    ∃ left leaf right below entry above, Hit tree items left leaf right below entry above ∧
      entry.1.key = key ∧ tree.search key = .ok (some (leaf, below.length)) := by
  have scan : ∀ keys, RawBTree.scanAbove key keys = RawBTree.scanAbove key keys := fun _ => rfl
  have binary := partitionPoint_eq_scanAbove key
  rw [RawBTree.search, readable.root_eq]
  simp only
  split
  · obtain ⟨leaf, left, right, landed, landing⟩ := readable.descend key scan
    simp only [RawBTree.searchLinear, landed, bind, Except.bind, pure, Except.pure]
    rcases landing.cases readable with ⟨below, above, gap⟩ | ⟨below, entry, above, hit, rfl⟩
    · exact .inl ⟨left, leaf, right, below, above, gap, by rw [gap.leaf_search.1]; rfl⟩
    · exact .inr ⟨left, leaf, right, below, entry, above, hit, rfl,
        by rw [(hit.leaf_search readable).1]; rfl⟩
  · obtain ⟨leaf, left, right, landed, landing⟩ := readable.descend key binary
    simp only [RawBTree.searchBinary, landed, bind, Except.bind, pure, Except.pure]
    rcases landing.cases readable with ⟨below, above, gap⟩ | ⟨below, entry, above, hit, rfl⟩
    · exact .inl ⟨left, leaf, right, below, above, gap, by rw [gap.leaf_search.2]; rfl⟩
    · exact .inr ⟨left, leaf, right, below, entry, above, hit, rfl,
        by rw [(hit.leaf_search readable).2]; rfl⟩

theorem Gap.lookup_eq (gap : Gap tree items key left leaf right below above) :
    lookupEntry key (contents (marks tree.node items)) = none := by
  rw [gap.marks_eq, contents_append]
  exact lookupEntry_vacant (between_contents gap.lower gap.upper)

theorem Hit.between (readable : Readable tree root items)
    (hit : Hit tree items left leaf right below entry above) :
    Between entry.1.key (contents (marks tree.node left ++ below.map .node))
      (contents (above.map .node ++ marks tree.node right)) := by
  have sorted := readable.sorted
  rw [hit.marks_eq] at sorted
  exact between_contents sorted.around.1 sorted.around.2

theorem Readable.get_eq (readable : Readable tree root items) (key : K) :
    tree.get key = .ok (lookupEntry key (contents (marks tree.node items))) := by
  rcases readable.search_cases key with ⟨left, leaf, right, below, above, gap, found⟩ |
    ⟨left, leaf, right, below, entry, above, hit, rfl, found⟩
  · rw [gap.lookup_eq]
    simp only [RawBTree.get, found, bind, Except.bind]
    rfl
  · have value := lookupEntry_occupied entry.2 (hit.between readable)
    rw [hit.marks_eq, contents_append, contents_node, value]
    simp only [RawBTree.get, found, bind, Except.bind, readSlot, (hit.insertSlot_eq readable).2]
    rfl

theorem Holds.get_eq (holds : Holds layout tree held) (key : K) :
    tree.get key = .ok (lookupEntry key (contents held)) := by
  cases holds with
  | vacant empty =>
      simp only [RawBTree.get, RawBTree.search, empty.root, bind, Except.bind]
      rfl
  | rooted rooted => exact rooted.readable.get_eq key

end Lookup

end Optimap.FlatBTree
