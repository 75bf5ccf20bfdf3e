import Optimap.FlatBTree.Clearing

/-!
# The tree as a sorted map

Runs of the tree answer like runs of a sorted finite map, and every state on the
way is a well-formed tree.
-/

set_option autoImplicit false
set_option linter.unusedSectionVars false

namespace Optimap.FlatBTree

open Lib

variable {K V : Type} [LinearOrder K]

section Runs

inductive MapOp (K V : Type) where
  | insert (key : K) (value : V)
  | entryOrInsert (key : K) (value : V)
  | remove (key : K)
  | removeEntry (key : K)
  | popFirst
  | popLast
  | get (key : K)
  | clear

inductive MapReply (K V : Type) where
  | value (found : Option V)
  | reference (target : V)
  | entry (found : Option (K × V))
  | done

def RawBTree.apply (layout : NodeLayout) (tree : RawBTree K V) :
    MapOp K V → Result (MapReply K V × RawBTree K V)
  | .insert key value => do
      let (old, tree) ← tree.insert layout key value
      pure (.value old, tree)
  | .entryOrInsert key value => do
      let (target, tree) ← tree.entryOrInsert layout key value
      pure (.reference target, tree)
  | .remove key => do
      let (old, tree) ← tree.remove layout key
      pure (.value old, tree)
  | .removeEntry key => do
      let (old, tree) ← tree.removeEntry layout key
      pure (.entry old, tree)
  | .popFirst => do
      let (old, tree) ← tree.popFirst layout
      pure (.entry old, tree)
  | .popLast => do
      let (old, tree) ← tree.popLast layout
      pure (.entry old, tree)
  | .get key => do
      let found ← tree.get key
      pure (.value found, tree)
  | .clear => do
      let tree ← tree.clear
      pure (.done, tree)

def RawBTree.run (layout : NodeLayout) :
    List (MapOp K V) → RawBTree K V → Result (List (MapReply K V) × RawBTree K V)
  | [], tree => .ok ([], tree)
  | op :: ops, tree => do
      let (reply, tree) ← tree.apply layout op
      let (replies, tree) ← RawBTree.run layout ops tree
      pure (reply :: replies, tree)

/-- What the operations mean on a sorted finite map. -/
def applySorted (map : SortedMap K V) : MapOp K V → MapReply K V × SortedMap K V
  | .insert key value => (.value (map.lookup key), map.insert key value)
  | .entryOrInsert key value =>
      match map.lookup key with
      | some old => (.reference old, map)
      | none => (.reference value, map.insert key value)
  | .remove key => (.value (map.lookup key), map.erase key)
  | .removeEntry key => (.entry ((map.lookup key).map fun value => (key, value)), map.erase key)
  | .popFirst => (.entry map.first, map.eraseFirst)
  | .popLast => (.entry map.last, map.eraseLast)
  | .get key => (.value (map.lookup key), map)
  | .clear => (.done, .empty)

def runSorted : List (MapOp K V) → SortedMap K V → List (MapReply K V) × SortedMap K V
  | [], map => ([], map)
  | op :: ops, map =>
      ((applySorted map op).1 :: (runSorted ops (applySorted map op).2).1,
        (runSorted ops (applySorted map op).2).2)

end Runs

section WellFormedness

/-- The entries below a node, `depth` levels further down. -/
def entriesUnder (heap : Heap K V) (idx : NodeIdx) (depth : Nat) : List (KeyObj K × V) :=
  (Item.nodes (level heap idx depth)).flatMap fun leaf => (heap leaf).entries

/-- A tree whose nodes above the leaves are all as `ok` says. -/
structure FormedAt (layout : NodeLayout) (ok : Heap K V → NodeIdx → Prop) (tree : RawBTree K V)
    (root : NodeIdx) : Prop where
  root_eq : tree.root = some root
  internal : ∀ depth < tree.height, ∀ idx ∈ Item.nodes (level tree.node root depth), ok tree.node idx
  root_parent : (tree.node root).parent = none
  leaves : ∀ idx ∈ Item.nodes (level tree.node root tree.height),
    (tree.node idx).isLeaf = true ∧ (tree.node idx).entries.length ≤ layout.leafCap
  brackets : ∀ depth below, depth + 1 + below = tree.height →
    ∀ idx ∈ Item.nodes (level tree.node root depth), ∀ (slot : Nat) key left right,
      (tree.node idx).keys[slot]? = some key → (tree.node idx).children[slot]? = some left →
      (tree.node idx).children[slot + 1]? = some right →
      (∀ entry ∈ entriesUnder tree.node left below, entry.1.key < key.key) ∧
        ∀ entry ∈ entriesUnder tree.node right below, key.key ≤ entry.1.key
  chain : Linked (fun idx => (tree.node idx).prev) (fun idx => (tree.node idx).next) none
    (Item.nodes (level tree.node root tree.height)) none
  firstLeaf : tree.firstLeaf = (Item.nodes (level tree.node root tree.height)).head?
  lastLeaf : tree.lastLeaf = (Item.nodes (level tree.node root tree.height)).getLast?
  len : tree.len = (entriesUnder tree.node root tree.height).length
  /-- No node is reached twice, or reached and free. -/
  owned : (above tree.node root tree.height ++ Item.nodes (level tree.node root tree.height) ++
    tree.arena.free).Nodup

/-- An empty tree, or one whose internal nodes have at least two children, all
with the right parent pointers. -/
def WellFormed (layout : NodeLayout) (tree : RawBTree K V) : Prop :=
  (tree.root = none ∧ tree.firstLeaf = none ∧ tree.lastLeaf = none ∧ tree.len = 0 ∧ tree.height = 0) ∨
    ∃ root, FormedAt layout (fun heap idx => InternalOk heap layout idx) tree root

/-- The key and value pairs in the order of the leaves. -/
def RawBTree.toList (tree : RawBTree K V) : List (K × V) :=
  match tree.root with
  | none => []
  | some root => (entriesUnder tree.node root tree.height).map fun entry => (entry.1.key, entry.2)

variable {layout : NodeLayout} {tree : RawBTree K V} {root : NodeIdx} {items : List (LevelItem K)}
  {held : List (Mark K V)}

theorem Holds.toList_eq (holds : Holds layout tree held) : tree.toList = contents held := by
  cases holds with
  | vacant empty =>
      rw [RawBTree.toList, empty.root]
      rfl
  | rooted rooted =>
      rw [RawBTree.toList, rooted.crownAt.root_eq, contents, nodes_marks]
      simp only [entriesUnder, rooted.crownAt.level_eq]

theorem mem_marks_sublevel {heap : Heap K V} {children : List NodeIdx} {keys : List (KeyObj K)}
    {child : NodeIdx} {below : Nat} (paired : children.length = keys.length + 1) (isChild : child ∈ children)
    {entry : KeyObj K × V} (under : entry ∈ entriesUnder heap child below) :
    .node entry ∈ marks heap ((Item.row children keys).flatMap (sublevel heap below)) := by
  obtain ⟨leaf, isLeaf, stored⟩ := List.mem_flatMap.mp under
  rw [← Item.mem_nodes, nodes_marks, List.mem_flatMap]
  refine ⟨leaf, ?_, stored⟩
  rw [Item.mem_nodes, List.mem_flatMap]
  refine ⟨.node child, Item.mem_nodes.mp ?_, Item.mem_nodes.mp isLeaf⟩
  rw [Item.nodes_row paired]
  exact isChild

/-- A separator brackets what is below its neighbours, since it stands between
their marks. -/
theorem Readable.brackets (readable : Readable tree root items) {depth below : Nat}
    (height : depth + 1 + below = tree.height) {idx : NodeIdx}
    (onLevel : idx ∈ Item.nodes (level tree.node root depth)) {slot : Nat} {key : KeyObj K}
    {left right : NodeIdx} (isKey : (tree.node idx).keys[slot]? = some key)
    (isLeft : (tree.node idx).children[slot]? = some left)
    (isRight : (tree.node idx).children[slot + 1]? = some right) :
    (∀ entry ∈ entriesUnder tree.node left below, entry.1.key < key.key) ∧
      ∀ entry ∈ entriesUnder tree.node right below, key.key ≤ entry.1.key := by
  have paired := readable.paired depth (by omega) idx onLevel
  have slotBound := (List.getElem?_eq_some_iff.mp isKey).1
  obtain ⟨upLeft, upRight, levelEq, _, _⟩ :=
    Item.nodes_split (List.append_of_mem onLevel).choose_spec.choose_spec
  have whole : items = upLeft.flatMap (sublevel tree.node (1 + below)) ++
      ((Item.row ((tree.node idx).children.take (slot + 1)) ((tree.node idx).keys.take slot)).flatMap
        (sublevel tree.node below) ++ .sep key ::
      (Item.row ((tree.node idx).children.drop (slot + 1)) ((tree.node idx).keys.drop (slot + 1))).flatMap
        (sublevel tree.node below)) ++ upRight.flatMap (sublevel tree.node (1 + below)) := by
    have inner : level tree.node idx (1 + below) =
        (Item.row (tree.node idx).children (tree.node idx).keys).flatMap (sublevel tree.node below) := by
      rw [level_add]
      simp [level, expand]
    rw [← readable.level_eq, ← height, Nat.add_assoc, level_add, levelEq, List.flatMap_append,
      List.flatMap_cons, sublevel, inner, Item.row_cut paired isKey]
    simp [sublevel]
  have sorted := readable.sorted
  rw [whole] at sorted
  simp only [marks_append, marks_sep, List.append_assoc, List.cons_append] at sorted
  obtain ⟨_, middle, _⟩ := List.pairwise_append.mp sorted
  obtain ⟨_, upper, cross⟩ := List.pairwise_append.mp middle
  refine ⟨fun entry under => ?_, fun entry under => ?_⟩
  · have isMark := @mem_marks_sublevel _ _ _ tree.node _ ((tree.node idx).keys.take slot) left below
      (by simp only [List.length_take]; omega)
      (List.mem_of_getElem? (show ((tree.node idx).children.take (slot + 1))[slot]? = some left by
        rw [List.getElem?_take_of_lt (by omega)]; exact isLeft)) entry under
    exact cross _ isMark _ List.mem_cons_self
  · have isMark := @mem_marks_sublevel _ _ _ tree.node _ ((tree.node idx).keys.drop (slot + 1)) right below
      (by simp only [List.length_drop]; omega)
      (List.mem_of_getElem? (show ((tree.node idx).children.drop (slot + 1))[0]? = some right by
        rw [List.getElem?_drop]; exact isRight)) entry under
    exact (List.pairwise_cons.mp upper).1 _ (List.mem_append_left _ isMark)

theorem Crown.root_parent {heap : Heap K V} {depth : Nat} (crown : Crown heap root layout depth) :
    (heap root).parent = none := by
  induction depth with
  | zero => exact crown
  | succ depth ih => exact ih crown.1

theorem Readable.formedAt {ok : Heap K V → NodeIdx → Prop} (readable : Readable tree root items)
    (row : LeafRow layout tree items) (orphan : (tree.node root).parent = none)
    (internal : ∀ depth < tree.height, ∀ idx ∈ Item.nodes (level tree.node root depth), ok tree.node idx)
    (owned : Owned tree.arena (above tree.node root tree.height ++ Item.nodes items)) :
    FormedAt layout ok tree root := by
  have levelEq := readable.level_eq
  refine ⟨readable.root_eq, internal, orphan, ?_, ?_, ?_, ?_, ?_, ?_, ?_⟩
  · rw [levelEq]
    exact fun idx member => ⟨row.leaf idx member, row.fits idx member⟩
  · intro depth below height idx member slot key left right isKey isLeft isRight
    exact readable.brackets height member isKey isLeft isRight
  · rw [levelEq]; exact row.linked
  · rw [levelEq]; exact row.first
  · rw [levelEq]; exact row.last
  · rw [row.len, nodes_marks, entriesUnder, levelEq]
  · rw [levelEq]; exact owned.nodup

theorem Holds.wellFormed (holds : Holds layout tree held) : WellFormed layout tree := by
  cases holds with
  | vacant empty => exact .inl ⟨empty.root, empty.firstLeaf, empty.lastLeaf, empty.len, empty.height⟩
  | @rooted root items rooted =>
      have owned := rooted.crownAt.owned
      rw [List.append_nil] at owned
      exact .inr ⟨root, rooted.readable.formedAt rooted.row rooted.crownAt.crown.root_parent
        (fun depth lower idx member => rooted.crownAt.crown.internal_at lower member) owned⟩

end WellFormedness

section Refinement
variable {layout : NodeLayout} {tree : RawBTree K V} {held : List (Mark K V)} {map : SortedMap K V}

theorem new_vacant : Vacant (RawBTree.new : RawBTree K V) :=
  ⟨rfl, rfl, rfl, rfl, rfl, List.nodup_nil, by simp [RawBTree.new, Arena.new]⟩

/-- The operation removes an entry, and that ends in a merge of internal nodes. -/
def RawBTree.climbs (layout : NodeLayout) (tree : RawBTree K V) : MapOp K V → Prop
  | .remove key | .removeEntry key => ∃ leaf ∈ tree.leafOf key, tree.removalClimbs layout leaf
  | .popFirst => ∃ leaf ∈ tree.firstStored, tree.removalClimbs layout leaf
  | .popLast => ∃ leaf ∈ tree.lastStored, tree.removalClimbs layout leaf
  | _ => False

/-- One operation answers like the sorted map. -/
theorem Holds.apply (holds : Holds layout tree held) (same : contents held = map.entries) (op : MapOp K V) :
    ∃ tree' held', tree.apply layout op = .ok ((applySorted map op).1, tree') ∧ Holds layout tree' held' ∧
      contents held' = (applySorted map op).2.entries ∧
      (¬ tree.climbs layout op → tree.ledger.Tracks (objectIds held) →
        tree'.ledger.Tracks (objectIds held')) := by
  cases op with
  | insert key value =>
      obtain ⟨tree', held', returned, holds', contentsEq, tracks⟩ := holds.insert key value
      refine ⟨tree', held', ?_, holds', by rw [contentsEq, same]; rfl, fun _ => tracks⟩
      simp only [RawBTree.apply, returned, bind, Except.bind, same]
      rfl
  | entryOrInsert key value =>
      obtain ⟨tree', held', returned, holds', contentsEq, tracks⟩ := holds.entryOrInsert key value
      have lookup : lookupEntry key (contents held) = map.lookup key := by rw [same]; rfl
      rw [lookup] at returned contentsEq
      refine ⟨tree', held', ?_, holds', ?_, fun _ => tracks⟩
      · simp only [RawBTree.apply, returned, bind, Except.bind, applySorted]
        cases map.lookup key <;> rfl
      · rw [contentsEq, same, applySorted]
        cases map.lookup key <;> rfl
  | remove key =>
      obtain ⟨tree', held', returned, holds', contentsEq, tracks⟩ := holds.remove key
      refine ⟨tree', held', ?_, holds', by rw [contentsEq, same]; rfl, tracks⟩
      simp only [RawBTree.apply, returned, bind, Except.bind, same]
      rfl
  | removeEntry key =>
      obtain ⟨tree', held', returned, holds', contentsEq, tracks⟩ := holds.removeEntry key
      refine ⟨tree', held', ?_, holds', by rw [contentsEq, same]; rfl, tracks⟩
      simp only [RawBTree.apply, returned, bind, Except.bind, same]
      rfl
  | popFirst =>
      obtain ⟨tree', held', returned, holds', contentsEq, tracks⟩ := holds.popFirst
      refine ⟨tree', held', ?_, holds', by rw [contentsEq, same]; rfl, tracks⟩
      simp only [RawBTree.apply, returned, bind, Except.bind, same]
      rfl
  | popLast =>
      obtain ⟨tree', held', returned, holds', contentsEq, tracks⟩ := holds.popLast
      refine ⟨tree', held', ?_, holds', by rw [contentsEq, same]; rfl, tracks⟩
      simp only [RawBTree.apply, returned, bind, Except.bind, same]
      rfl
  | get key =>
      refine ⟨tree, held, ?_, holds, same, fun _ tracks => tracks⟩
      simp only [RawBTree.apply, holds.get_eq key, bind, Except.bind, same]
      rfl
  | clear =>
      obtain ⟨tree', returned, empty, tracks⟩ := holds.clear
      refine ⟨tree', [], ?_, .vacant empty, rfl, fun _ => tracks⟩
      simp only [RawBTree.apply, returned, bind, Except.bind]
      rfl

theorem Holds.run (holds : Holds layout tree held) (same : contents held = map.entries)
    (ops : List (MapOp K V)) :
    ∃ tree' held', RawBTree.run layout ops tree = .ok ((runSorted ops map).1, tree') ∧
      Holds layout tree' held' ∧ contents held' = (runSorted ops map).2.entries := by
  induction ops generalizing tree held map with
  | nil => exact ⟨tree, held, rfl, holds, same⟩
  | cons op ops ih =>
      obtain ⟨middle, between, returned, holds', contentsEq, _⟩ := holds.apply same op
      obtain ⟨tree', held', rest, outcome⟩ := ih holds' contentsEq
      refine ⟨tree', held', ?_, outcome⟩
      simp only [RawBTree.run, returned, rest, bind, Except.bind]
      rfl

/-- From the empty tree, every run succeeds, answers like the sorted map and ends
in a well-formed tree with the map's entries. -/
theorem flat_btree_refines_sorted_map (layout : NodeLayout) (ops : List (MapOp K V)) :
    ∃ tree, RawBTree.run layout ops .new = .ok ((runSorted ops SortedMap.empty).1, tree) ∧
      tree.toList = (runSorted ops SortedMap.empty).2.entries ∧ WellFormed layout tree := by
  have start : Holds layout (RawBTree.new : RawBTree K V) [] := .vacant new_vacant
  obtain ⟨tree, held, returned, holds, contentsEq⟩ := @Holds.run _ _ _ _ _ _ .empty start rfl ops
  exact ⟨tree, returned, holds.toList_eq.trans contentsEq, holds.wellFormed⟩

end Refinement

end Optimap.FlatBTree
