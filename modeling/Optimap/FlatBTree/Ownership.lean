import Optimap.FlatBTree.Refinement

/-!
# Who owns a key

Every key object is held by one live slot, or dropped once, or with a caller. A
run keeps to that as long as no removal merges internal nodes: `merge_internals`
moves the separator into the left node and then has its old slot removed by the
routine that drops what it removes.
-/

set_option autoImplicit false
set_option linter.unusedSectionVars false

namespace Optimap.FlatBTree

open Lib

variable {K V : Type} [LinearOrder K] {layout : NodeLayout}

/-- The key objects in live leaf slots and in live separator slots. -/
def RawBTree.liveObjects (tree : RawBTree K V) : List (KeyObj K) :=
  match tree.root with
  | none => []
  | some root => (entriesUnder tree.node root tree.height).map Prod.fst ++
      (above tree.node root tree.height).flatMap fun idx => (tree.node idx).keys

/-- No live object is dropped or held twice, and nothing is dropped twice. -/
def SingleOwner (tree : RawBTree K V) : Prop :=
  (tree.liveObjects.map KeyObj.id).Nodup ∧
    (∀ id ∈ tree.liveObjects.map KeyObj.id, id ∉ tree.ledger.dropped) ∧ tree.ledger.dropped.Nodup

instance (tree : RawBTree K V) : Decidable (SingleOwner tree) :=
  inferInstanceAs (Decidable (_ ∧ _ ∧ _))

section Live
variable {heap : Heap K V} {root : NodeIdx} {depth : Nat} {tree : RawBTree K V} {held : List (Mark K V)}

theorem seps_expand {items : List (LevelItem K)}
    (paired : ∀ idx ∈ Item.nodes items, (heap idx).children.length = (heap idx).keys.length + 1) :
    (Item.seps (items.flatMap (expand heap))).Perm
      (Item.seps items ++ (Item.nodes items).flatMap fun idx => (heap idx).keys) := by
  induction items with
  | nil => exact List.Perm.refl _
  | cons item items ih =>
      cases item with
      | sep key => exact List.Perm.cons key (ih fun idx member => paired idx (by simpa using member))
      | node idx =>
          rw [List.flatMap_cons, Item.seps_append, expand, Item.seps_row (paired idx (by simp)),
            Item.seps_node, Item.nodes_node, List.flatMap_cons]
          refine ((ih fun other member => paired other (by simp [member])).append_left _).trans ?_
          rw [← List.append_assoc, ← List.append_assoc]
          exact List.perm_append_comm.append_right _

/-- The separators of a level are those of all nodes above it. -/
theorem Crown.seps_level (crown : Crown heap root layout depth) :
    (Item.seps (level heap root depth)).Perm
      ((above heap root depth).flatMap fun idx => (heap idx).keys) := by
  induction depth with
  | zero => exact List.Perm.refl _
  | succ depth ih =>
      rw [level, above, List.flatMap_append]
      refine (seps_expand fun idx member => (crown.2 idx member).paired).trans ?_
      exact (ih crown.1).append_right _

theorem Holds.liveObjects_perm (holds : Holds layout tree held) :
    (tree.liveObjects.map KeyObj.id).Perm (objectIds held) := by
  cases holds with
  | vacant empty =>
      rw [RawBTree.liveObjects, empty.root]
      exact List.Perm.refl _
  | @rooted root items rooted =>
      have upper := rooted.crownAt.crown.seps_level
      have levelEq := rooted.crownAt.level_eq
      rw [levelEq] at upper
      refine List.Perm.trans ?_ (objectIds_marks tree.node items).symm
      simp only [RawBTree.liveObjects, rooted.crownAt.root_eq, entriesUnder, levelEq, List.map_append]
      refine List.Perm.append (List.Perm.of_eq ?_) (upper.symm.map _)
      rw [List.map_flatMap]

theorem Holds.singleOwner (holds : Holds layout tree held) (tracks : tree.ledger.Tracks (objectIds held)) :
    SingleOwner tree := by
  have perm := holds.liveObjects_perm
  obtain ⟨live, dropped, apart⟩ := List.nodup_append.mp tracks.nodup
  refine ⟨perm.nodup_iff.mpr live, fun id member inside => ?_, dropped⟩
  exact apart id (perm.mem_iff.mp member) id inside rfl

end Live

section Runs

instance (tree : RawBTree K V) : ∀ op : MapOp K V, Decidable (tree.climbs layout op)
  | .remove key | .removeEntry key =>
      inferInstanceAs (Decidable (∃ leaf ∈ tree.leafOf key, tree.removalClimbs layout leaf))
  | .popFirst => inferInstanceAs (Decidable (∃ leaf ∈ tree.firstStored, tree.removalClimbs layout leaf))
  | .popLast => inferInstanceAs (Decidable (∃ leaf ∈ tree.lastStored, tree.removalClimbs layout leaf))
  | .insert _ _ | .entryOrInsert _ _ | .get _ | .clear => inferInstanceAs (Decidable False)

/-- None of the operations gets as far as `merge_internals`. -/
def mergeFree (layout : NodeLayout) : List (MapOp K V) → RawBTree K V → Bool
  | [], _ => true
  | op :: ops, tree =>
      !decide (tree.climbs layout op) &&
        match tree.apply layout op with
        | .ok (_, tree) => mergeFree layout ops tree
        | .error _ => true

variable {tree : RawBTree K V} {held : List (Mark K V)} {map : SortedMap K V}

theorem Holds.run_tracks (holds : Holds layout tree held) (same : contents held = map.entries)
    (tracks : tree.ledger.Tracks (objectIds held)) {ops rest : List (MapOp K V)}
    (free : mergeFree layout (ops ++ rest) tree = true) :
    ∃ replies tree', RawBTree.run layout ops tree = .ok (replies, tree') ∧ SingleOwner tree' := by
  induction ops generalizing tree held map with
  | nil => exact ⟨[], tree, rfl, holds.singleOwner tracks⟩
  | cons op ops ih =>
      obtain ⟨middle, between, returned, holds', contentsEq, keeps⟩ := holds.apply same op
      rw [List.cons_append, mergeFree, returned, Bool.and_eq_true] at free
      have safe : ¬ tree.climbs layout op := by simpa using free.1
      obtain ⟨replies, tree', ran, owner⟩ := ih holds' contentsEq (keeps safe tracks) free.2
      refine ⟨(applySorted map op).1 :: replies, tree', ?_, owner⟩
      simp only [RawBTree.run, returned, ran, bind, Except.bind]
      rfl

/-- In a run without merges of internal nodes, every key object has one owner in
every state on the way. -/
theorem keys_singly_owned (layout : NodeLayout) (ops : List (MapOp K V))
    (free : mergeFree layout ops .new = true) :
    ∀ {before rest : List (MapOp K V)}, ops = before ++ rest →
      ∃ replies tree, RawBTree.run layout before .new = .ok (replies, tree) ∧ SingleOwner tree := by
  rintro before rest rfl
  have start : Holds layout (RawBTree.new : RawBTree K V) [] := .vacant new_vacant
  exact @Holds.run_tracks _ _ _ _ _ _ .empty start rfl ⟨List.nodup_nil, by simp [RawBTree.new]⟩ _ rest free

/-- Two entries to a leaf and two keys to an internal node. -/
def tinyLayout : NodeLayout := ⟨2, 2, by decide, by decide⟩

def ascendingInserts (count : Nat) : List (MapOp Nat Unit) := (List.range count).map fun key => .insert key ()

/-- Removals that borrow and that merge leaves under the root. -/
theorem keys_singly_owned_small :
    ∃ replies tree, RawBTree.run tinyLayout (ascendingInserts 4 ++ [.remove 1, .popFirst, .popLast]) .new =
      .ok (replies, tree) ∧ SingleOwner tree :=
  keys_singly_owned tinyLayout (ascendingInserts 4 ++ [.remove 1, .popFirst, .popLast] ++ [.clear])
    (by decide +kernel) rfl

/-- Five ascending keys make two levels of internal nodes; removing the first key
merges them, and the separator that moved into the merged node is dropped. -/
theorem merged_separator_dropped :
    ∃ replies tree, RawBTree.run tinyLayout (ascendingInserts 5 ++ [.remove 0]) .new = .ok (replies, tree) ∧
      ¬ SingleOwner tree := by
  have lost : ((RawBTree.run tinyLayout (ascendingInserts 5 ++ [.remove 0]) .new).map fun outcome =>
      decide (SingleOwner outcome.2)) = .ok false := by decide +kernel
  cases ran : RawBTree.run tinyLayout (ascendingInserts 5 ++ [.remove 0]) .new with
  | error fault =>
      rw [ran] at lost
      simp [Except.map] at lost
  | ok outcome =>
      rw [ran] at lost
      refine ⟨outcome.1, outcome.2, rfl, ?_⟩
      simpa [Except.map] using lost

end Runs

end Optimap.FlatBTree
