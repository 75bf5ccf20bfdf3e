import Optimap.FlatBTree.Clone

/-!
# Runs with `retain` and clones

A `retain` in the middle of a run leaves a tree on which every later operation
still answers like the sorted map, filtered as the visits have decided. So does a
clone of the tree, and it shares no key object with the tree it comes from.
-/

set_option autoImplicit false
set_option linter.unusedSectionVars false

namespace Optimap.FlatBTree

open Lib

variable {K V S : Type}

namespace RawBTree

def firstKeyValue (tree : RawBTree K V) : Result (Option (K × V)) :=
  if tree.len = 0 then .ok none
  else do
    match ← tree.firstNonemptyLeaf with
    | none => pure none
    | some leaf => do
        let entry ← readSlot (tree.node leaf).entries 0
        pure (some (entry.1.key, entry.2))

def lastKeyValue (tree : RawBTree K V) : Result (Option (K × V)) :=
  if tree.len = 0 then .ok none
  else do
    match ← tree.lastNonemptyLeaf with
    | none => pure none
    | some leaf => do
        let entry ← readSlot (tree.node leaf).entries ((tree.node leaf).entries.length - 1)
        pure (some (entry.1.key, entry.2))

end RawBTree

variable [LinearOrder K]

section Calls

/-- The calls of a run. The closures of its `retain` calls have their states in `S`. -/
inductive Call (S K V : Type) where
  | point (op : MapOp K V)
  | retain (visit : RawBTree.Visit S K V) (state : S)
  | firstKeyValue
  | lastKeyValue
  | iterate
  | len

inductive Answer (S K V : Type) where
  | point (reply : MapReply K V)
  | retained (state : S)
  | entry (found : Option (K × V))
  | entries (pairs : List (K × V))
  | count (len : Nat)

def RawBTree.call (layout : NodeLayout) (tree : RawBTree K V) :
    Call S K V → Result (Answer S K V × RawBTree K V)
  | .point op => do
      let (reply, tree) ← tree.apply layout op
      pure (.point reply, tree)
  | .retain visit state => do
      let (state, tree) ← tree.retain visit state
      pure (.retained state, tree)
  | .firstKeyValue => do
      let found ← tree.firstKeyValue
      pure (.entry found, tree)
  | .lastKeyValue => do
      let found ← tree.lastKeyValue
      pure (.entry found, tree)
  | .iterate => do
      let pairs ← tree.iterate
      pure (.entries pairs, tree)
  | .len => pure (.count tree.len, tree)

def RawBTree.callAll (layout : NodeLayout) :
    List (Call S K V) → RawBTree K V → Result (List (Answer S K V) × RawBTree K V)
  | [], tree => .ok ([], tree)
  | call :: calls, tree => do
      let (answer, tree) ← tree.call layout call
      let (answers, tree) ← RawBTree.callAll layout calls tree
      pure (answer :: answers, tree)

theorem retainPairs_keys (visit : RawBTree.Visit S K V) (state : S) (pairs : List (K × V)) :
    ((retainPairs visit state pairs).2.map Prod.fst).Sublist (pairs.map Prod.fst) := by
  induction pairs generalizing state with
  | nil => exact List.Sublist.refl _
  | cons pair pairs ih =>
      obtain ⟨key, value⟩ := pair
      rw [retainPairs]
      split
      · next value' state' _ => exact (ih state').cons_cons key
      · next value' state' _ => exact (ih state').cons key

theorem Ascending.retainPairs {pairs : List (K × V)} (ascending : Ascending pairs)
    (visit : RawBTree.Visit S K V) (state : S) : Ascending (retainPairs visit state pairs).2 := by
  have keys : (pairs.map Prod.fst).Pairwise (· < ·) := List.pairwise_map.mpr ascending
  exact List.pairwise_map.mp (keys.sublist (retainPairs_keys visit state pairs))

/-- A sorted map after the visits of `retain`. -/
def retainSorted (visit : RawBTree.Visit S K V) (state : S) (map : SortedMap K V) : SortedMap K V :=
  ⟨(retainPairs visit state map.entries).2, Ascending.retainPairs map.ascending visit state⟩

def callSorted (map : SortedMap K V) : Call S K V → Answer S K V × SortedMap K V
  | .point op => (.point (applySorted map op).1, (applySorted map op).2)
  | .retain visit state => (.retained (retainPairs visit state map.entries).1, retainSorted visit state map)
  | .firstKeyValue => (.entry map.first, map)
  | .lastKeyValue => (.entry map.last, map)
  | .iterate => (.entries map.entries, map)
  | .len => (.count map.entries.length, map)

def callAllSorted : List (Call S K V) → SortedMap K V → List (Answer S K V) × SortedMap K V
  | [], map => ([], map)
  | call :: calls, map =>
      ((callSorted map call).1 :: (callAllSorted calls (callSorted map call).2).1,
        (callAllSorted calls (callSorted map call).2).2)

end Calls

section Refinement
variable {layout : NodeLayout} {tree : RawBTree K V} {held : List (Mark K V)} {map : SortedMap K V}

theorem Holds.firstKeyValue_eq (holds : Holds layout tree held) :
    tree.firstKeyValue = .ok (contents held).head? := by
  have len := holds.len_eq
  by_cases empty : contents held = []
  · rw [empty, List.length_nil] at len
    rw [RawBTree.firstKeyValue, if_pos len, empty]
    rfl
  · have stored : tree.len ≠ 0 := by
      rw [len]
      exact fun zero => empty (List.length_eq_zero_iff.mp zero)
    cases holds with
    | vacant => exact absurd rfl empty
    | rooted rooted =>
        obtain ⟨leaf, left, right, entry, above, located, hit, front⟩ := rooted.first_hit empty
        have read : readSlot (tree.node leaf).entries 0 = .ok entry := by
          rw [hit.entries]
          rfl
        simp only [RawBTree.firstKeyValue, if_neg stored, located, bind, Except.bind, read]
        rw [hit.marks_eq, contents_append, contents_append, front]
        rfl

theorem Holds.lastKeyValue_eq (holds : Holds layout tree held) :
    tree.lastKeyValue = .ok (contents held).getLast? := by
  have len := holds.len_eq
  by_cases empty : contents held = []
  · rw [empty, List.length_nil] at len
    rw [RawBTree.lastKeyValue, if_pos len, empty]
    rfl
  · have stored : tree.len ≠ 0 := by
      rw [len]
      exact fun zero => empty (List.length_eq_zero_iff.mp zero)
    cases holds with
    | vacant => exact absurd rfl empty
    | rooted rooted =>
        obtain ⟨leaf, left, right, below, entry, located, hit, back⟩ := rooted.last_hit empty
        have read : readSlot (tree.node leaf).entries ((tree.node leaf).entries.length - 1) = .ok entry := by
          rw [hit.entries, readSlot]
          simp
        simp only [RawBTree.lastKeyValue, if_neg stored, located, bind, Except.bind, read]
        rw [hit.marks_eq, contents_append, contents_node, List.map_nil, List.nil_append, back,
          List.getLast?_concat]
        rfl

/-- One call answers like the sorted map. -/
theorem Holds.call (holds : Holds layout tree held) (same : contents held = map.entries) (call : Call S K V) :
    ∃ tree' held', tree.call layout call = .ok ((callSorted map call).1, tree') ∧ Holds layout tree' held' ∧
      contents held' = (callSorted map call).2.entries := by
  cases call with
  | point op =>
      obtain ⟨tree', held', returned, holds', contentsEq, _⟩ := holds.apply same op
      refine ⟨tree', held', ?_, holds', contentsEq⟩
      simp only [RawBTree.call, returned, bind, Except.bind]
      rfl
  | retain visit state =>
      obtain ⟨tree', held', returned, holds', contentsEq⟩ := holds.retain visit state
      rw [same] at returned contentsEq
      refine ⟨tree', held', ?_, holds', contentsEq⟩
      simp only [RawBTree.call, returned, bind, Except.bind]
      rfl
  | firstKeyValue =>
      refine ⟨tree, held, ?_, holds, same⟩
      simp only [RawBTree.call, holds.firstKeyValue_eq, bind, Except.bind, same]
      rfl
  | lastKeyValue =>
      refine ⟨tree, held, ?_, holds, same⟩
      simp only [RawBTree.call, holds.lastKeyValue_eq, bind, Except.bind, same]
      rfl
  | iterate =>
      refine ⟨tree, held, ?_, holds, same⟩
      simp only [RawBTree.call, holds.iterate_eq, bind, Except.bind, same]
      rfl
  | len =>
      refine ⟨tree, held, ?_, holds, same⟩
      rw [RawBTree.call, holds.len_eq, same]
      rfl

theorem Holds.callAll (holds : Holds layout tree held) (same : contents held = map.entries)
    (calls : List (Call S K V)) :
    ∃ tree' held', RawBTree.callAll layout calls tree = .ok ((callAllSorted calls map).1, tree') ∧
      Holds layout tree' held' ∧ contents held' = (callAllSorted calls map).2.entries := by
  induction calls generalizing tree held map with
  | nil => exact ⟨tree, held, rfl, holds, same⟩
  | cons call calls ih =>
      obtain ⟨middle, between, returned, holds', contentsEq⟩ := holds.call same call
      obtain ⟨tree', held', rest, outcome⟩ := ih holds' contentsEq
      refine ⟨tree', held', ?_, outcome⟩
      simp only [RawBTree.callAll, returned, rest, bind, Except.bind]
      rfl

/-- The calls answer on the tree as on the map, and leave a tree with the entries of
the map. -/
def Follows (layout : NodeLayout) (tree : RawBTree K V) (map : SortedMap K V) (calls : List (Call S K V)) :
    Prop :=
  ∃ tree', RawBTree.callAll layout calls tree = .ok ((callAllSorted calls map).1, tree') ∧
    tree'.toList = (callAllSorted calls map).2.entries ∧
    tree'.len = (callAllSorted calls map).2.entries.length

theorem Holds.follows (holds : Holds layout tree held) (same : contents held = map.entries)
    (calls : List (Call S K V)) : Follows layout tree map calls := by
  obtain ⟨tree', held', returned, holds', contentsEq⟩ := holds.callAll same calls
  refine ⟨tree', returned, ?_, ?_⟩
  · rw [holds'.toList_eq, contentsEq]
  · rw [holds'.len_eq, contentsEq]

/-- Runs with `retain` anywhere in them answer like runs of the sorted map. A clone of
the tree in between has the same contents under key objects of its own, and from
there both answer like the sorted map, whatever is called on the other. -/
theorem runs_with_retain_and_clone (layout : NodeLayout) (unset : NodeIdx → Node K V)
    (calls : List (Call S K V)) :
    ∃ tree, RawBTree.callAll layout calls .new = .ok ((callAllSorted calls .empty).1, tree) ∧
      tree.toList = (callAllSorted calls .empty).2.entries ∧
      tree.len = (callAllSorted calls .empty).2.entries.length ∧
      (∀ later, Follows layout tree (callAllSorted calls .empty).2 (later : List (Call S K V))) ∧
      ∃ copy, tree.cloneTree unset = .ok copy ∧ copy.toList = tree.toList ∧ copy.len = tree.len ∧
        SingleOwner copy ∧ (∀ object ∈ copy.liveObjects, tree.ledger.nextId ≤ object.id) ∧
        ∀ later, Follows layout copy (callAllSorted calls .empty).2 (later : List (Call S K V)) := by
  have start : Holds layout (RawBTree.new : RawBTree K V) [] := .vacant new_vacant
  obtain ⟨tree, held, returned, holds, contentsEq⟩ := @Holds.callAll _ _ _ _ _ _ _ .empty start rfl calls
  obtain ⟨copy, held', cloned, holds', sameContents, made, dropped⟩ := holds.cloneTree unset
  refine ⟨tree, returned, ?_, ?_, fun later => holds.follows contentsEq later, copy, cloned, ?_, ?_,
    made.singleOwner dropped, fun object live => made.le_id live,
    fun later => holds'.follows (sameContents.trans contentsEq) later⟩
  · rw [holds.toList_eq, contentsEq]
  · rw [holds.len_eq, contentsEq]
  · rw [holds'.toList_eq, holds.toList_eq, sameContents]
  · rw [holds'.len_eq, holds.len_eq, sameContents]

end Refinement

end Optimap.FlatBTree
