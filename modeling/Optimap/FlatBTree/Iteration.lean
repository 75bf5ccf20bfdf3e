import Optimap.FlatBTree.Refinement

/-!
# Iteration along the leaf chain

`Iter` is a cursor into the chain of leaves. It relies on the length of the tree:
while entries remain, the leaves to come hold them.
-/

set_option autoImplicit false
set_option linter.unusedSectionVars false

namespace Optimap.FlatBTree

open Lib

variable {K V : Type}

/-- The front of the iterator, with the number of entries that remain. -/
structure Iter where
  frontLeaf : Option NodeIdx
  frontIdx : Nat
  remaining : Nat

namespace Iter

/-- `next`, which looks at `fuel` leaves at most. -/
def next (tree : RawBTree K V) : Nat → Iter → Result (Option (K × V) × Iter)
  | 0, _ => .error .endless
  | fuel + 1, iter =>
      if iter.remaining = 0 then .ok (none, iter)
      else do
        let leaf ← deref iter.frontLeaf
        match (tree.node leaf).entries[iter.frontIdx]? with
        | some entry =>
            pure (some (entry.1.key, entry.2),
              { iter with frontIdx := iter.frontIdx + 1, remaining := iter.remaining - 1 })
        | none =>
            next tree fuel { iter with frontLeaf := (tree.node leaf).next, frontIdx := 0 }

/-- Everything the iterator yields. -/
def collect (tree : RawBTree K V) : Nat → Iter → Result (List (K × V))
  | 0, _ => .error .endless
  | fuel + 1, iter => do
      let (item, iter) ← iter.next tree (tree.arena.len + 1)
      match item with
      | none => pure []
      | some pair => do
          let rest ← collect tree fuel iter
          pure (pair :: rest)

end Iter

def RawBTree.iter (tree : RawBTree K V) : Iter := ⟨tree.firstLeaf, 0, tree.len⟩

def RawBTree.iterate (tree : RawBTree K V) : Result (List (K × V)) :=
  tree.iter.collect tree (tree.len + 1)

section Collecting
variable {tree : RawBTree K V}

/-- The entries from a cell of the chain on. -/
def chainEntries (tree : RawBTree K V) (leaves : List NodeIdx) : List (KeyObj K × V) :=
  leaves.flatMap fun leaf => (tree.node leaf).entries

theorem chainEntries_cons (leaf : NodeIdx) (leaves : List NodeIdx) :
    chainEntries tree (leaf :: leaves) = (tree.node leaf).entries ++ chainEntries tree leaves := rfl

/-- The iterator stands in the chain in front of these entries. -/
structure Iter.Stands (tree : RawBTree K V) (iter : Iter) (leaves : List NodeIdx)
    (rest : List (KeyObj K × V)) : Prop where
  front : iter.frontLeaf = leaves.head?
  threads : Threads (fun idx => (tree.node idx).next) leaves
  rest_eq : (chainEntries tree leaves).drop iter.frontIdx = rest
  inside : ∀ leaf ∈ leaves.head?, iter.frontIdx ≤ (tree.node leaf).entries.length
  counted : iter.remaining = rest.length

theorem Iter.Stands.next_spec {leaves : List NodeIdx} {rest : List (KeyObj K × V)} {iter : Iter} {fuel : Nat}
    (stands : iter.Stands tree leaves rest) (enough : leaves.length < fuel) :
    (rest = [] ∧ iter.next tree fuel = .ok (none, iter)) ∨
      ∃ entry rest' iter' leaves', rest = entry :: rest' ∧
        iter.next tree fuel = .ok (some (entry.1.key, entry.2), iter') ∧
        iter'.Stands tree leaves' rest' ∧ leaves'.length ≤ leaves.length := by
  obtain ⟨fuel, rfl⟩ := Nat.exists_eq_add_one_of_ne_zero (Nat.ne_zero_of_lt enough)
  induction leaves generalizing iter fuel with
  | nil =>
      have none : rest = [] := by
        rw [← stands.rest_eq]
        simp [chainEntries]
      have zero : iter.remaining = 0 := by rw [stands.counted, none]; rfl
      refine .inl ⟨none, ?_⟩
      rw [Iter.next, if_pos zero]
  | cons leaf leaves ih =>
      obtain ⟨forward, threads⟩ := stands.threads
      have front : iter.frontLeaf = some leaf := stands.front
      have inside : iter.frontIdx ≤ (tree.node leaf).entries.length := stands.inside leaf rfl
      have restEq : (tree.node leaf).entries.drop iter.frontIdx ++ chainEntries tree leaves = rest := by
        rw [← stands.rest_eq, chainEntries_cons, List.drop_append_of_le_length inside]
      by_cases zero : iter.remaining = 0
      · refine .inl ⟨List.length_eq_zero_iff.mp (stands.counted ▸ zero), ?_⟩
        rw [Iter.next, if_pos zero]
      · cases found : (tree.node leaf).entries[iter.frontIdx]? with
        | some entry =>
            obtain ⟨bound, entryEq⟩ := List.getElem?_eq_some_iff.mp found
            rw [List.drop_eq_getElem_cons bound, entryEq] at restEq
            refine .inr ⟨entry, _, { iter with
              frontIdx := iter.frontIdx + 1, remaining := iter.remaining - 1 }, leaf :: leaves, restEq.symm,
              ?_, ⟨front, stands.threads, ?_, ?_, ?_⟩, le_rfl⟩
            · rw [Iter.next, if_neg zero, front]
              simp only [deref, bind, Except.bind, found]
              rfl
            · rw [chainEntries_cons, List.drop_append_of_le_length (Nat.succ_le_of_lt bound)]
              rfl
            · rintro other ⟨⟩
              exact Nat.succ_le_of_lt bound
            · have counted := stands.counted
              rw [← restEq] at counted
              simp only [List.cons_append, List.length_cons] at counted
              rw [counted]
              rfl
        | none =>
            have atEnd : (tree.node leaf).entries.length ≤ iter.frontIdx := List.getElem?_eq_none_iff.mp found
            have moved : Iter.Stands tree { iter with
                frontLeaf := (tree.node leaf).next, frontIdx := 0 } leaves rest := by
              refine ⟨forward, threads, ?_, fun _ _ => Nat.zero_le _, stands.counted⟩
              rw [← restEq, List.drop_eq_nil_of_le atEnd]
              rfl
            have step : iter.next tree (fuel + 1) =
                Iter.next tree fuel { iter with frontLeaf := (tree.node leaf).next, frontIdx := 0 } := by
              rw [Iter.next, if_neg zero, front]
              simp only [deref, bind, Except.bind, found]
            rw [step]
            simp only [List.length_cons] at enough
            obtain ⟨fuel, rfl⟩ := Nat.exists_eq_add_one_of_ne_zero (show fuel ≠ 0 by omega)
            rcases ih moved fuel (by omega) with ⟨done, _⟩ | ⟨entry, rest', iter', leaves', found', more⟩
            · exact absurd (stands.counted.trans (by rw [done]; rfl)) zero
            · exact .inr ⟨entry, rest', iter', leaves', found', more.1, more.2.1,
                more.2.2.trans (Nat.le_succ _)⟩

theorem Iter.Stands.collect_eq {leaves : List NodeIdx} {rest : List (KeyObj K × V)} {iter : Iter} {fuel : Nat}
    (stands : iter.Stands tree leaves rest) (enough : leaves.length ≤ tree.arena.len)
    (long : rest.length < fuel) :
    iter.collect tree fuel = .ok (rest.map fun entry => (entry.1.key, entry.2)) := by
  induction fuel generalizing leaves rest iter with
  | zero => omega
  | succ fuel ih =>
      rcases stands.next_spec (Nat.lt_succ_of_le enough) with ⟨rfl, returned⟩ | ⟨entry, rest', iter', leaves', rfl, returned, more⟩
      · simp only [Iter.collect, returned, bind, Except.bind]
        rfl
      · have later := ih more.1 (more.2.trans enough) (by simp only [List.length_cons] at long; omega)
        simp only [Iter.collect, returned, bind, Except.bind, later]
        rfl

variable [LinearOrder K] {layout : NodeLayout} {items : List (LevelItem K)} {held : List (Mark K V)}

/-- Iterating over a row of leaves yields their entries in order. -/
theorem LeafRow.iterate_eq (row : LeafRow layout tree items)
    (enough : (Item.nodes items).length ≤ tree.arena.len) :
    tree.iterate = .ok (contents (marks tree.node items)) := by
  have stands : Iter.Stands tree tree.iter (Item.nodes items) (chainEntries tree (Item.nodes items)) :=
    ⟨row.first, row.linked.threads_next, rfl, fun _ _ => Nat.zero_le _, by
      rw [chainEntries, ← nodes_marks]
      exact row.len⟩
  rw [RawBTree.iterate, stands.collect_eq enough, contents, nodes_marks]
  · rfl
  · rw [row.len, nodes_marks]
    exact Nat.lt_succ_self _

theorem Holds.iterate_eq (holds : Holds layout tree held) : tree.iterate = .ok (contents held) := by
  cases holds with
  | vacant empty =>
      rw [RawBTree.iterate, RawBTree.iter, empty.len]
      rfl
  | rooted rooted => exact rooted.row.iterate_eq rooted.length_le

end Collecting

end Optimap.FlatBTree
