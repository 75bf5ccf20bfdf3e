import Optimap.FlatBTree.Range
import Optimap.FlatBTree.Iteration

/-!
# `retain` filters the leaves in place

The separators and the shape of the tree stay, so leaves can end up empty; the
tree is as good as before for searching and updating.
-/

set_option autoImplicit false
set_option linter.unusedSectionVars false

namespace Optimap.FlatBTree

open Lib

variable {K V S : Type} [LinearOrder K] {layout : NodeLayout} {tree : RawBTree K V} {root : NodeIdx}
  {items : List (LevelItem K)} {held : List (Mark K V)}

/-- What `retain` means on a list of pairs. -/
def retainPairs (visit : RawBTree.Visit S K V) : S → List (K × V) → S × List (K × V)
  | state, [] => (state, [])
  | state, (key, value) :: pairs =>
      match visit state key value with
      | (true, value', state') =>
          ((retainPairs visit state' pairs).1, (key, value') :: (retainPairs visit state' pairs).2)
      | (false, _, state') => retainPairs visit state' pairs

theorem retainPairs_append (visit : RawBTree.Visit S K V) (state : S) (left right : List (K × V)) :
    retainPairs visit state (left ++ right) =
      ((retainPairs visit (retainPairs visit state left).1 right).1,
        (retainPairs visit state left).2 ++ (retainPairs visit (retainPairs visit state left).1 right).2) := by
  induction left generalizing state with
  | nil => rfl
  | cons pair left ih =>
      obtain ⟨key, value⟩ := pair
      rw [List.cons_append, retainPairs, retainPairs]
      split
      · next value' state' _ => rw [ih state', List.cons_append]
      · next value' state' _ => rw [ih state']

/-- The keys and values of entries. -/
def pairsOf (entries : List (KeyObj K × V)) : List (K × V) := entries.map fun entry => (entry.1.key, entry.2)

/-- A leaf after the loop over the entries `todo` of it. -/
structure LeafRetained (layout : NodeLayout) (tree tree' : RawBTree K V) (root : NodeIdx)
    (items : List (LevelItem K)) (leaf : NodeIdx) (done kept : List (KeyObj K × V)) : Prop where
  rooted : Rooted layout tree' root items
  entries_eq : (tree'.node leaf).entries = done ++ kept
  others : ∀ idx, idx ≠ leaf → tree'.node idx = tree.node idx
  next_eq : (tree'.node leaf).next = (tree.node leaf).next
  arenaLen : tree'.arena.len = tree.arena.len

/-- One write to a leaf, with the length and the ledger that go with it. -/
theorem Rooted.writeLeaf {left right : List (LevelItem K)} {leaf : NodeIdx} {entries : List (KeyObj K × V)}
    {len : Nat} {written : RawBTree K V} (ledger : Ledger) (rooted : Rooted layout tree root items)
    (split : items = left ++ .node leaf :: right)
    (made : written = { RawBTree.setEntries { tree with ledger := ledger } entries leaf with len := len })
    (fits : entries.length ≤ layout.leafCap)
    (sorted : Mark.Sorted (marks tree.node left ++ (entries.map .node ++ marks tree.node right)))
    (counted : len = (Item.nodes (marks tree.node left ++
      ((entries.map .node : List (Mark K V)) ++ marks tree.node right))).length) :
    LeafRetained layout tree written root items leaf entries [] := by
  have rooted' := ((rooted.setLedger ledger).setEntries split fits sorted counted).1
  subst made
  refine ⟨rooted', ?_, fun idx different => ?_, ?_, rfl⟩
  · have onLeaf := congrArg Node.entries (@RawBTree.node_modify_self _ _ { tree with ledger := ledger } leaf
      fun node => node.setEntries entries)
    rw [List.append_nil]
    exact onLeaf
  · exact @RawBTree.node_modify_of_ne _ _ { tree with ledger := ledger } leaf idx
      (fun node => node.setEntries entries) different
  · have onLeaf := congrArg Node.next (@RawBTree.node_modify_self _ _ { tree with ledger := ledger } leaf
      fun node => node.setEntries entries)
    exact onLeaf

theorem LeafRetained.trans {tree' tree'' : RawBTree K V} {leaf : NodeIdx}
    {done kept done' kept' : List (KeyObj K × V)}
    (first : LeafRetained layout tree tree' root items leaf done kept)
    (second : LeafRetained layout tree' tree'' root items leaf done' kept') :
    LeafRetained layout tree tree'' root items leaf done' kept' :=
  ⟨second.rooted, second.entries_eq,
    fun idx different => (second.others idx different).trans (first.others idx different),
    second.next_eq.trans first.next_eq, second.arenaLen.trans first.arenaLen⟩

theorem Rooted.retainLeaf (visit : RawBTree.Visit S K V) {left right : List (LevelItem K)} {leaf : NodeIdx}
    {done todo : List (KeyObj K × V)} (rooted : Rooted layout tree root items)
    (split : items = left ++ .node leaf :: right) (entriesEq : (tree.node leaf).entries = done ++ todo)
    (state : S) :
    ∃ tree' kept, RawBTree.retainLeaf visit leaf todo.length done.length state tree =
        ((retainPairs visit state (pairsOf todo)).1, tree') ∧
      pairsOf kept = (retainPairs visit state (pairsOf todo)).2 ∧
      LeafRetained layout tree tree' root items leaf done kept := by
  induction todo generalizing tree done state with
  | nil =>
      exact ⟨tree, [], rfl, rfl, rooted, entriesEq, fun _ _ => rfl, rfl, rfl⟩
  | cons entry todo ih =>
      have found : (tree.node leaf).entries[done.length]? = some entry := by rw [entriesEq]; simp
      have sorted := rooted.row.sorted
      have counted := rooted.row.len
      have fits := rooted.row.fits leaf (by rw [split]; simp)
      rw [split, marks_append, marks_node, entriesEq, List.map_append, List.map_cons, List.append_assoc,
        List.cons_append, ← List.append_assoc] at sorted counted
      rw [entriesEq, List.length_append, List.length_cons] at fits
      obtain ⟨keep, value, state', visited⟩ : ∃ keep value state', visit state entry.1.key entry.2 =
          (keep, value, state') := ⟨_, _, _, rfl⟩
      rw [List.length_cons, RawBTree.retainLeaf]
      simp only [found, visited]
      cases keep with
      | true =>
          have newEntries : (tree.node leaf).entries.set done.length (entry.1, value) =
              (done ++ [(entry.1, value)]) ++ todo := by
            rw [entriesEq]; simp
          have written := @Rooted.writeLeaf _ _ _ _ _ _ _ left right leaf
            ((done ++ [(entry.1, value)]) ++ todo) tree.len _ tree.ledger rooted split rfl
            (by simp only [List.length_append, List.length_singleton]; omega)
            (by
              have replaced := @Mark.Sorted.replace_entry _ _ _ _ _ entry (entry.1, value) rfl sorted
              simpa using replaced)
            (by rw [counted]; simp)
          obtain ⟨tree', kept, ran, keptEq, retained⟩ :=
            ih written.rooted (written.entries_eq.trans (List.append_nil _)) state'
          have opened : retainPairs visit state (pairsOf (entry :: todo)) =
              ((retainPairs visit state' (pairsOf todo)).1,
                (entry.1.key, value) :: (retainPairs visit state' (pairsOf todo)).2) := by
            rw [pairsOf, List.map_cons, retainPairs, visited]
            rfl
          rw [opened]
          refine ⟨tree', (entry.1, value) :: kept, ?_, ?_, ?_⟩
          · rw [List.length_append, List.length_singleton] at ran
            rw [if_pos rfl, newEntries]
            exact ran
          · rw [← keptEq]
            rfl
          · have through := written.trans retained
            exact ⟨through.rooted, by rw [through.entries_eq]; simp, through.others, through.next_eq,
              through.arenaLen⟩
      | false =>
          have newEntries : (tree.node leaf).entries.eraseIdx done.length = done ++ todo := by
            rw [entriesEq]; simp [List.eraseIdx_append_of_length_le]
          have written := @Rooted.writeLeaf _ _ _ _ _ _ _ left right leaf (done ++ todo) (tree.len - 1) _
            { tree.ledger with dropped := entry.1.id :: tree.ledger.dropped } rooted split rfl
            (by simp only [List.length_append]; omega)
            (by
              have removed := sorted.remove
              simpa using removed)
            (by
              rw [counted]
              simp
              omega)
          obtain ⟨tree', kept, ran, keptEq, retained⟩ :=
            ih written.rooted (written.entries_eq.trans (List.append_nil _)) state'
          have opened : retainPairs visit state (pairsOf (entry :: todo)) =
              retainPairs visit state' (pairsOf todo) := by
            rw [pairsOf, List.map_cons, retainPairs, visited]
            rfl
          rw [opened]
          refine ⟨tree', kept, ?_, keptEq, written.trans retained⟩
          rw [if_neg (by simp), newEntries]
          exact ran

/-- The leaves `todo` of the chain after `retain` has been through them. -/
theorem Rooted.retainLeaves (visit : RawBTree.Visit S K V) {done todo : List NodeIdx} {fuel : Nat}
    (rooted : Rooted layout tree root items) (chain : Item.nodes items = done ++ todo)
    (enough : todo.length ≤ fuel) (state : S) :
    ∃ tree', RawBTree.retainLeaves visit fuel todo.head? state tree =
        .ok ((retainPairs visit state (pairsOf (chainEntries tree todo))).1, tree') ∧
      Rooted layout tree' root items ∧ (∀ idx ∈ done, tree'.node idx = tree.node idx) ∧
      pairsOf (chainEntries tree' todo) = (retainPairs visit state (pairsOf (chainEntries tree todo))).2 := by
  induction todo generalizing tree done fuel state with
  | nil =>
      refine ⟨tree, ?_, rooted, fun _ _ => rfl, rfl⟩
      cases fuel <;> rfl
  | cons leaf todo ih =>
      cases fuel with
      | zero => simp at enough
      | succ fuel =>
          obtain ⟨left, right, split, leftNodes, rightNodes⟩ := Item.nodes_split chain
          obtain ⟨middle, kept, ran, keptEq, retained⟩ :=
            @Rooted.retainLeaf _ _ _ _ _ _ _ _ visit left right leaf [] _ rooted split rfl state
          have linked := rooted.row.linked
          rw [chain] at linked
          have next : (tree.node leaf).next = todo.head? := linked.around.2.trans Option.or_none
          have unique := rooted.nodes_nodup
          rw [chain] at unique
          obtain ⟨_, leafUnique, apart⟩ := List.nodup_append.mp unique
          have later : ∀ idx ∈ todo, middle.node idx = tree.node idx := by
            intro idx member
            refine retained.others idx fun same => ?_
            exact (List.nodup_cons.mp leafUnique).1 (same ▸ member)
          have sameRest : chainEntries middle todo = chainEntries tree todo :=
            List.flatMap_congr fun idx member => by rw [later idx member]
          obtain ⟨tree', walked, rooted', before, restEq⟩ := @ih middle (done ++ [leaf]) fuel retained.rooted
            (by rw [chain]; simp) (by simpa using enough)
            (retainPairs visit state (pairsOf (tree.node leaf).entries)).1
          have splitPairs : pairsOf (chainEntries tree (leaf :: todo)) =
              pairsOf (tree.node leaf).entries ++ pairsOf (chainEntries tree todo) := by
            rw [chainEntries_cons, pairsOf, List.map_append]
            rfl
          rw [sameRest] at walked restEq
          refine ⟨tree', ?_, rooted', fun idx member => ?_, ?_⟩
          · rw [List.head?_cons, RawBTree.retainLeaves]
            simp only [List.length_nil] at ran
            simp only [ran, next, walked, splitPairs, retainPairs_append]
          · rw [before idx (List.mem_append_left _ member)]
            exact retained.others idx (apart idx member leaf List.mem_cons_self)
          · rw [splitPairs, retainPairs_append, ← restEq, ← keptEq, chainEntries_cons,
              before leaf (List.mem_append_right _ List.mem_cons_self), retained.entries_eq]
            simp [pairsOf]

/-- `retain` keeps a tree well formed and filters its entries in ascending order. -/
theorem Holds.retain (visit : RawBTree.Visit S K V) (holds : Holds layout tree held) (state : S) :
    ∃ tree' held', tree.retain visit state = .ok ((retainPairs visit state (contents held)).1, tree') ∧
      Holds layout tree' held' ∧ contents held' = (retainPairs visit state (contents held)).2 := by
  cases holds with
  | vacant empty =>
      obtain ⟨tree', cleared, vacant, _⟩ := (Holds.vacant empty : Holds layout tree []).clear
      refine ⟨tree', [], ?_, .vacant vacant, rfl⟩
      have walked : RawBTree.retainLeaves visit tree.arena.len tree.firstLeaf state tree = .ok (state, tree) := by
        rw [empty.firstLeaf]
        cases tree.arena.len <;> rfl
      simp only [RawBTree.retain, walked, bind, Except.bind, empty.len, cleared]
      rfl
  | @rooted root items rooted =>
      obtain ⟨tree', walked, rooted', _, filtered⟩ :=
        @Rooted.retainLeaves _ _ _ _ _ _ _ _ visit [] (Item.nodes items) tree.arena.len rooted rfl
          rooted.length_le state
      have before : contents (marks tree.node items) = pairsOf (chainEntries tree (Item.nodes items)) := by
        rw [contents, nodes_marks]
        rfl
      have after : contents (marks tree'.node items) = pairsOf (chainEntries tree' (Item.nodes items)) := by
        rw [contents, nodes_marks]
        rfl
      rw [← rooted.row.first] at walked
      rw [before]
      by_cases emptied : tree'.len = 0
      · obtain ⟨final, cleared, vacant, _⟩ := (Holds.rooted rooted' : Holds layout tree' _).clear
        refine ⟨final, [], ?_, .vacant vacant, ?_⟩
        · simp only [RawBTree.retain, walked, bind, Except.bind, emptied, cleared]
          rfl
        · have length := (Holds.rooted rooted' : Holds layout tree' _).len_eq
          rw [emptied, after, filtered] at length
          exact (List.length_eq_zero_iff.mp length.symm).symm
      · refine ⟨tree', _, ?_, .rooted rooted', after.trans filtered⟩
        simp only [RawBTree.retain, walked, bind, Except.bind, if_neg emptied]
        rfl

end Optimap.FlatBTree
