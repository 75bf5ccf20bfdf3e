import Optimap.FlatBTree.RangeLaw

/-!
# The owning iterator and what its drop releases

`IntoIter` moves entries out of the leaves. When it is dropped it releases the rest
of the leaves by itself and takes the root away from the tree, whose own destructor
then finds nothing: the leaves are released exactly once, the separators not at all.
-/

set_option autoImplicit false
set_option linter.unusedSectionVars false

namespace Optimap.FlatBTree

open Lib

variable {K V : Type}

/-- What a destructor has released: keys and values of leaf slots, and separators. -/
structure Released (K V : Type) where
  entries : List (KeyObj K × V)
  separators : List (KeyObj K)

namespace RawBTree

/-- `RawBTree::drop`, as the list of what `drop_all_contents` drops. -/
def release (tree : RawBTree K V) : Result (Released K V) :=
  match tree.root with
  | none => .ok ⟨[], []⟩
  | some root => do
      let leaves ← tree.leafChain Node.next tree.arena.len tree.firstLeaf
      let separators ← tree.internalKeys tree.height root
      pure ⟨leaves.flatMap fun leaf => (tree.node leaf).entries, separators⟩

theorem dropAllContents_eq_release (tree : RawBTree K V) :
    tree.dropAllContents = tree.release.map fun released =>
      (tree.dropAll (released.entries.map Prod.fst)).dropAll released.separators := by
  rw [dropAllContents, release]
  cases tree.root with
  | none => rfl
  | some root =>
      simp only [bind, Except.bind]
      cases tree.leafChain Node.next tree.arena.len tree.firstLeaf with
      | error fault => rfl
      | ok leaves =>
          simp only
          cases tree.internalKeys tree.height root with
          | error fault => rfl
          | ok separators => simp [Except.map, pure, Except.pure, List.map_flatMap]

end RawBTree

structure IntoIter (K V : Type) where
  tree : RawBTree K V
  currentLeaf : Option NodeIdx
  currentIdx : Nat
  /-- The slots of the current leaf before this one have been read out. -/
  consumedStart : Nat
  remaining : Nat

def RawBTree.intoIter (tree : RawBTree K V) : IntoIter K V := ⟨tree, tree.firstLeaf, 0, 0, tree.len⟩

namespace IntoIter

/-- `next`, which looks at `fuel` leaves at most. A leaf it moves on from is left
with `len = 0`. -/
def next : Nat → IntoIter K V → Result (Option (KeyObj K × V) × IntoIter K V)
  | 0, _ => .error .endless
  | fuel + 1, iter =>
      match iter.currentLeaf with
      | none => .ok (none, iter)
      | some leaf =>
          match (iter.tree.node leaf).entries[iter.currentIdx]? with
          | some entry =>
              .ok (some entry, { iter with
                currentIdx := iter.currentIdx + 1
                consumedStart := iter.currentIdx + 1
                remaining := iter.remaining - 1 })
          | none =>
              next fuel { iter with
                tree := iter.tree.setEntries [] leaf
                currentLeaf := (iter.tree.node leaf).next
                currentIdx := 0
                consumedStart := 0 }

/-- What `count` calls of `next` yield. -/
def nextMany : Nat → IntoIter K V → Result (List (KeyObj K × V) × IntoIter K V)
  | 0, iter => .ok ([], iter)
  | count + 1, iter => do
      let (item, iter) ← iter.next (iter.tree.arena.len + 1)
      let (items, iter) ← nextMany count iter
      pure (item.toList ++ items, iter)

/-- The remaining leaves, whose contents are dropped and which are left with `len = 0`. -/
def dropLeaves : Nat → Option NodeIdx → RawBTree K V → Result (List (KeyObj K × V) × RawBTree K V)
  | _, none, tree => .ok ([], tree)
  | 0, some _, _ => .error .endless
  | fuel + 1, some leaf, tree => do
      let (rest, tree') ← dropLeaves fuel (tree.node leaf).next (tree.setEntries [] leaf)
      pure ((tree.node leaf).entries ++ rest, tree')

/-- The part of `drop` before the state of the tree is cleared. -/
def dropRest (iter : IntoIter K V) : Result (List (KeyObj K × V) × RawBTree K V) :=
  match iter.currentLeaf with
  | none => .ok ([], iter.tree)
  | some leaf => do
      let (rest, tree) ←
        dropLeaves iter.tree.arena.len (iter.tree.node leaf).next (iter.tree.setEntries [] leaf)
      pure ((iter.tree.node leaf).entries.drop iter.consumedStart ++ rest, tree)

/-- `drop`, followed by the drop of the tree inside. -/
def drop (iter : IntoIter K V) : Result (Released K V) := do
  let (entries, tree) ← iter.dropRest
  let released ← RawBTree.release { tree with firstLeaf := none, root := none }
  pure ⟨entries ++ released.entries, released.separators⟩

end IntoIter

/-! ## What the calls leave behind -/

section Walk
variable {tree : RawBTree K V} {leaf : NodeIdx} {leaves : List NodeIdx}

/-- The iterator owns these entries, in the current leaf and the leaves behind it. -/
structure IntoIter.Owns (iter : IntoIter K V) (leaves : List NodeIdx) (rest : List (KeyObj K × V)) : Prop where
  current : iter.currentLeaf = leaves.head?
  threads : Threads (fun idx => (iter.tree.node idx).next) leaves
  unique : leaves.Nodup
  enough : leaves.length ≤ iter.tree.arena.len
  rest_eq : (chainEntries iter.tree leaves).drop iter.currentIdx = rest
  inside : ∀ leaf ∈ leaves.head?, iter.currentIdx ≤ (iter.tree.node leaf).entries.length
  consumed : iter.consumedStart = iter.currentIdx
  counted : iter.remaining = rest.length

theorem setEntries_next (entries : List (KeyObj K × V)) (idx : NodeIdx) :
    ((tree.setEntries entries leaf).node idx).next = (tree.node idx).next := by
  by_cases same : idx = leaf
  · rw [same, RawBTree.setEntries, RawBTree.node_modify_self]
    rfl
  · rw [RawBTree.setEntries, RawBTree.node_modify_of_ne _ same]

theorem Threads.of_next {tree' : RawBTree K V} (threads : Threads (fun idx => (tree.node idx).next) leaves)
    (same : ∀ idx, (tree'.node idx).next = (tree.node idx).next) :
    Threads (fun idx => (tree'.node idx).next) leaves := by
  have links : (fun idx => (tree'.node idx).next) = fun idx => (tree.node idx).next := funext same
  rw [links]
  exact threads

theorem chainEntries_setEntries (entries : List (KeyObj K × V)) (other : leaf ∉ leaves) :
    chainEntries (tree.setEntries entries leaf) leaves = chainEntries tree leaves := by
  refine List.flatMap_congr fun idx member => ?_
  have different : idx ≠ leaf := fun same => other (same ▸ member)
  rw [RawBTree.setEntries, RawBTree.node_modify_of_ne _ different]

theorem IntoIter.Owns.next {iter : IntoIter K V} {rest : List (KeyObj K × V)} {fuel : Nat}
    (owns : iter.Owns leaves rest) (enough : leaves.length < fuel) :
    ∃ iter' leaves', iter.next fuel = .ok (rest.head?, iter') ∧ iter'.Owns leaves' rest.tail := by
  induction leaves generalizing iter fuel with
  | nil =>
      cases fuel with
      | zero => simp at enough
      | succ fuel =>
          have none_left : rest = [] := by
            rw [← owns.rest_eq]
            simp [chainEntries]
          have current : iter.currentLeaf = none := owns.current
          refine ⟨iter, [], ?_, ?_⟩
          · rw [IntoIter.next, current, none_left]
            rfl
          · rw [none_left] at owns ⊢
            exact owns
  | cons leaf leaves ih =>
      cases fuel with
      | zero => simp at enough
      | succ fuel =>
          obtain ⟨forward, threads⟩ := owns.threads
          obtain ⟨notLater, unique⟩ := List.nodup_cons.mp owns.unique
          have current : iter.currentLeaf = some leaf := owns.current
          have inside : iter.currentIdx ≤ (iter.tree.node leaf).entries.length := owns.inside leaf rfl
          have restEq : (iter.tree.node leaf).entries.drop iter.currentIdx ++ chainEntries iter.tree leaves =
              rest := by
            rw [← owns.rest_eq, chainEntries_cons, List.drop_append_of_le_length inside]
          cases found : (iter.tree.node leaf).entries[iter.currentIdx]? with
          | some entry =>
              obtain ⟨bound, entryEq⟩ := List.getElem?_eq_some_iff.mp found
              rw [List.drop_eq_getElem_cons bound, entryEq] at restEq
              subst restEq
              refine ⟨{ iter with
                currentIdx := iter.currentIdx + 1
                consumedStart := iter.currentIdx + 1
                remaining := iter.remaining - 1 }, leaf :: leaves, ?_, ?_⟩
              · rw [IntoIter.next, current]
                simp only [found]
                rfl
              · refine ⟨current, owns.threads, owns.unique, owns.enough, ?_, ?_, rfl, ?_⟩
                · rw [chainEntries_cons, List.drop_append_of_le_length (Nat.succ_le_of_lt bound)]
                  rfl
                · intro other isHead
                  cases isHead
                  exact Nat.succ_le_of_lt bound
                · have counted := owns.counted
                  simp only [List.cons_append, List.length_cons] at counted
                  simp [counted]
          | none =>
              have atEnd : (iter.tree.node leaf).entries.length ≤ iter.currentIdx :=
                List.getElem?_eq_none_iff.mp found
              rw [List.drop_eq_nil_of_le atEnd, List.nil_append] at restEq
              have length := owns.enough
              simp only [List.length_cons] at length enough
              have moved : IntoIter.Owns { iter with
                  tree := iter.tree.setEntries [] leaf
                  currentLeaf := (iter.tree.node leaf).next
                  currentIdx := 0
                  consumedStart := 0 } leaves rest := by
                refine ⟨forward, Threads.of_next threads (setEntries_next []), unique, ?_, ?_, ?_, rfl,
                  owns.counted⟩
                · exact Nat.le_of_succ_le length
                · rw [chainEntries_setEntries [] notLater]
                  exact restEq
                · exact fun _ _ => Nat.zero_le _
              obtain ⟨iter', leaves', yielded, owns'⟩ := ih moved (Nat.lt_of_succ_lt_succ enough)
              refine ⟨iter', leaves', ?_, owns'⟩
              rw [IntoIter.next, current]
              simp only [found]
              exact yielded

theorem IntoIter.Owns.nextMany {iter : IntoIter K V} {rest : List (KeyObj K × V)} (owns : iter.Owns leaves rest)
    (count : Nat) :
    ∃ iter' leaves', iter.nextMany count = .ok (rest.take count, iter') ∧
      iter'.Owns leaves' (rest.drop count) := by
  induction count generalizing iter leaves rest with
  | zero => exact ⟨iter, leaves, rfl, owns⟩
  | succ count ih =>
      obtain ⟨middle, between, yielded, owns'⟩ := owns.next (Nat.lt_succ_of_le owns.enough)
      obtain ⟨iter', leaves', later, owns''⟩ := ih owns'
      refine ⟨iter', leaves', ?_, ?_⟩
      · simp only [IntoIter.nextMany, yielded, later, bind, Except.bind]
        cases rest with
        | nil => simp [pure, Except.pure]
        | cons entry rest => rfl
      · rw [List.drop_tail] at owns''
        exact owns''

theorem dropLeaves_threads {fuel : Nat} (threads : Threads (fun idx => (tree.node idx).next) leaves)
    (unique : leaves.Nodup) (enough : leaves.length ≤ fuel) :
    ∃ tree', IntoIter.dropLeaves fuel leaves.head? tree = .ok (chainEntries tree leaves, tree') := by
  induction leaves generalizing tree fuel with
  | nil =>
      refine ⟨tree, ?_⟩
      cases fuel <;> rfl
  | cons leaf leaves ih =>
      cases fuel with
      | zero => simp at enough
      | succ fuel =>
          obtain ⟨forward, threads⟩ := threads
          obtain ⟨notLater, unique⟩ := List.nodup_cons.mp unique
          have next : (tree.node leaf).next = leaves.head? := forward
          obtain ⟨tree', walked⟩ := ih (Threads.of_next threads (setEntries_next [])) unique (by simpa using enough)
          rw [chainEntries_setEntries [] notLater] at walked
          refine ⟨tree', ?_⟩
          rw [List.head?_cons, IntoIter.dropLeaves, next]
          simp only [walked, bind, Except.bind]
          rfl

theorem IntoIter.Owns.drop {iter : IntoIter K V} {rest : List (KeyObj K × V)} (owns : iter.Owns leaves rest) :
    iter.drop = .ok ⟨rest, []⟩ := by
  have dropped : ∃ tree', iter.dropRest = .ok (rest, tree') := by
    cases leaves with
    | nil =>
        have none_left : rest = [] := by
          rw [← owns.rest_eq]
          simp [chainEntries]
        have current : iter.currentLeaf = none := owns.current
        refine ⟨iter.tree, ?_⟩
        rw [IntoIter.dropRest, current, none_left]
    | cons leaf leaves =>
        obtain ⟨forward, threads⟩ := owns.threads
        obtain ⟨notLater, unique⟩ := List.nodup_cons.mp owns.unique
        have current : iter.currentLeaf = some leaf := owns.current
        have inside : iter.currentIdx ≤ (iter.tree.node leaf).entries.length := owns.inside leaf rfl
        have next : (iter.tree.node leaf).next = leaves.head? := forward
        obtain ⟨tree', walked⟩ := dropLeaves_threads (Threads.of_next threads (setEntries_next [])) unique
          (Nat.le_of_succ_le owns.enough)
        rw [chainEntries_setEntries [] notLater] at walked
        refine ⟨tree', ?_⟩
        rw [IntoIter.dropRest, current]
        simp only [next, walked, bind, Except.bind, owns.consumed]
        rw [← owns.rest_eq, chainEntries_cons, List.drop_append_of_le_length inside]
        rfl
  obtain ⟨tree', dropped⟩ := dropped
  simp only [IntoIter.drop, dropped, bind, Except.bind, RawBTree.release, List.append_nil]
  rfl

end Walk

/-! ## The law -/

section Law
variable [LinearOrder K] {layout : NodeLayout} {tree : RawBTree K V}

/-- The live leaf slots of a tree. -/
def RawBTree.storedEntries (tree : RawBTree K V) : List (KeyObj K × V) :=
  match tree.root with
  | none => []
  | some root => entriesUnder tree.node root tree.height

/-- The cloned keys in the internal nodes. -/
def RawBTree.separators (tree : RawBTree K V) : List (KeyObj K) :=
  match tree.root with
  | none => []
  | some root => (above tree.node root tree.height).flatMap fun idx => (tree.node idx).keys

theorem liveObjects_eq (tree : RawBTree K V) :
    tree.liveObjects = tree.storedEntries.map Prod.fst ++ tree.separators := by
  rw [RawBTree.liveObjects, RawBTree.storedEntries, RawBTree.separators]
  cases tree.root <;> rfl

/-- Every leaf slot is yielded or released, once, and every separator released once. -/
structure ReleasedOnce (tree : RawBTree K V) (yielded : List (KeyObj K × V)) (released : Released K V) : Prop where
  leaves : (yielded ++ released.entries).Perm tree.storedEntries
  separators : released.separators.Perm tree.separators

theorem Standing.intoIter_owns {root : NodeIdx} {items : List (LevelItem K)}
    (standing : Standing layout tree root items) : tree.intoIter.Owns (Item.nodes items) tree.storedEntries := by
  have stored : tree.storedEntries = chainEntries tree (Item.nodes items) := by
    rw [RawBTree.storedEntries, standing.readable.root_eq]
    simp only [entriesUnder, standing.readable.level_eq]
    rfl
  rw [stored]
  refine ⟨standing.row.first, standing.row.linked.threads_next, standing.nodes_nodup, standing.length_le, rfl,
    fun _ _ => Nat.zero_le _, rfl, ?_⟩
  rw [chainEntries, ← nodes_marks]
  exact standing.row.len

theorem Reached.intoIter_owns (reached : Reached layout tree) :
    ∃ leaves, tree.intoIter.Owns leaves tree.storedEntries := by
  cases reached.outline with
  | inl empty =>
      have stored : tree.storedEntries = [] := by rw [RawBTree.storedEntries, empty.root]
      rw [stored]
      exact ⟨[], empty.firstLeaf, trivial, List.nodup_nil, Nat.zero_le _, rfl, by simp, rfl, empty.len⟩
  | inr standing =>
      obtain ⟨root, items, standing, _⟩ := standing
      exact ⟨_, standing.intoIter_owns⟩

theorem Reached.separators_nil_iff (reached : Reached layout tree) : tree.separators = [] ↔ tree.height = 0 := by
  cases reached.outline with
  | inl empty =>
      rw [RawBTree.separators, empty.root]
      exact iff_of_true rfl empty.height
  | inr standing =>
      obtain ⟨root, items, standing, keyed⟩ := standing
      rw [RawBTree.separators, standing.readable.root_eq]
      constructor
      · intro none_above
        by_contra tall
        have positive := Nat.pos_of_ne_zero tall
        have inCrown : root ∈ above tree.node root tree.height :=
          mem_above.mpr ⟨0, positive, by simp [level]⟩
        exact keyed positive (List.flatMap_eq_nil_iff.mp none_above root inCrown)
      · intro flat
        rw [flat]
        rfl

end Law

end Optimap.FlatBTree
