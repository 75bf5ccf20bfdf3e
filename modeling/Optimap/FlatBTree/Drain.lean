import Optimap.FlatBTree.IntoIter
import Optimap.FlatBTree.RetainRuns

/-!
# The draining iterator

`Drain` moves entries out of the leaves of a tree it borrows, and empties each leaf it moves
on from. When it is dropped it takes the remaining entries, and then clears the tree: that
visits the leaves, now empty, once more, and every separator.
-/

set_option autoImplicit false
set_option linter.unusedSectionVars false

namespace Optimap.FlatBTree

open Lib

variable {K V : Type}

structure Drain (K V : Type) where
  tree : RawBTree K V
  currentLeaf : Option NodeIdx
  currentIdx : Nat
  remaining : Nat

def RawBTree.drain (tree : RawBTree K V) : Drain K V := ⟨tree, tree.firstLeaf, 0, tree.len⟩

namespace Drain

/-- `next`, which looks at `fuel` leaves at most. -/
def next : Nat → Drain K V → Result (Option (KeyObj K × V) × Drain K V)
  | 0, _ => .error .endless
  | fuel + 1, drain =>
      match drain.currentLeaf with
      | none => .ok (none, drain)
      | some leaf =>
          match (drain.tree.node leaf).entries[drain.currentIdx]? with
          | some entry =>
              .ok (some entry, { drain with
                tree := { drain.tree with len := drain.tree.len - 1 }
                currentIdx := drain.currentIdx + 1
                remaining := drain.remaining - 1 })
          | none =>
              next fuel { drain with
                tree := drain.tree.setEntries [] leaf
                currentLeaf := (drain.tree.node leaf).next
                currentIdx := 0 }

/-- What `count` calls of `next` yield. -/
def nextMany : Nat → Drain K V → Result (List (KeyObj K × V) × Drain K V)
  | 0, drain => .ok ([], drain)
  | count + 1, drain => do
      let (item, drain) ← drain.next (drain.tree.arena.len + 1)
      let (items, drain) ← nextMany count drain
      pure (item.toList ++ items, drain)

/-- `next` until it yields nothing, `fuel` calls at most. -/
def collect : Nat → Drain K V → Result (List (KeyObj K × V) × Drain K V)
  | 0, _ => .error .endless
  | fuel + 1, drain => do
      let (item, drain) ← drain.next (drain.tree.arena.len + 1)
      match item with
      | none => pure ([], drain)
      | some entry => do
          let (items, drain) ← collect fuel drain
          pure (entry :: items, drain)

/-- `drop`: what `next` still yields is dropped in that order, and the tree is cleared. -/
def drop (drain : Drain K V) : Result (RawBTree K V) := do
  let (rest, drain) ← drain.collect (drain.tree.len + 1)
  (drain.tree.dropAll (rest.map Prod.fst)).clear

end Drain

/-- `drain().collect()`: the pairs, and the tree after the iterator is dropped. -/
def RawBTree.drainAll (tree : RawBTree K V) : Result (List (K × V) × RawBTree K V) := do
  let (entries, drain) ← tree.drain.collect (tree.len + 1)
  let tree ← drain.drop
  pure (pairsOf entries, tree)

section Emptying

/-- The leaves that have been moved on from are empty. -/
def emptied (spent : List NodeIdx) (tree : RawBTree K V) : RawBTree K V :=
  spent.foldl (fun tree leaf => tree.setEntries [] leaf) tree

variable {tree : RawBTree K V} {spent leaves : List NodeIdx} {idx : NodeIdx}

theorem emptied_concat (leaf : NodeIdx) :
    emptied (spent ++ [leaf]) tree = (emptied spent tree).setEntries [] leaf := by
  rw [emptied, List.foldl_append]
  rfl

theorem emptied_frame (spent : List NodeIdx) (tree : RawBTree K V) :
    RawBTree.SameFrame tree (emptied spent tree) := by
  induction spent generalizing tree with
  | nil => exact .refl tree
  | cons leaf spent ih => exact (RawBTree.SameFrame.modify tree leaf _).trans (ih (tree.setEntries [] leaf))

/-- Emptying a leaf leaves its links alone, and the bytes of its first slot. -/
theorem node_emptied : (emptied spent tree).node idx =
    if idx ∈ spent then (tree.node idx).setEntries [] else tree.node idx := by
  induction spent generalizing tree with
  | nil => simp [emptied]
  | cons leaf spent ih =>
      have step : emptied (leaf :: spent) tree = emptied spent (tree.setEntries [] leaf) := rfl
      rw [step, ih]
      by_cases same : idx = leaf
      · subst same
        simp [RawBTree.setEntries, Node.setEntries]
      · rw [RawBTree.setEntries, RawBTree.node_modify_of_ne _ same]
        simp [same]

theorem emptied_next : ((emptied spent tree).node idx).next = (tree.node idx).next := by
  rw [node_emptied]
  split <;> rfl

theorem emptied_entries_of_notMem (left : idx ∉ spent) :
    ((emptied spent tree).node idx).entries = (tree.node idx).entries := by
  rw [node_emptied, if_neg left]

theorem chainEntries_emptied : chainEntries (emptied spent tree) spent = [] := by
  refine List.flatMap_eq_nil_iff.mpr fun leaf member => ?_
  rw [node_emptied, if_pos member]
  rfl

/-- The separators are found through the internal fields alone. -/
theorem internalKeys_congr {tree' : RawBTree K V} (steps : Nat) (idx : NodeIdx)
    (isLeaf : ∀ other, (tree'.node other).isLeaf = (tree.node other).isLeaf)
    (keys : ∀ other, (tree'.node other).keys = (tree.node other).keys)
    (children : ∀ other, (tree'.node other).children = (tree.node other).children) :
    tree'.internalKeys steps idx = tree.internalKeys steps idx := by
  induction steps generalizing idx with
  | zero =>
      unfold RawBTree.internalKeys
      rw [isLeaf]
  | succ steps ih =>
      unfold RawBTree.internalKeys
      simp only [isLeaf, keys, children, show tree'.internalKeys steps = tree.internalKeys steps from funext ih]

theorem emptied_internalKeys (steps : Nat) (idx : NodeIdx) :
    (emptied spent tree).internalKeys steps idx = tree.internalKeys steps idx := by
  refine internalKeys_congr steps idx (fun other => ?_) (fun other => ?_) fun other => ?_ <;>
  · rw [node_emptied]
    split <;> rfl

end Emptying

section Walk
variable {start : RawBTree K V} {spent leaves : List NodeIdx} {rest : List (KeyObj K × V)}

/-- The iterator stands in the chain of the tree it started from, in front of these entries
and behind the leaves it has emptied. -/
structure Drain.Stands (start : RawBTree K V) (drain : Drain K V) (spent leaves : List NodeIdx)
    (rest : List (KeyObj K × V)) : Prop where
  tree_eq : drain.tree = { emptied spent start with len := rest.length }
  current : drain.currentLeaf = leaves.head?
  threads : Threads (fun idx => (start.node idx).next) leaves
  unique : (spent ++ leaves).Nodup
  enough : leaves.length ≤ start.arena.len
  rest_eq : (chainEntries start leaves).drop drain.currentIdx = rest
  inside : ∀ leaf ∈ leaves.head?, drain.currentIdx ≤ (start.node leaf).entries.length
  counted : drain.remaining = rest.length

theorem Drain.Stands.node_eq {drain : Drain K V} (stands : drain.Stands start spent leaves rest)
    {leaf : NodeIdx} (member : leaf ∈ leaves) :
    (drain.tree.node leaf).entries = (start.node leaf).entries ∧
      (drain.tree.node leaf).next = (start.node leaf).next := by
  have same : drain.tree.node leaf = (emptied spent start).node leaf := by rw [stands.tree_eq]; rfl
  rw [same]
  refine ⟨emptied_entries_of_notMem fun inSpent => ?_, emptied_next⟩
  exact (List.nodup_append.mp stands.unique).2.2 leaf inSpent leaf member rfl

theorem Drain.Stands.arena_len {drain : Drain K V} (stands : drain.Stands start spent leaves rest) :
    drain.tree.arena.len = start.arena.len := by
  rw [stands.tree_eq]
  exact (emptied_frame spent start).arenaLen

theorem Drain.Stands.next {drain : Drain K V} {fuel : Nat} (stands : drain.Stands start spent leaves rest)
    (enough : leaves.length < fuel) :
    ∃ drain' spent' leaves', drain.next fuel = .ok (rest.head?, drain') ∧
      drain'.Stands start spent' leaves' rest.tail ∧ spent' ++ leaves' = spent ++ leaves ∧
      (rest = [] → leaves' = []) := by
  induction leaves generalizing drain spent fuel with
  | nil =>
      obtain ⟨fuel, rfl⟩ := Nat.exists_eq_add_one_of_ne_zero (Nat.ne_zero_of_lt enough)
      have noneLeft : rest = [] := by
        rw [← stands.rest_eq]
        simp [chainEntries]
      have current : drain.currentLeaf = none := stands.current
      refine ⟨drain, spent, [], ?_, ?_, rfl, fun _ => rfl⟩
      · rw [Drain.next, current, noneLeft]
        rfl
      · rw [noneLeft] at stands ⊢
        exact stands
  | cons leaf leaves ih =>
      obtain ⟨fuel, rfl⟩ := Nat.exists_eq_add_one_of_ne_zero (Nat.ne_zero_of_lt enough)
      obtain ⟨forward, threads⟩ := stands.threads
      obtain ⟨sameEntries, sameNext⟩ := stands.node_eq List.mem_cons_self
      have current : drain.currentLeaf = some leaf := stands.current
      have inside : drain.currentIdx ≤ (start.node leaf).entries.length := stands.inside leaf rfl
      have restEq : (start.node leaf).entries.drop drain.currentIdx ++ chainEntries start leaves = rest := by
        rw [← stands.rest_eq, chainEntries_cons, List.drop_append_of_le_length inside]
      cases found : (start.node leaf).entries[drain.currentIdx]? with
      | some entry =>
          obtain ⟨bound, entryEq⟩ := List.getElem?_eq_some_iff.mp found
          rw [List.drop_eq_getElem_cons bound, entryEq] at restEq
          subst restEq
          refine ⟨{ drain with
            tree := { drain.tree with len := drain.tree.len - 1 }
            currentIdx := drain.currentIdx + 1
            remaining := drain.remaining - 1 }, spent, leaf :: leaves, ?_, ⟨?_, current, stands.threads,
              stands.unique, stands.enough, ?_, ?_, ?_⟩, rfl, fun empty => absurd empty (List.cons_ne_nil _ _)⟩
          · rw [Drain.next, current]
            simp only [sameEntries, found]
            rfl
          · simp [stands.tree_eq]
          · rw [chainEntries_cons, List.drop_append_of_le_length (Nat.succ_le_of_lt bound)]
            rfl
          · rintro other ⟨⟩
            exact Nat.succ_le_of_lt bound
          · simp [stands.counted]
      | none =>
          have atEnd : (start.node leaf).entries.length ≤ drain.currentIdx := List.getElem?_eq_none_iff.mp found
          rw [List.drop_eq_nil_of_le atEnd, List.nil_append] at restEq
          have length := stands.enough
          simp only [List.length_cons] at length enough
          have moved : Drain.Stands start { drain with
              tree := drain.tree.setEntries [] leaf
              currentLeaf := (drain.tree.node leaf).next
              currentIdx := 0 } (spent ++ [leaf]) leaves rest := by
            refine ⟨?_, sameNext.trans forward, threads, ?_, Nat.le_of_succ_le length, restEq,
              fun _ _ => Nat.zero_le _, stands.counted⟩
            · rw [emptied_concat, stands.tree_eq]
              rfl
            · rw [List.append_assoc]
              exact stands.unique
          obtain ⟨drain', spent', leaves', yielded, later, whole, last⟩ := ih moved (Nat.lt_of_succ_lt_succ enough)
          refine ⟨drain', spent', leaves', ?_, later, by rw [whole, List.append_assoc]; rfl, last⟩
          rw [Drain.next, current]
          simp only [sameEntries, found]
          exact yielded

theorem Drain.Stands.nextMany {drain : Drain K V} (stands : drain.Stands start spent leaves rest) (count : Nat) :
    ∃ drain' spent' leaves', drain.nextMany count = .ok (rest.take count, drain') ∧
      drain'.Stands start spent' leaves' (rest.drop count) ∧ spent' ++ leaves' = spent ++ leaves := by
  induction count generalizing drain spent leaves rest with
  | zero => exact ⟨drain, spent, leaves, rfl, stands, rfl⟩
  | succ count ih =>
      obtain ⟨middle, passed, between, yielded, stands', whole, _⟩ :=
        stands.next (Nat.lt_succ_of_le (stands.arena_len ▸ stands.enough))
      obtain ⟨drain', spent', leaves', later, stands'', whole'⟩ := ih stands'
      refine ⟨drain', spent', leaves', ?_, ?_, whole'.trans whole⟩
      · simp only [Drain.nextMany, yielded, later, bind, Except.bind]
        cases rest with
        | nil => simp [pure, Except.pure]
        | cons entry rest => rfl
      · rw [List.drop_tail] at stands''
        exact stands''

theorem Drain.Stands.collect {drain : Drain K V} {fuel : Nat} (stands : drain.Stands start spent leaves rest)
    (long : rest.length < fuel) :
    ∃ drain', drain.collect fuel = .ok (rest, drain') ∧ drain'.Stands start (spent ++ leaves) [] [] := by
  induction fuel generalizing drain spent leaves rest with
  | zero => exact absurd long (Nat.not_lt_zero _)
  | succ fuel ih =>
      obtain ⟨middle, passed, between, yielded, stands', whole, last⟩ :=
        stands.next (Nat.lt_succ_of_le (stands.arena_len ▸ stands.enough))
      cases rest with
      | nil =>
          obtain rfl := last rfl
          rw [List.append_nil] at whole
          refine ⟨middle, ?_, whole ▸ stands'⟩
          simp only [Drain.collect, yielded, bind, Except.bind]
          rfl
      | cons entry rest =>
          obtain ⟨drain', later, finished⟩ := ih stands' (Nat.lt_of_succ_lt_succ long)
          rw [whole] at finished
          refine ⟨drain', ?_, finished⟩
          simp only [Drain.collect, yielded, bind, Except.bind]
          rw [List.tail_cons] at later
          simp only [List.head?_cons, later]
          rfl

theorem Drain.Stands.remainder {drain : Drain K V} (stands : drain.Stands start spent leaves rest) :
    drain.tree.len = rest.length := by rw [stands.tree_eq]

end Walk

section Law
variable [LinearOrder K] {layout : NodeLayout} {tree : RawBTree K V} {root : NodeIdx}
  {items : List (LevelItem K)}

/-- What clearing and draining visit: every leaf along the chain, every separator once. -/
structure Visited (tree : RawBTree K V) (leaves : List NodeIdx) (separators : List (KeyObj K)) : Prop where
  first : tree.firstLeaf = leaves.head?
  threads : Threads (fun idx => (tree.node idx).next) leaves
  unique : leaves.Nodup
  enough : leaves.length ≤ tree.arena.len
  stored : tree.storedEntries = chainEntries tree leaves
  len : tree.len = (chainEntries tree leaves).length
  found : ∀ root, tree.root = some root → tree.internalKeys tree.height root = .ok separators
  none_vacant : tree.root = none → leaves = [] ∧ separators = []
  separators_perm : separators.Perm tree.separators

/-- The separators of a level are those of all nodes above it. -/
theorem seps_level_paired {heap : Heap K V} {depth : Nat}
    (paired : ∀ upper < depth, ∀ idx ∈ Item.nodes (level heap root upper),
      (heap idx).children.length = (heap idx).keys.length + 1) :
    (Item.seps (level heap root depth)).Perm ((above heap root depth).flatMap fun idx => (heap idx).keys) := by
  induction depth with
  | zero => exact List.Perm.refl _
  | succ depth ih =>
      rw [level, above, List.flatMap_append]
      refine (seps_expand (paired depth (Nat.lt_succ_self _))).trans ?_
      exact (ih fun upper lower => paired upper (Nat.lt_succ_of_lt lower)).append_right _

theorem Vacant.visited (empty : Vacant tree) : Visited tree [] [] where
  first := empty.firstLeaf
  threads := trivial
  unique := List.nodup_nil
  enough := Nat.zero_le _
  stored := by rw [RawBTree.storedEntries, empty.root]; rfl
  len := empty.len
  found := by simp [empty.root]
  none_vacant := fun _ => ⟨rfl, rfl⟩
  separators_perm := by rw [RawBTree.separators, empty.root]

theorem Standing.visited (standing : Standing layout tree root items)
    (internal : ∀ depth < tree.height, ∀ idx ∈ Item.nodes (level tree.node root depth),
      (tree.node idx).isLeaf = false) :
    ∃ separators, Visited tree (Item.nodes items) separators := by
  have owns := standing.intoIter_owns
  have paired := standing.readable.paired
  obtain ⟨separators, found, perm⟩ := internalKeys_perm tree.height root
    (fun depth lower idx member => ⟨internal depth lower idx member, paired depth lower idx member⟩)
    (by rw [standing.readable.level_eq]; exact standing.row.leaf)
  refine ⟨separators, owns.current, owns.threads, owns.unique, owns.enough, ?_, ?_, ?_, ?_, ?_⟩
  · exact owns.rest_eq.symm
  · rw [standing.row.len, nodes_marks]
    rfl
  · intro other isRoot
    rw [standing.readable.root_eq] at isRoot
    obtain rfl := Option.some.inj isRoot
    exact found
  · intro isNone
    rw [standing.readable.root_eq] at isNone
    cases isNone
  · refine perm.trans ?_
    rw [RawBTree.separators, standing.readable.root_eq]
    exact seps_level_paired paired

theorem Reached.visited (reached : Reached layout tree) : ∃ leaves separators, Visited tree leaves separators := by
  rcases reached.forms with empty | ⟨root, items, rooted⟩ | ⟨root, items, pairs, packed⟩
  · exact ⟨_, _, empty.visited⟩
  · obtain ⟨separators, visited⟩ := rooted.standing.visited fun depth lower idx member =>
      (rooted.crownAt.crown.internal_at lower member).internal
    exact ⟨_, _, visited⟩
  · obtain ⟨separators, visited⟩ := packed.standing.visited fun depth lower idx member =>
      (packed.loose depth lower idx member).internal
    exact ⟨_, _, visited⟩

theorem Visited.drain_stands {leaves : List NodeIdx} {separators : List (KeyObj K)}
    (visited : Visited tree leaves separators) : tree.drain.Stands tree [] leaves tree.storedEntries where
  tree_eq := by
    rw [visited.stored, ← visited.len]
    rfl
  current := visited.first
  threads := visited.threads
  unique := visited.unique
  enough := visited.enough
  rest_eq := by rw [visited.stored]; rfl
  inside := fun _ _ => Nat.zero_le _
  counted := by rw [visited.stored]; exact visited.len

theorem cleared_vacant (nodes : NodeIdx → Node K V) (ledger : Ledger) :
    Vacant ⟨⟨nodes, 0, []⟩, none, none, none, 0, 0, ledger⟩ :=
  ⟨rfl, rfl, rfl, rfl, rfl, List.nodup_nil, by simp⟩

/-- Clearing the emptied tree drops the separators alone. -/
theorem Visited.clear_emptied {leaves : List NodeIdx} {separators : List (KeyObj K)}
    (visited : Visited tree leaves separators) (ledger : Ledger) :
    ({ emptied leaves tree with len := 0, ledger := ledger } : RawBTree K V).clear =
      .ok ⟨⟨(emptied leaves tree).arena.nodes, 0, []⟩, none, none, none, 0, 0,
        ⟨ledger.nextId, (separators.map KeyObj.id).reverse ++ ledger.dropped⟩⟩ := by
  have frame := emptied_frame leaves tree
  cases rootEq : tree.root with
  | none =>
      obtain ⟨rfl, rfl⟩ := visited.none_vacant rootEq
      simp only [RawBTree.clear, RawBTree.dropAllContents, frame.root, rootEq, bind, Except.bind]
      rfl
  | some root =>
      set bare : RawBTree K V := { emptied leaves tree with len := 0, ledger := ledger } with bareDef
      have chain : bare.leafChain Node.next bare.arena.len bare.firstLeaf = .ok leaves := by
        have threads : Threads (fun idx => (bare.node idx).next) leaves :=
          Threads.of_next visited.threads fun idx => emptied_next
        have first : bare.firstLeaf = leaves.head? := frame.firstLeaf.trans visited.first
        rw [first]
        refine leafChain_threads threads ?_
        rw [show bare.arena.len = tree.arena.len from frame.arenaLen]
        exact visited.enough
      have found : bare.internalKeys bare.height root = .ok separators := by
        rw [show bare.height = tree.height from frame.height, ← visited.found root rootEq]
        exact (@internalKeys_congr _ _ (emptied leaves tree) bare _ _ (fun _ => rfl) (fun _ => rfl)
          fun _ => rfl).trans (emptied_internalKeys tree.height root)
      have nothing : (leaves.flatMap fun leaf => (bare.node leaf).entries.map Prod.fst) = [] := by
        refine List.flatMap_eq_nil_iff.mpr fun leaf member => ?_
        rw [List.map_eq_nil_iff]
        exact List.flatMap_eq_nil_iff.mp (@chainEntries_emptied _ _ tree leaves) leaf member
      have isRoot : bare.root = some root := frame.root.trans rootEq
      simp only [RawBTree.clear, RawBTree.dropAllContents, isRoot, chain, found, nothing, bind, Except.bind, pure,
        Except.pure, dropAll_ledger]
      rfl

/-- Some entries are taken from the draining iterator, and it is dropped. -/
theorem Visited.drainPart {leaves : List NodeIdx} {separators : List (KeyObj K)}
    (visited : Visited tree leaves separators) (count : Nat) :
    ∃ drain tree', tree.drain.nextMany count = .ok (tree.storedEntries.take count, drain) ∧
      drain.remaining = (tree.storedEntries.drop count).length ∧ drain.tree.len = drain.remaining ∧
      drain.drop = .ok tree' ∧ Vacant tree' ∧
      tree'.ledger = ⟨tree.ledger.nextId, (separators.map KeyObj.id).reverse ++
        ((((tree.storedEntries.drop count).map Prod.fst).map KeyObj.id).reverse ++ tree.ledger.dropped)⟩ := by
  obtain ⟨drain, spent, ahead, yielded, stands, whole⟩ := visited.drain_stands.nextMany count
  rw [List.nil_append] at whole
  obtain ⟨final, collected, finished⟩ := stands.collect (Nat.lt_succ_self _)
  rw [whole] at finished
  have dropped : drain.drop = .ok ⟨⟨(emptied leaves tree).arena.nodes, 0, []⟩, none, none, none, 0, 0,
      ⟨tree.ledger.nextId, (separators.map KeyObj.id).reverse ++
        ((((tree.storedEntries.drop count).map Prod.fst).map KeyObj.id).reverse ++ tree.ledger.dropped)⟩⟩ := by
    have cleared := visited.clear_emptied ⟨tree.ledger.nextId,
      (((tree.storedEntries.drop count).map Prod.fst).map KeyObj.id).reverse ++ tree.ledger.dropped⟩
    rw [Drain.drop, stands.remainder, collected]
    simp only [bind, Except.bind, dropAll_ledger, finished.tree_eq, (emptied_frame leaves tree).ledger]
    exact cleared
  exact ⟨drain, _, yielded, stands.counted, stands.remainder.trans stands.counted.symm, dropped,
    cleared_vacant _ _, rfl⟩

theorem toList_eq_storedEntries (tree : RawBTree K V) : tree.toList = pairsOf tree.storedEntries := by
  rw [RawBTree.toList, RawBTree.storedEntries]
  cases tree.root <;> rfl

/-- `drain().collect()` yields the contents in order and leaves an empty map. -/
theorem Visited.drainAll {leaves : List NodeIdx} {separators : List (KeyObj K)}
    (visited : Visited tree leaves separators) :
    ∃ tree', tree.drainAll = .ok (tree.toList, tree') ∧ Vacant tree' := by
  obtain ⟨drain, collected, finished⟩ := visited.drain_stands.collect
    (show tree.storedEntries.length < tree.len + 1 by rw [visited.stored, visited.len]; exact Nat.lt_succ_self _)
  obtain ⟨final, nothing, same⟩ := finished.collect (Nat.lt_succ_self _)
  rw [List.nil_append, List.append_nil] at same
  have cleared := visited.clear_emptied tree.ledger
  have dropped : drain.drop = .ok ⟨⟨(emptied leaves tree).arena.nodes, 0, []⟩, none, none, none, 0, 0,
      ⟨tree.ledger.nextId, (separators.map KeyObj.id).reverse ++ tree.ledger.dropped⟩⟩ := by
    rw [Drain.drop, finished.remainder, nothing]
    simp only [bind, Except.bind, List.map_nil, dropAll_ledger, same.tree_eq,
      (emptied_frame leaves tree).ledger]
    exact cleared
  have drained : tree.drainAll = .ok (tree.toList, ⟨⟨(emptied leaves tree).arena.nodes, 0, []⟩, none, none, none,
      0, 0, ⟨tree.ledger.nextId, (separators.map KeyObj.id).reverse ++ tree.ledger.dropped⟩⟩) := by
    rw [RawBTree.drainAll, collected, toList_eq_storedEntries]
    simp only [bind, Except.bind, dropped]
    rfl
  exact ⟨_, drained, cleared_vacant _ _⟩

end Law

end Optimap.FlatBTree
