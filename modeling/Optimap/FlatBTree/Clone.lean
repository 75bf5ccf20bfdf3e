import Optimap.FlatBTree.BulkLoad
import Optimap.FlatBTree.Mirror

/-!
# Cloning a tree

The arena is copied byte for byte, then every live key is cloned over its bitwise
copy: first the leaves along the chain, then the internal nodes from the root
down. The clone has its own ledger, which goes on from the identities of the
original, and cloning a value gives the same value.
-/

set_option autoImplicit false
set_option linter.unusedSectionVars false

namespace Optimap.FlatBTree

open Lib

variable {K V : Type}

/-- `clone_arena`: the slots in use are copied, the others come unset from the
allocator. -/
def Arena.cloneArena (arena : Arena K V) (unset : NodeIdx → Node K V) : Arena K V :=
  { arena with nodes := fun idx => if idx < arena.len then arena.nodes idx else unset idx }

namespace RawBTree

def cloneLeaf (tree copy : RawBTree K V) (leaf : NodeIdx) : RawBTree K V :=
  let entries := (tree.node leaf).entries
  let (objects, copy) := copy.ownAll (entries.map fun entry => entry.1.key)
  copy.setEntries (objects.zip (entries.map Prod.snd)) leaf

/-- The leaves of the chain, `fuel` of them at most. -/
def cloneLeaves (tree : RawBTree K V) : Nat → Option NodeIdx → RawBTree K V → Result (RawBTree K V)
  | _, none, copy => .ok copy
  | 0, some _, _ => .error .endless
  | fuel + 1, some leaf, copy => cloneLeaves tree fuel (tree.node leaf).next (tree.cloneLeaf copy leaf)

def cloneInternal (tree copy : RawBTree K V) (idx : NodeIdx) : RawBTree K V :=
  let (objects, copy) := copy.ownAll ((tree.node idx).keys.map KeyObj.key)
  copy.modify idx fun node => { node with keys := objects }

/-- The internal nodes below a node, `fuel` levels of them at most. -/
def cloneInternalKeys (tree : RawBTree K V) : Nat → NodeIdx → RawBTree K V → Result (RawBTree K V)
  | fuel, idx, copy =>
      if (tree.node idx).isLeaf then .ok copy
      else
        match fuel with
        | 0 => .error .endless
        | fuel + 1 =>
            (tree.node idx).children.foldlM (fun copy child => cloneInternalKeys tree fuel child copy)
              (tree.cloneInternal copy idx)

def cloneTree (tree : RawBTree K V) (unset : NodeIdx → Node K V) : Result (RawBTree K V) :=
  match tree.root with
  | none => .ok { (new : RawBTree K V) with ledger := ⟨tree.ledger.nextId, []⟩ }
  | some root => do
      let copy := { tree with arena := tree.arena.cloneArena unset, ledger := ⟨tree.ledger.nextId, []⟩ }
      let copy ← tree.cloneLeaves tree.arena.len tree.firstLeaf copy
      tree.cloneInternalKeys tree.height root copy

end RawBTree

/-! ## What the two walks visit -/

section Visits
variable {tree copy : RawBTree K V}

theorem cloneLeaves_threads {leaves : List NodeIdx} {fuel : Nat}
    (threads : Threads (fun idx => (tree.node idx).next) leaves) (enough : leaves.length ≤ fuel) :
    tree.cloneLeaves fuel leaves.head? copy = .ok (leaves.foldl tree.cloneLeaf copy) := by
  induction leaves generalizing fuel copy with
  | nil => cases fuel <;> rfl
  | cons leaf leaves ih =>
      cases fuel with
      | zero => simp at enough
      | succ fuel =>
          obtain ⟨forward, threads⟩ := threads
          have next : (tree.node leaf).next = leaves.head? := forward
          rw [List.head?_cons, RawBTree.cloneLeaves, next, List.foldl_cons]
          exact ih threads (by simpa using enough)

theorem nodes_sublevels (heap : Heap K V) (depth : Nat) (items : List (LevelItem K)) :
    Item.nodes (items.flatMap (sublevel heap depth)) =
      (Item.nodes items).flatMap fun idx => Item.nodes (level heap idx depth) := by
  induction items with
  | nil => rfl
  | cons item items ih => cases item <;> simp [sublevel, ih]

/-- A walk from the root down comes to every node above a level once. -/
theorem above_succ_perm {heap : Heap K V} {idx : NodeIdx} {steps : Nat}
    (paired : (heap idx).children.length = (heap idx).keys.length + 1) :
    (idx :: (heap idx).children.flatMap fun child => above heap child steps).Perm
      (above heap idx (steps + 1)) := by
  induction steps with
  | zero => simp [above, level]
  | succ steps ih =>
      have lowest : Item.nodes (level heap idx (steps + 1)) =
          (heap idx).children.flatMap fun child => Item.nodes (level heap child steps) := by
        have row : level heap idx (steps + 1) =
            (Item.row (heap idx).children (heap idx).keys).flatMap (sublevel heap steps) := by
          rw [Nat.add_comm, level_add]
          simp [level, expand]
        rw [row, nodes_sublevels, Item.nodes_row paired]
      rw [above, lowest]
      have apart := List.flatMap_append_perm (heap idx).children (fun child => above heap child steps)
        fun child => Item.nodes (level heap child steps)
      exact (List.Perm.cons idx apart.symm).trans (ih.append_right _)

theorem foldlM_visits {visit : RawBTree K V → NodeIdx → RawBTree K V} {children : List NodeIdx}
    {walk : RawBTree K V → NodeIdx → Result (RawBTree K V)} {region : NodeIdx → List NodeIdx}
    (each : ∀ child ∈ children, ∀ copy, ∃ visited : List NodeIdx, walk copy child = .ok (visited.foldl visit copy) ∧
      visited.Perm (region child)) (copy : RawBTree K V) :
    ∃ visited : List NodeIdx, children.foldlM walk copy = .ok (visited.foldl visit copy) ∧
      visited.Perm (children.flatMap region) := by
  induction children generalizing copy with
  | nil => exact ⟨[], rfl, List.Perm.refl _⟩
  | cons child children ih =>
      obtain ⟨visited, walked, perm⟩ := each child List.mem_cons_self copy
      obtain ⟨later, rest, laterPerm⟩ :=
        ih (fun other member => each other (List.mem_cons_of_mem _ member)) (visited.foldl visit copy)
      refine ⟨visited ++ later, ?_, perm.append laterPerm⟩
      rw [List.foldlM_cons, walked, List.foldl_append]
      exact rest

theorem cloneInternalKeys_visits (steps : Nat) (idx : NodeIdx)
    (internal : ∀ depth < steps, ∀ other ∈ Item.nodes (level tree.node idx depth),
      (tree.node other).isLeaf = false ∧
        (tree.node other).children.length = (tree.node other).keys.length + 1)
    (leaves : ∀ other ∈ Item.nodes (level tree.node idx steps), (tree.node other).isLeaf = true) :
    ∀ copy, ∃ visited : List NodeIdx, tree.cloneInternalKeys steps idx copy = .ok (visited.foldl tree.cloneInternal copy) ∧
      visited.Perm (above tree.node idx steps) := by
  induction steps generalizing idx with
  | zero =>
      intro copy
      have leaf := leaves idx (by simp [level])
      refine ⟨[], ?_, List.Perm.refl _⟩
      unfold RawBTree.cloneInternalKeys
      rw [if_pos leaf]
      rfl
  | succ steps ih =>
      intro copy
      obtain ⟨notLeaf, paired⟩ := internal 0 (by omega) idx (by simp [level])
      have inside : ∀ depth, ∀ child ∈ (tree.node idx).children,
          ∀ other ∈ Item.nodes (level tree.node child depth),
            other ∈ Item.nodes (level tree.node idx (1 + depth)) := by
        intro depth child isChild other member
        rw [level_add, nodes_sublevels]
        refine List.mem_flatMap.mpr ⟨child, ?_, member⟩
        simpa [level, expand, Item.nodes_row paired] using isChild
      have each := fun child isChild => ih child
        (fun depth lower other member => internal (1 + depth) (by omega) other
          (inside depth child isChild other member))
        (fun other member => leaves other (by
          rw [Nat.add_comm]
          exact inside steps child isChild other member))
      obtain ⟨visited, walked, perm⟩ := foldlM_visits each (tree.cloneInternal copy idx)
      refine ⟨idx :: visited, ?_, (List.Perm.cons idx perm).trans (above_succ_perm paired)⟩
      unfold RawBTree.cloneInternalKeys
      rw [if_neg (by simp [notLeaf])]
      exact walked

end Visits

/-! ## What the visits leave behind -/

section Copies
variable {tree copy : RawBTree K V} {leaves internals : List NodeIdx}

theorem ownAll_made {keys : List K} {objects : List (KeyObj K)} {next : RawBTree K V}
    (owned : tree.ownAll keys = (objects, next)) :
    objects.map KeyObj.key = keys ∧
      objects.map KeyObj.id = List.range' tree.ledger.nextId objects.length ∧
      next = { tree with ledger := ⟨tree.ledger.nextId + objects.length, tree.ledger.dropped⟩ } := by
  induction keys generalizing tree objects with
  | nil =>
      cases owned
      exact ⟨rfl, rfl, rfl⟩
  | cons key keys ih =>
      obtain ⟨others, last, later⟩ : ∃ others last, (tree.own key).2.ownAll keys = (others, last) :=
        ⟨_, _, rfl⟩
      have opened : tree.ownAll (key :: keys) = (⟨key, tree.ledger.nextId⟩ :: others, last) := by
        have both := congrArg (fun made => ((⟨key, tree.ledger.nextId⟩ : KeyObj K) :: made.1, made.2)) later
        exact both
      rw [opened] at owned
      cases owned
      obtain ⟨sameKeys, ids, rest⟩ := ih later
      refine ⟨?_, ?_, ?_⟩
      · rw [List.map_cons, sameKeys]
      · rw [List.map_cons, ids, List.length_cons, List.range'_succ]
        rfl
      · rw [rest, List.length_cons]
        simp only [RawBTree.own, Nat.add_assoc, Nat.add_comm 1]

/-- The key objects of the leaves and internal nodes that have been visited. -/
def clonedObjects (copy : RawBTree K V) (leaves internals : List NodeIdx) : List (KeyObj K) :=
  (leaves.flatMap fun leaf => (copy.node leaf).entries.map Prod.fst) ++
    internals.flatMap fun idx => (copy.node idx).keys

/-- A clone under way: a mirror of the original, in which the objects of the
visited nodes are those made so far. -/
structure Copying (tree copy : RawBTree K V) (leaves internals : List NodeIdx) : Prop where
  mirror : MirrorOf tree copy
  ids : (clonedObjects copy leaves internals).map KeyObj.id =
    List.range' tree.ledger.nextId (clonedObjects copy leaves internals).length
  nextId : copy.ledger.nextId = tree.ledger.nextId + (clonedObjects copy leaves internals).length
  dropped : copy.ledger.dropped = []

theorem MirrorOf.modify {change : Node K V → Node K V} {idx : NodeIdx} (ledger : Ledger)
    (mirror : MirrorOf tree copy)
    (changed : Mirrors (tree.node idx) (copy.node idx) → Mirrors (tree.node idx) (change (copy.node idx))) :
    MirrorOf tree (RawBTree.modify { copy with ledger := ledger } idx change) := by
  refine ⟨mirror.root, mirror.firstLeaf, mirror.lastLeaf, mirror.len, mirror.height, mirror.arenaLen,
    mirror.free, fun other inArena => ?_⟩
  by_cases same : other = idx
  · subst same
    have onNode := @RawBTree.node_modify_self _ _ { copy with ledger := ledger } other change
    rw [onNode]
    exact changed (mirror.nodes other inArena)
  · have offNode := @RawBTree.node_modify_of_ne _ _ { copy with ledger := ledger } idx other change same
    rw [offNode]
    exact mirror.nodes other inArena

theorem Copying.start (unset : NodeIdx → Node K V) :
    Copying tree { tree with arena := tree.arena.cloneArena unset, ledger := ⟨tree.ledger.nextId, []⟩ } [] [] := by
  refine ⟨⟨rfl, rfl, rfl, rfl, rfl, rfl, rfl, fun idx inArena => ?_⟩, rfl, rfl, rfl⟩
  have copied : RawBTree.node { tree with
      arena := tree.arena.cloneArena unset, ledger := ⟨tree.ledger.nextId, []⟩ } idx = tree.node idx :=
    if_pos inArena
  rw [copied]
  exact Mirrors.refl _

/-- A visit makes the next objects and hands them to the node it visits. -/
theorem Copying.extend {copy' next : RawBTree K V} {leaves' internals' : List NodeIdx} {keys : List K}
    {objects : List (KeyObj K)} (copying : Copying tree copy leaves internals) (mirror : MirrorOf tree copy')
    (owned : copy.ownAll keys = (objects, next)) (ledger : copy'.ledger = next.ledger)
    (joined : (clonedObjects copy' leaves' internals') = clonedObjects copy leaves internals ++ objects) :
    Copying tree copy' leaves' internals' := by
  obtain ⟨_, made, rest⟩ := ownAll_made owned
  refine ⟨mirror, ?_, ?_, ?_⟩
  · rw [joined, List.map_append, copying.ids, made, copying.nextId, List.length_append, List.range'_append_1]
  · rw [ledger, rest, joined, List.length_append, copying.nextId, Nat.add_assoc]
  · rw [ledger, rest]
    exact copying.dropped

theorem Copying.cloneLeaf {leaf : NodeIdx} (copying : Copying tree copy leaves []) (unvisited : leaf ∉ leaves) :
    Copying tree (tree.cloneLeaf copy leaf) (leaves ++ [leaf]) [] := by
  obtain ⟨objects, next, owned⟩ : ∃ objects next,
      copy.ownAll ((tree.node leaf).entries.map fun entry => entry.1.key) = (objects, next) :=
    ⟨_, _, rfl⟩
  obtain ⟨sameKeys, _, rest⟩ := ownAll_made owned
  have paired : objects.length = ((tree.node leaf).entries.map Prod.snd).length := by
    have lengths := congrArg List.length sameKeys
    simpa using lengths
  have made : tree.cloneLeaf copy leaf = RawBTree.modify { copy with ledger := next.ledger } leaf fun node =>
      node.setEntries (objects.zip ((tree.node leaf).entries.map Prod.snd)) := by
    rw [RawBTree.cloneLeaf, owned, rest]
    rfl
  have offLeaf : ∀ idx, idx ≠ leaf → (tree.cloneLeaf copy leaf).node idx = copy.node idx := by
    intro idx different
    rw [made]
    exact RawBTree.node_modify_of_ne _ different
  apply copying.extend _ owned
  · rw [made]
    rfl
  · have onLeaf : ((tree.cloneLeaf copy leaf).node leaf).entries.map Prod.fst = objects := by
      rw [made, RawBTree.node_modify_self]
      exact List.map_fst_zip paired.le
    have kept : leaves.flatMap (fun idx => ((tree.cloneLeaf copy leaf).node idx).entries.map Prod.fst) =
        leaves.flatMap fun idx => (copy.node idx).entries.map Prod.fst := by
      refine List.flatMap_congr fun idx member => ?_
      rw [offLeaf idx fun same => unvisited (same ▸ member)]
    simp only [clonedObjects, List.flatMap_append, kept, List.flatMap_cons, List.flatMap_nil, List.append_nil,
      onLeaf]
  · rw [made]
    refine copying.mirror.modify _ fun mirrors => ⟨mirrors.isLeaf, mirrors.parent, mirrors.prev, mirrors.next,
      mirrors.children, mirrors.keys, ?_⟩
    have pairs : pairsOf (objects.zip ((tree.node leaf).entries.map Prod.snd)) =
        (objects.map KeyObj.key).zip ((tree.node leaf).entries.map Prod.snd) := by
      rw [List.zip_map_left]
      rfl
    refine pairs.trans ?_
    rw [sameKeys, List.zip_map']
    rfl

theorem Copying.cloneInternal {idx : NodeIdx} (copying : Copying tree copy leaves internals)
    (unvisited : idx ∉ internals) : Copying tree (tree.cloneInternal copy idx) leaves (internals ++ [idx]) := by
  obtain ⟨objects, next, owned⟩ : ∃ objects next,
      copy.ownAll ((tree.node idx).keys.map KeyObj.key) = (objects, next) := ⟨_, _, rfl⟩
  obtain ⟨sameKeys, _, rest⟩ := ownAll_made owned
  have made : tree.cloneInternal copy idx = RawBTree.modify { copy with ledger := next.ledger } idx fun node =>
      { node with keys := objects } := by
    rw [RawBTree.cloneInternal, owned, rest]
  have offNode : ∀ other, other ≠ idx → (tree.cloneInternal copy idx).node other = copy.node other := by
    intro other different
    rw [made]
    exact RawBTree.node_modify_of_ne _ different
  apply copying.extend _ owned
  · rw [made]
    rfl
  · have onNode : ((tree.cloneInternal copy idx).node idx).keys = objects := by
      rw [made, RawBTree.node_modify_self]
    have sameEntries : ∀ other,
        ((tree.cloneInternal copy idx).node other).entries = (copy.node other).entries := by
      intro other
      by_cases same : other = idx
      · rw [same, made, RawBTree.node_modify_self]
        rfl
      · rw [offNode other same]
    have kept : internals.flatMap (fun other => ((tree.cloneInternal copy idx).node other).keys) =
        internals.flatMap fun other => (copy.node other).keys := by
      refine List.flatMap_congr fun other member => ?_
      rw [offNode other fun same => unvisited (same ▸ member)]
    simp only [clonedObjects, List.flatMap_append, kept, List.flatMap_cons, List.flatMap_nil, List.append_nil,
      onNode, sameEntries, List.append_assoc]
  · rw [made]
    exact copying.mirror.modify _ fun mirrors => ⟨mirrors.isLeaf, mirrors.parent, mirrors.prev, mirrors.next,
      mirrors.children, sameKeys, mirrors.entries⟩

/-- A fold that visits every node once. -/
theorem foldl_visits {visit : RawBTree K V → NodeIdx → RawBTree K V}
    {after : RawBTree K V → List NodeIdx → Prop}
    (step : ∀ copy visited idx, after copy visited → idx ∉ visited → after (visit copy idx) (visited ++ [idx]))
    {visited todo : List NodeIdx} (start : after copy visited) (unique : (visited ++ todo).Nodup) :
    after (todo.foldl visit copy) (visited ++ todo) := by
  induction todo generalizing copy visited with
  | nil => simpa using start
  | cons idx todo ih =>
      rw [List.append_cons] at unique ⊢
      have unvisited : idx ∉ visited := by
        intro member
        have apart := (List.nodup_append.mp (List.nodup_append.mp unique).1).2.2
        exact apart idx member idx (by simp) rfl
      exact ih (step copy visited idx start unvisited) unique

end Copies

section Cloning
variable [LinearOrder K] {layout : NodeLayout} {tree : RawBTree K V} {held : List (Mark K V)}

/-- All key objects of the tree have been made from `first` on, one after the other. -/
def MadeFrom (first : Nat) (tree : RawBTree K V) : Prop :=
  (tree.liveObjects.map KeyObj.id).Perm (List.range' first tree.liveObjects.length)

theorem MadeFrom.singleOwner {first : Nat} (made : MadeFrom first tree) (dropped : tree.ledger.dropped = []) :
    SingleOwner tree := by
  refine ⟨made.nodup_iff.mpr List.nodup_range', ?_, ?_⟩
  · rw [dropped]
    simp
  · rw [dropped]
    exact List.nodup_nil

theorem MadeFrom.le_id {first : Nat} (made : MadeFrom first tree) {object : KeyObj K}
    (live : object ∈ tree.liveObjects) : first ≤ object.id := by
  have inRange := made.mem_iff.mp (List.mem_map_of_mem live)
  exact (List.mem_range'_1.mp inRange).1

theorem Rooted.copying {root : NodeIdx} {items : List (LevelItem K)} (unset : NodeIdx → Node K V)
    (rooted : Rooted layout tree root items) :
    ∃ copy visited, tree.cloneTree unset = .ok copy ∧ Copying tree copy (Item.nodes items) visited ∧
      visited.Perm (above tree.node root tree.height) := by
  have crownAt := rooted.crownAt
  have unique := crownAt.owned.nodup_idxs
  rw [List.append_nil] at unique
  obtain ⟨aboveUnique, rowUnique, _⟩ := List.nodup_append.mp unique
  obtain ⟨start, isStart⟩ : ∃ start : RawBTree K V, start =
      { tree with arena := tree.arena.cloneArena unset, ledger := ⟨tree.ledger.nextId, []⟩ } := ⟨_, rfl⟩
  have begun : Copying tree start [] [] := by
    rw [isStart]
    exact Copying.start unset
  have leavesCopied : Copying tree ((Item.nodes items).foldl tree.cloneLeaf start) (Item.nodes items) [] := by
    have folded := @foldl_visits _ _ _ tree.cloneLeaf (fun copy leaves => Copying tree copy leaves [])
      (fun copy leaves leaf copying unvisited => copying.cloneLeaf unvisited) [] (Item.nodes items) begun rowUnique
    exact folded
  obtain ⟨visited, walked, perm⟩ := cloneInternalKeys_visits tree.height root
    (fun depth lower other member =>
      ⟨(crownAt.crown.internal_at lower member).internal, (crownAt.crown.internal_at lower member).paired⟩)
    (by rw [crownAt.level_eq]; exact rooted.row.leaf)
    ((Item.nodes items).foldl tree.cloneLeaf start)
  have copying := @foldl_visits _ _ _ tree.cloneInternal
    (fun copy internals => Copying tree copy (Item.nodes items) internals)
    (fun copy internals idx copying unvisited => copying.cloneInternal unvisited) [] visited
    leavesCopied (perm.nodup_iff.mpr aboveUnique)
  refine ⟨_, visited, ?_, copying, perm⟩
  have chain := @cloneLeaves_threads _ _ tree start _ _ rooted.row.linked.threads_next rooted.length_le
  rw [← rooted.row.first, isStart] at chain
  rw [isStart] at walked ⊢
  simp only [RawBTree.cloneTree, crownAt.root_eq, bind, Except.bind] at chain walked ⊢
  rw [chain]
  exact walked

/-- A clone holds the same entries, under key objects of its own. -/
theorem Holds.cloneTree (unset : NodeIdx → Node K V) (holds : Holds layout tree held) :
    ∃ copy held', tree.cloneTree unset = .ok copy ∧ Holds layout copy held' ∧ contents held' = contents held ∧
      MadeFrom tree.ledger.nextId copy ∧ copy.ledger.dropped = [] := by
  cases holds with
  | vacant empty =>
      refine ⟨{ (RawBTree.new : RawBTree K V) with ledger := ⟨tree.ledger.nextId, []⟩ }, [], ?_, .vacant ?_, rfl,
        ?_, rfl⟩
      · rw [RawBTree.cloneTree, empty.root]
      · exact ⟨rfl, rfl, rfl, rfl, rfl, new_vacant.owned⟩
      · exact List.Perm.refl _
  | @rooted root items rooted =>
      obtain ⟨copy, visited, cloned, copying, perm⟩ := rooted.copying unset
      obtain ⟨items', rooted', sameRow, sameMarks, sameAbove⟩ := rooted.mirror copying.mirror
      refine ⟨copy, _, cloned, .rooted rooted', ?_, ?_, copying.dropped⟩
      · rw [contents_eq_bareMarks, contents_eq_bareMarks, sameMarks]
      · have sameNodes := nodes_eq_of_bareRow sameRow
        have objects : copy.liveObjects.Perm (clonedObjects copy (Item.nodes items) visited) := by
          have upper : visited.Perm (above copy.node root copy.height) := by
            rw [copying.mirror.height, sameAbove]
            exact perm
          simp only [RawBTree.liveObjects, rooted'.crownAt.root_eq, entriesUnder, rooted'.crownAt.level_eq,
            sameNodes, List.map_flatMap]
          exact List.Perm.append_left _ (upper.symm.flatMap_right _)
        have ids := (objects.map KeyObj.id).trans (List.Perm.of_eq copying.ids)
        rw [← objects.length_eq] at ids
        exact ids

end Cloning

end Optimap.FlatBTree
