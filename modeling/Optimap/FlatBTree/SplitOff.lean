import Optimap.FlatBTree.Append

/-!
# `split_off`

The tree is cut along the path to the first key of the right part. The nodes of one side
stay where they are, those of the other are moved into an arena of their own, and the
internal nodes on the path are halved from the bottom up. Internal nodes that end up with a
single child are taken out afterwards.
-/

set_option autoImplicit false
set_option linter.unusedSectionVars false

namespace Optimap.FlatBTree

open Lib

variable {K V : Type}

inductive CollapseEdge where
  | leftmost
  | rightmost

/-- The slot of the child at the edge of a node with `len` keys. -/
def CollapseEdge.slot (len : Nat) : CollapseEdge → Nat
  | .leftmost => 0
  | .rightmost => len

/-- A tree that is being cut and the arena that one side of it moves to, with the ends of its
leaf chain and the number of entries moved. -/
structure Surgery (K V : Type) where
  tree : RawBTree K V
  dst : RawBTree K V
  ends : ChainEnds
  count : Nat

namespace Node

/-- `header.len = 0`. -/
def movedOut (node : Node K V) : Node K V :=
  if node.isLeaf then node.setEntries [] else { node with keys := [], children := node.children.take 1 }

end Node

namespace RawBTree

/-- `Self::new()`, whose identities go on from those of the tree. -/
def fresh (tree : RawBTree K V) : RawBTree K V := { (new : RawBTree K V) with ledger := ⟨tree.ledger.nextId, []⟩ }

section Collapse

/-- Down one edge, every internal node without keys is replaced by its only child. `holder` is
the parent that holds the link to `current`, with the slot of the link. -/
def collapseAlongEdge (edge : CollapseEdge) :
    Nat → Option (NodeIdx × Nat) → NodeIdx → NodeIdx → RawBTree K V → Result (NodeIdx × RawBTree K V)
  | fuel, holder, newRoot, current, tree =>
      if (tree.node current).isLeaf then .ok (newRoot, tree)
      else
        match fuel with
        | 0 => .error .endless
        | fuel + 1 =>
            let len := (tree.node current).keys.length
            if len = 0 then do
              let only ← readSlot (tree.node current).children 0
              match holder with
              | some (parent, slot) =>
                  let tree := tree.setParent (some parent) only
                  let tree := tree.modify parent fun node => { node with children := node.children.set slot only }
                  collapseAlongEdge edge fuel holder newRoot only (tree.freeNode current)
              | none => collapseAlongEdge edge fuel none only only ((tree.setParent none only).freeNode current)
            else do
              let child ← readSlot (tree.node current).children (edge.slot len)
              collapseAlongEdge edge fuel (some (current, edge.slot len)) newRoot child tree

/-- The number of levels above the first leaf. -/
def computeHeight (tree : RawBTree K V) : Nat → NodeIdx → Result Nat
  | fuel, idx =>
      if (tree.node idx).isLeaf then .ok 0
      else
        match fuel with
        | 0 => .error .endless
        | fuel + 1 => do
            let child ← readSlot (tree.node idx).children 0
            let height ← computeHeight tree fuel child
            pure (height + 1)

/-- Orphan the root of a half, collapse it and measure it. -/
def settleRoot (edge : CollapseEdge) (fuel : Nat) (tree : RawBTree K V) :
    Option NodeIdx → Result (Option NodeIdx × Nat × RawBTree K V)
  | none => .ok (none, 0, tree)
  | some root => do
      let (root, tree) ← collapseAlongEdge edge fuel none root root (tree.setParent none root)
      let height ← tree.computeHeight fuel root
      pure (some root, height, tree)

end Collapse

end RawBTree

namespace Surgery

section Moving

/-- The copied leaf goes behind the end of the chain, the original is emptied and freed. -/
def moveLeaf (src : NodeIdx) (s : Surgery K V) : NodeIdx × Surgery K V :=
  let node := s.tree.node src
  let (leaf, dst) := s.dst.allocNode
  let dst := dst.modify leaf fun _ => { node with parent := none, prev := s.ends.chainTail, next := none }
  let (dst, ends) :=
    match s.ends.chainTail with
    | some tail => (dst.setNext (some leaf) tail, (⟨s.ends.firstLeaf, some leaf⟩ : ChainEnds))
    | none => (dst, ⟨some leaf, some leaf⟩)
  (leaf, ⟨(s.tree.modify src Node.movedOut).freeNode src, dst, ends, s.count + node.entries.length⟩)

/-- The loop over the children of a moved node, from a slot on. -/
def moveChildren (move : NodeIdx → Surgery K V → Result (NodeIdx × Surgery K V)) (copy : NodeIdx) :
    Nat → List NodeIdx → Surgery K V → Result (Surgery K V)
  | _, [], s => .ok s
  | slot, child :: children, s => do
      let (newChild, s) ← move child s
      moveChildren move copy (slot + 1) children { s with dst := s.dst.adoptCopy copy slot newChild }

/-- The move of a subtree with at most `fuel` levels of internal nodes. -/
def deepCopySubtree : Nat → NodeIdx → Surgery K V → Result (NodeIdx × Surgery K V)
  | fuel, src, s =>
      let node := s.tree.node src
      if node.isLeaf then .ok (s.moveLeaf src)
      else
        match fuel with
        | 0 => .error .endless
        | fuel + 1 => do
            let (copy, dst) := s.dst.allocNode
            let dst := dst.modify copy fun _ => { node with parent := none }
            let s ← moveChildren (deepCopySubtree fuel) copy 0 node.children { s with dst := dst }
            pure (copy, { s with tree := (s.tree.modify src Node.movedOut).freeNode src })

/-- The moved children of a node on the path, not yet hung in. -/
def deepCopyEach (fuel : Nat) : List NodeIdx → Surgery K V → Result (List NodeIdx × Surgery K V)
  | [], s => .ok ([], s)
  | child :: children, s => do
      let (copy, s) ← deepCopySubtree fuel child s
      let (copies, s) ← deepCopyEach fuel children s
      pure (copy :: copies, s)

/-- A new internal node over moved ones. -/
def buildInternal (keys : List (KeyObj K)) (children : List NodeIdx) (s : Surgery K V) : NodeIdx × Surgery K V :=
  let (idx, dst) := s.dst.allocNode
  let dst := dst.modify idx fun node =>
    { node with isLeaf := false, parent := none, keys := keys, children := children }
  (idx, { s with dst := dst.setParents (some idx) children })

/-- A new leaf, the first one that moves. -/
def buildLeaf (entries : List (KeyObj K × V)) (s : Surgery K V) : NodeIdx × Surgery K V :=
  let (leaf, dst) := s.dst.allocNode
  let dst := dst.modify leaf fun node =>
    { node.setEntries entries with isLeaf := true, parent := none, prev := none, next := none }
  (leaf, { s with dst := dst, ends := ⟨some leaf, some leaf⟩, count := s.count + entries.length })

def dropSeparator (separator : Option (KeyObj K)) (s : Surgery K V) : Surgery K V :=
  match separator with
  | some object => { s with tree := s.tree.drop object }
  | none => s

/-- `expect` on the separator. -/
def expectSeparator : Option (KeyObj K) → Result (KeyObj K)
  | some object => .ok object
  | none => .error .deadSlot

/-- The chain of moved leaves gets its ends. -/
def closeChain (s : Surgery K V) : Surgery K V :=
  let dst := match s.ends.firstLeaf with
    | some first => s.dst.setPrev none first
    | none => s.dst
  let dst := match s.ends.chainTail with
    | some tail => dst.setNext none tail
    | none => dst
  { s with dst := dst }

/-- The tree over the moved nodes. -/
def movedTree (s : Surgery K V) (root : Option NodeIdx) (height : Nat) : RawBTree K V :=
  { s.dst with
    root := root
    firstLeaf := s.ends.firstLeaf
    lastLeaf := s.ends.chainTail
    len := s.count
    height := height }

end Moving

section Right

/-- The part of the boundary leaf from `slot` on moves: the whole leaf, or a new one. -/
def splitLeafRight (fuel : Nat) (leaf slot : Nat) (s : Surgery K V) :
    Result (Option NodeIdx × Option NodeIdx × Surgery K V) :=
  if slot = 0 then do
    let (moved, s) ← deepCopySubtree fuel leaf s
    pure (none, some moved, s)
  else
    let entries := (s.tree.node leaf).entries
    let (moved, s) := s.buildLeaf (entries.drop slot)
    let tree := (s.tree.setEntries (entries.take slot) leaf).setNext none leaf
    .ok (some leaf, some moved, { s with tree := tree })

/-- What stays of a node on the path, when what stays below it is given. -/
def keepLeft (parent childPos : Nat) : Option NodeIdx → Surgery K V → Result (Option NodeIdx × Surgery K V)
  | some below, s =>
      let tree := s.tree.modify parent fun node =>
        { node with keys := node.keys.take childPos, children := (node.children.set childPos below).take (childPos + 1) }
      .ok (some parent, { s with tree := tree.setParent (some parent) below })
  | none, s =>
      match childPos with
      | 0 => .ok (none, { s with tree := s.tree.freeNode parent })
      | pos + 1 => do
          let separator ← readSlot (s.tree.node parent).keys pos
          let tree := (s.tree.drop separator).modify parent fun node =>
            { node with keys := node.keys.take pos, children := node.children.take (pos + 1) }
          pure (some parent, { s with tree := tree })

/-- The keys and children of the moved half of a node on the path. -/
def joinRight (below : Option NodeIdx) (separator : Option (KeyObj K)) (keysAfter : List (KeyObj K))
    (copies : List NodeIdx) (s : Surgery K V) : Result (List (KeyObj K) × List NodeIdx × Surgery K V) :=
  match below with
  | some below =>
      if copies.isEmpty then .ok (keysAfter, below :: copies, s)
      else do
        let object ← expectSeparator separator
        pure (object :: keysAfter, below :: copies, s)
  | none => .ok (keysAfter, copies, s.dropSeparator separator)

/-- One level of the walk up the path, the right side moving. -/
def splitNodeRight (fuel : Nat) (parent childPos : Nat) (leftBelow rightBelow : Option NodeIdx) (s : Surgery K V) :
    Result (Option NodeIdx × Option NodeIdx × Surgery K V) := do
  let node := s.tree.node parent
  let separator := node.keys[childPos]?
  let (copies, s) ← deepCopyEach fuel (node.children.drop (childPos + 1)) s
  let (keys, children, s) ← joinRight rightBelow separator (node.keys.drop (childPos + 1)) copies s
  let (right, s) :=
    if children.isEmpty then (none, s)
    else
      let (built, s) := s.buildInternal keys children
      (some built, s)
  let (left, s) ← keepLeft parent childPos leftBelow s
  pure (left, right, s)

/-- The walk up the path. -/
def splitPathRight (fuel : Nat) :
    PathBuf → Option NodeIdx → Option NodeIdx → Surgery K V → Result (Option NodeIdx × Option NodeIdx × Surgery K V)
  | [], left, right, s => .ok (left, right, s)
  | (parent, childPos) :: path, left, right, s => do
      let (left, right, s) ← s.splitNodeRight fuel parent childPos left right
      splitPathRight fuel path left right s

end Right

section Left

/-- The part of the boundary leaf before `slot` moves into a new leaf, the rest is shifted. -/
def splitLeafLeft (leaf slot : Nat) (s : Surgery K V) : Option NodeIdx × Surgery K V :=
  if 0 < slot then
    let entries := (s.tree.node leaf).entries
    let (moved, s) := s.buildLeaf (entries.take slot)
    let tree := (s.tree.setEntries (entries.drop slot) leaf).setPrev none leaf
    (some moved, { s with tree := tree })
  else (none, s)

/-- The keys and children of the moved half of a node on the path. -/
def joinLeft (below : Option NodeIdx) (separator : Option (KeyObj K)) (keysBefore : List (KeyObj K))
    (copies : List NodeIdx) (s : Surgery K V) : Result (List (KeyObj K) × List NodeIdx × Surgery K V) :=
  match below with
  | some below =>
      if copies.isEmpty then .ok (keysBefore, copies ++ [below], s)
      else do
        let object ← expectSeparator separator
        pure (keysBefore ++ [object], copies ++ [below], s)
  | none => .ok (keysBefore, copies, s.dropSeparator separator)

/-- Chain leaves that were moved on their own in front of those moved before. -/
def prependChain (temp : Surgery K V) (ends : ChainEnds) (count : Nat) : Result (Surgery K V) :=
  match temp.ends.firstLeaf with
  | none => .ok { temp with ends := ends, count := count }
  | some first =>
      match ends.firstLeaf with
      | some main => do
          let tail ← deref temp.ends.chainTail
          pure { temp with
            dst := (temp.dst.setNext (some main) tail).setPrev (some tail) main
            ends := ⟨some first, ends.chainTail⟩
            count := count + temp.count }
      | none => .ok { temp with count := count + temp.count }

/-- The right half of a node on the path stays in it. -/
def keepRight (parent childPos : Nat) (below : Option NodeIdx) (s : Surgery K V) :
    Result (Option NodeIdx × Surgery K V) := do
  let below ← deref below
  let tree := s.tree.modify parent fun node =>
    { node with keys := node.keys.drop childPos, children := below :: node.children.drop (childPos + 1) }
  pure (some parent, { s with tree := tree.setParent (some parent) below })

/-- One level of the walk up the path, the left side moving. -/
def splitNodeLeft (fuel : Nat) (parent childPos : Nat) (leftBelow rightBelow : Option NodeIdx) (s : Surgery K V) :
    Result (Option NodeIdx × Option NodeIdx × Surgery K V) := do
  let node := s.tree.node parent
  let separator := if 0 < childPos then node.keys[childPos - 1]? else none
  let (copies, temp) ← deepCopyEach fuel (node.children.take childPos) { s with ends := ⟨none, none⟩, count := 0 }
  let (keys, children, temp) ← joinLeft leftBelow separator (node.keys.take (childPos - 1)) copies temp
  let (left, temp) :=
    if children.isEmpty then (none, temp)
    else
      let (built, temp) := temp.buildInternal keys children
      (some built, temp)
  let s ← temp.prependChain s.ends s.count
  let (right, s) ← keepRight parent childPos rightBelow s
  pure (left, right, s)

/-- The walk up the path. -/
def splitPathLeft (fuel : Nat) :
    PathBuf → Option NodeIdx → Option NodeIdx → Surgery K V → Result (Option NodeIdx × Option NodeIdx × Surgery K V)
  | [], left, right, s => .ok (left, right, s)
  | (parent, childPos) :: path, left, right, s => do
      let (left, right, s) ← s.splitNodeLeft fuel parent childPos left right
      splitPathLeft fuel path left right s

end Left

end Surgery

namespace RawBTree

section Split
variable [LinearOrder K]

/-- Cut at a slot of a leaf, moving the right side. -/
def surgeryRight (tree : RawBTree K V) (leaf slot : Nat) : Result (RawBTree K V × RawBTree K V) := do
  let spine ← tree.pathToNode tree.height leaf
  let originalPrev := (tree.node leaf).prev
  let (left, right, s) ← Surgery.splitLeafRight tree.height leaf slot ⟨tree, tree.fresh, ⟨none, none⟩, 0⟩
  let (left, right, s) ← s.splitPathRight tree.height spine left right
  let (root, height, kept) ← settleRoot .rightmost tree.height s.tree left
  let newLast := if 0 < slot then some leaf else originalPrev
  let kept := match newLast with
    | some last => kept.setNext none last
    | none => kept
  let kept := { kept with
    root := root
    firstLeaf := if newLast = none then none else kept.firstLeaf
    lastLeaf := newLast
    height := height
    len := kept.len - s.count }
  let (root, height, dst) ← settleRoot .leftmost tree.height s.dst right
  let s := { s with dst := dst }.closeChain
  pure (kept, s.movedTree root height)

/-- Cut at a slot of a leaf, moving the left side. -/
def surgeryLeft (tree : RawBTree K V) (leaf slot : Nat) : Result (RawBTree K V × RawBTree K V) := do
  let spine ← tree.pathToNode tree.height leaf
  let (left, s) := Surgery.splitLeafLeft leaf slot ⟨tree, tree.fresh, ⟨none, none⟩, 0⟩
  let (left, right, s) ← s.splitPathLeft tree.height spine left (some leaf)
  let (root, height, kept) ← settleRoot .leftmost tree.height s.tree right
  let kept := if root = none then kept else kept.setPrev none leaf
  let kept := { kept with
    root := root
    firstLeaf := if root = none then none else some leaf
    lastLeaf := if root = none then none else kept.lastLeaf
    height := height
    len := kept.len - s.count }
  let (root, height, dst) ← settleRoot .rightmost tree.height s.dst left
  let s := { s with dst := dst }.closeChain
  -- the two are swapped at the end
  pure (s.movedTree root height, kept)

/-- What the ways to split have in common: the empty tree, no key from `at` on, none before. -/
def splitOffBy (tree : RawBTree K V) (pivot : K)
    (cut : NodeIdx → Nat → Result (RawBTree K V × RawBTree K V)) : Result (RawBTree K V × RawBTree K V) :=
  match tree.root with
  | none => .ok (tree, tree.fresh)
  | some _ => do
      match ← tree.lowerBound pivot with
      | none => pure (tree, tree.fresh)
      | some (leaf, slot) => if tree.firstLeaf = some leaf ∧ slot = 0 then pure (tree.fresh, tree) else cut leaf slot

def splitOffSurgicalRight (tree : RawBTree K V) (pivot : K) : Result (RawBTree K V × RawBTree K V) :=
  tree.splitOffBy pivot tree.surgeryRight

def splitOffSurgicalLeft (tree : RawBTree K V) (pivot : K) : Result (RawBTree K V × RawBTree K V) :=
  tree.splitOffBy pivot tree.surgeryLeft

/-- Drain the tree and pack both parts. -/
def splitOffDrain (layout : NodeLayout) (tree : RawBTree K V) (pivot : K) : Result (RawBTree K V × RawBTree K V) :=
  if tree.len = 0 then .ok (tree, tree.fresh)
  else
    tree.splitOffBy pivot fun _ _ => do
      let (pairs, drained) ← tree.drainAll
      let split := partitionPoint (fun pair => pair.1 < pivot) pairs
      let left ← if (pairs.take split).isEmpty then pure drained else bulkLoad layout (pairs.take split)
      let right ← if (pairs.drop split).isEmpty then pure tree.fresh else bulkLoad layout (pairs.drop split)
      pure (left, right)

/-- `split_off`, by what the estimate of the right fraction says about the cutoff. -/
def splitOff (tree : RawBTree K V) (pivot : K) (moveLeft : Bool) : Result (RawBTree K V × RawBTree K V) :=
  if moveLeft then tree.splitOffSurgicalLeft pivot else tree.splitOffSurgicalRight pivot

end Split

end RawBTree

end Optimap.FlatBTree
