import Optimap.FlatBTree.RawBTree

/-!
# Bulk loading

`bulk_load` packs sorted pairs into full leaves and builds the levels above them
from left to right, each parent taking as many children as fit. `FromIterator`
sorts its pairs and keeps the last value of each key first.
-/

set_option autoImplicit false

namespace Optimap.FlatBTree.RawBTree

variable {K V : Type}

/-- Objects for a list of keys, one after the other. -/
def ownAll (tree : RawBTree K V) : List K → List (KeyObj K) × RawBTree K V
  | [] => ([], tree)
  | key :: keys =>
      let (object, tree) := tree.own key
      let (objects, tree) := tree.ownAll keys
      (object :: objects, tree)

/-- Phase 1: `count` leaves, each with the next `LEAF_CAP` pairs. -/
def loadLeaves (layout : NodeLayout) : Nat → List (K × V) → RawBTree K V → List NodeIdx × RawBTree K V
  | 0, _, tree => ([], tree)
  | count + 1, pairs, tree =>
      let (leaf, tree) := tree.allocNode
      let chunk := pairs.take layout.leafCap
      let (objects, tree) := tree.ownAll (chunk.map Prod.fst)
      let tree := tree.modify leaf fun node =>
        { node.setEntries (objects.zip (chunk.map Prod.snd)) with isLeaf := true, parent := none }
      let (leaves, tree) := loadLeaves layout count (pairs.drop layout.leafCap) tree
      (leaf :: leaves, tree)

/-- Phase 2: the links of each leaf to its neighbours. -/
def wireChain : Option NodeIdx → List NodeIdx → RawBTree K V → RawBTree K V
  | _, [], tree => tree
  | prev, leaf :: leaves, tree =>
      wireChain (some leaf) leaves ((tree.setPrev prev leaf).setNext leaves.head? leaf)

/-- One level of phase 3. Each child comes with the leftmost key below it; a
parent takes `INTERNAL_CAP + 1` of them, or what is left. -/
def loadParents (layout : NodeLayout) :
    Nat → List (NodeIdx × K) → RawBTree K V → List (NodeIdx × K) × RawBTree K V
  | 0, _, tree => ([], tree)
  | _ + 1, [], tree => ([], tree)
  | fuel + 1, (child, minKey) :: rest, tree =>
      let group := rest.take layout.internalCap
      let (parent, tree) := tree.allocNode
      let (keys, tree) := tree.ownAll (group.map Prod.snd)
      let tree := tree.modify parent fun node =>
        { node with isLeaf := false, parent := none, keys := keys, children := child :: group.map Prod.fst }
      let tree := tree.setParents (some parent) (child :: group.map Prod.fst)
      let (parents, tree) := loadParents layout fuel (rest.drop layout.internalCap) tree
      ((parent, minKey) :: parents, tree)

/-- Phase 3: levels until one node is left. Returns the root and the height. -/
def loadLevels (layout : NodeLayout) :
    Nat → List (NodeIdx × K) → Nat → RawBTree K V → Result (NodeIdx × Nat × RawBTree K V)
  | fuel, children, height, tree =>
      if 1 < children.length then
        match fuel with
        | 0 => .error .endless
        | fuel + 1 =>
            let (parents, tree) := tree.loadParents layout children.length children
            loadLevels layout fuel parents (height + 1) tree
      else do
        let root ← readSlot children 0
        pure (root.1, height, tree)

/-- The leaves with their first keys. -/
def minKeys (tree : RawBTree K V) : List NodeIdx → Result (List (NodeIdx × K))
  | [] => .ok []
  | leaf :: leaves => do
      let first ← readSlot (tree.node leaf).entries 0
      let rest ← tree.minKeys leaves
      pure ((leaf, first.1.key) :: rest)

/-- `n.div_ceil(leaf_cap)`. -/
def numLeaves (layout : NodeLayout) (n : Nat) : Nat := (n + layout.leafCap - 1) / layout.leafCap

def bulkLoad (layout : NodeLayout) (pairs : List (K × V)) : Result (RawBTree K V) :=
  if pairs.isEmpty then .ok .new
  else do
    let (leaves, tree) := loadLeaves layout (numLeaves layout pairs.length) pairs .new
    let tree := wireChain none leaves tree
    let children ← tree.minKeys leaves
    let (root, height, tree) ← loadLevels layout children.length children 0 tree
    pure { tree with
      root := some root
      firstLeaf := leaves.head?
      lastLeaf := leaves.getLast?
      len := pairs.length
      height := height }

variable [LinearOrder K]

/-- `dedup_by` on sorted pairs: a pair after one with an equal key hands its value
back to it. -/
def dedupPairs (last : K × V) : List (K × V) → List (K × V)
  | [] => [last]
  | pair :: pairs =>
      if last.1 = pair.1 then dedupPairs (last.1, pair.2) pairs else last :: dedupPairs pair pairs

/-- The stable sort by key, and the last value of each key. -/
def sortPairs (pairs : List (K × V)) : List (K × V) :=
  match pairs.mergeSort fun left right => left.1 ≤ right.1 with
  | [] => []
  | pair :: pairs => dedupPairs pair pairs

def fromIter (layout : NodeLayout) (pairs : List (K × V)) : Result (RawBTree K V) :=
  bulkLoad layout (sortPairs pairs)

end Optimap.FlatBTree.RawBTree
