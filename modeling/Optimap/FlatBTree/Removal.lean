import Optimap.FlatBTree.RawBTree

/-!
# The tree: removal

Removal from a leaf, the rebalancing it may start, and `clear`. The recursion
`internal_remove_at` → `rebalance_internal` → `merge_internals` climbs one level
per round, so it is given as many rounds as the tree has levels.
-/

set_option autoImplicit false

namespace Optimap.FlatBTree.RawBTree

variable {K V : Type}

section Rebalance

/-- The order of events of `rebalance_leaf` and `rebalance_internal`: steal from a
right sibling above the minimum, else from such a left one, else merge with the
right sibling, else with the left one. `stealRight` takes the sibling, the parent
and the child's slot; `stealLeft` the slot before it; `merge` the left one of the
two, its slot and the parent. -/
def rebalance (tree : RawBTree K V) (idx : NodeIdx) (size : Node K V → Nat) (minKeys : Nat)
    (stealRight stealLeft : NodeIdx → NodeIdx → Nat → Result (RawBTree K V))
    (merge : NodeIdx → Nat → NodeIdx → Result (RawBTree K V)) : Result (RawBTree K V) :=
  match (tree.node idx).parent with
  | none => pure tree
  | some parent => do
      let parentLen := (tree.node parent).keys.length
      let childPos := tree.childSlot parent idx 0
      let right ← (if childPos < parentLen then
        (readSlot (tree.node parent).children (childPos + 1)).map some else pure none)
      match right.filter (fun right => minKeys < size (tree.node right)) with
      | some right => stealRight right parent childPos
      | none => do
          let left ← (if 0 < childPos then
            (readSlot (tree.node parent).children (childPos - 1)).map some else pure none)
          match left.filter (fun left => minKeys < size (tree.node left)) with
          | some left => stealLeft left parent (childPos - 1)
          | none =>
              if childPos < parentLen then merge idx childPos parent
              else do
                let leftPos ← childPosPred childPos
                let left ← readSlot (tree.node parent).children leftPos
                merge left leftPos parent


/-- A root without keys gives way to its only child. -/
def collapseRoot (tree : RawBTree K V) (root : NodeIdx) : Result (RawBTree K V) := do
  let onlyChild ← readSlot (tree.node root).children 0
  let tree := (tree.setParent none onlyChild).freeNode root
  pure { tree with root := some onlyChild, height := tree.height - 1 }

/-- Rotate through the parent: its separator comes down to the end of `idx`, the
first key of `right` goes up, the first child of `right` moves over. -/
def stealInternalRight (tree : RawBTree K V) (idx right parent : NodeIdx) (childPos : Nat) :
    Result (RawBTree K V) := do
  let sepKey ← readSlot (tree.node parent).keys childPos
  let movedChild ← readSlot (tree.node right).children 0
  let newSep ← readSlot (tree.node right).keys 0
  let tree := tree.modify idx fun node =>
    { node with keys := node.keys ++ [sepKey], children := node.children ++ [movedChild] }
  let tree := tree.setParent (some idx) movedChild
  let tree := tree.modify parent fun node => { node with keys := node.keys.set childPos newSep }
  pure (tree.modify right fun node =>
    { node with keys := node.keys.tail, children := node.children.tail })

/-- The rotation the other way; `sepPos` is the slot of the separator. -/
def stealInternalLeft (tree : RawBTree K V) (idx left parent : NodeIdx) (sepPos : Nat) :
    Result (RawBTree K V) := do
  let sepKey ← readSlot (tree.node parent).keys sepPos
  let leftLen := (tree.node left).keys.length
  let movedChild ← readSlot (tree.node left).children leftLen
  let newSep ← readSlot (tree.node left).keys (leftLen - 1)
  let tree := tree.modify idx fun node =>
    { node with keys := sepKey :: node.keys, children := movedChild :: node.children }
  let tree := tree.setParent (some idx) movedChild
  let tree := tree.modify left fun node =>
    { node with keys := node.keys.take (leftLen - 1), children := node.children.take leftLen }
  pure (tree.modify parent fun node => { node with keys := node.keys.set sepPos newSep })

/-- Merge the internal node at `leftChildPos` with its right neighbour. The
separator is read into the left node, and `removeAt` then removes its slot. -/
def mergeInternals (removeAt : NodeIdx → Nat → RawBTree K V → Result (RawBTree K V))
    (tree : RawBTree K V) (left : NodeIdx) (leftChildPos : Nat) (parent : NodeIdx) :
    Result (RawBTree K V) := do
  let right ← readSlot (tree.node parent).children (leftChildPos + 1)
  let sepKey ← readSlot (tree.node parent).keys leftChildPos
  let rightKeys := (tree.node right).keys
  let rightChildren := (tree.node right).children
  let tree := tree.modify left fun node =>
    { node with keys := node.keys ++ sepKey :: rightKeys, children := node.children ++ rightChildren }
  let tree := tree.setParents (some left) rightChildren
  removeAt parent leftChildPos (tree.freeNode right)

/-- Rebalance an internal node with fewer than `INTERNAL_CAP / 2` keys. -/
def rebalanceInternal (layout : NodeLayout)
    (removeAt : NodeIdx → Nat → RawBTree K V → Result (RawBTree K V))
    (tree : RawBTree K V) (idx : NodeIdx) : Result (RawBTree K V) :=
  tree.rebalance idx (fun node => node.keys.length) (layout.internalCap / 2)
    (tree.stealInternalRight idx) (tree.stealInternalLeft idx) (tree.mergeInternals removeAt)

/-- Remove the key at `slot` and the child at `slot + 1`, then rebalance. -/
def internalRemoveAt (layout : NodeLayout) :
    Nat → NodeIdx → Nat → RawBTree K V → Result (RawBTree K V)
  | 0, _, _, _ => .error .endless
  | fuel + 1, idx, slot, tree => do
      let separator ← readSlot (tree.node idx).keys slot
      let tree := tree.drop separator
      let tree := tree.modify idx fun node =>
        { node with keys := node.keys.eraseIdx slot, children := node.children.eraseIdx (slot + 1) }
      let newLen := (tree.node idx).keys.length
      if tree.root = some idx ∧ newLen = 0 then tree.collapseRoot idx
      else if newLen < layout.internalCap / 2 ∧ tree.root ≠ some idx then
        tree.rebalanceInternal layout (internalRemoveAt layout fuel) idx
      else pure tree

/-- The first entry of the right sibling moves to the end of the leaf. -/
def stealLeafRight (tree : RawBTree K V) (leaf right parent : NodeIdx) (childPos : Nat) :
    Result (RawBTree K V) := do
  let stolen ← readSlot (tree.node right).entries 0
  let tree := tree.setEntries ((tree.node leaf).entries ++ [stolen]) leaf
  let tree := tree.setEntries (tree.node right).entries.tail right
  let first ← readSlot (tree.node right).entries 0
  let (newSep, tree) := tree.own first.1.key
  let oldSep ← readSlot (tree.node parent).keys childPos
  let tree := tree.drop oldSep
  pure (tree.modify parent fun node => { node with keys := node.keys.set childPos newSep })

/-- The last entry of the left sibling moves to the front of the leaf. -/
def stealLeafLeft (tree : RawBTree K V) (leaf left parent : NodeIdx) (sepPos : Nat) :
    Result (RawBTree K V) := do
  let leftLen := (tree.node left).entries.length
  let stolen ← readSlot (tree.node left).entries (leftLen - 1)
  let tree := tree.setEntries (stolen :: (tree.node leaf).entries) leaf
  let tree := tree.setEntries ((tree.node left).entries.take (leftLen - 1)) left
  let first ← readSlot (tree.node leaf).entries 0
  let (newSep, tree) := tree.own first.1.key
  let oldSep ← readSlot (tree.node parent).keys sepPos
  let tree := tree.drop oldSep
  pure (tree.modify parent fun node => { node with keys := node.keys.set sepPos newSep })

/-- Unhang `right` from the leaf chain behind `left`. -/
def unlinkAfter (tree : RawBTree K V) (left right : NodeIdx) : RawBTree K V :=
  let rightNext := (tree.node right).next
  let tree := tree.setNext rightNext left
  match rightNext with
  | some next => tree.setPrev (some left) next
  | none => { tree with lastLeaf := some left }

/-- Merge the leaf at `leftChildPos` with its right neighbour. -/
def mergeLeaves (layout : NodeLayout) (tree : RawBTree K V) (left : NodeIdx) (leftChildPos : Nat)
    (parent : NodeIdx) : Result (RawBTree K V) := do
  let right ← readSlot (tree.node parent).children (leftChildPos + 1)
  let tree := tree.setEntries ((tree.node left).entries ++ (tree.node right).entries) left
  let tree := (tree.unlinkAfter left right).freeNode right
  internalRemoveAt layout tree.height parent leftChildPos tree

/-- Rebalance a leaf with fewer than `LEAF_CAP / 2` entries. -/
def rebalanceLeaf (layout : NodeLayout) (tree : RawBTree K V) (leaf : NodeIdx) :
    Result (RawBTree K V) :=
  tree.rebalance leaf (fun node => node.entries.length) (layout.leafCap / 2)
    (tree.stealLeafRight leaf) (tree.stealLeafLeft leaf) (tree.mergeLeaves layout)

end Rebalance

section Removal

/-- Remove the entry at `slot` of a leaf, then rebalance if needed. -/
def leafRemoveAt (layout : NodeLayout) (tree : RawBTree K V) (leaf : NodeIdx) (slot : Nat) :
    Result ((KeyObj K × V) × RawBTree K V) := do
  let entry ← readSlot (tree.node leaf).entries slot
  let tree := tree.setEntries ((tree.node leaf).entries.eraseIdx slot) leaf
  let tree := { tree with len := tree.len - 1 }
  let newLen := (tree.node leaf).entries.length
  let tree ← (if newLen < layout.leafCap / 2 ∧ 0 < tree.height then tree.rebalanceLeaf layout leaf
    else pure tree)
  pure (entry, tree)

/-- The leaves from `idx` on, by their links, at most `fuel` of them. -/
def leafChain (tree : RawBTree K V) (link : Node K V → Option NodeIdx) :
    Nat → Option NodeIdx → Result (List NodeIdx)
  | _, none => .ok []
  | 0, some _ => .error .endless
  | fuel + 1, some idx => do
      let rest ← leafChain tree link fuel (link (tree.node idx))
      pure (idx :: rest)

/-- The first leaf with entries on the way along the links. -/
def nonemptyLeaf (tree : RawBTree K V) (link : Node K V → Option NodeIdx) :
    Nat → Option NodeIdx → Result (Option NodeIdx)
  | _, none => .ok none
  | 0, some _ => .error .endless
  | fuel + 1, some idx =>
      if 0 < (tree.node idx).entries.length then .ok (some idx)
      else nonemptyLeaf tree link fuel (link (tree.node idx))

def firstNonemptyLeaf (tree : RawBTree K V) : Result (Option NodeIdx) :=
  tree.nonemptyLeaf Node.next tree.arena.len tree.firstLeaf

def lastNonemptyLeaf (tree : RawBTree K V) : Result (Option NodeIdx) :=
  tree.nonemptyLeaf Node.prev tree.arena.len tree.lastLeaf

variable [LinearOrder K]

/-- The key taken out of the tree goes to the caller. -/
def removeEntry (layout : NodeLayout) (tree : RawBTree K V) (key : K) :
    Result (Option (K × V) × RawBTree K V) := do
  match ← tree.search key with
  | none => pure (none, tree)
  | some (leaf, slot) => do
      let (entry, tree) ← tree.leafRemoveAt layout leaf slot
      pure (some (entry.1.key, entry.2), tree)

/-- The key taken out of the tree is dropped. -/
def remove (layout : NodeLayout) (tree : RawBTree K V) (key : K) :
    Result (Option V × RawBTree K V) := do
  match ← tree.search key with
  | none => pure (none, tree)
  | some (leaf, slot) => do
      let (entry, tree) ← tree.leafRemoveAt layout leaf slot
      pure (some entry.2, tree.drop entry.1)

def popFirst (layout : NodeLayout) (tree : RawBTree K V) :
    Result (Option (K × V) × RawBTree K V) :=
  if tree.len = 0 then pure (none, tree)
  else do
    match ← tree.firstNonemptyLeaf with
    | none => pure (none, tree)
    | some leaf => do
        let (entry, tree) ← tree.leafRemoveAt layout leaf 0
        pure (some (entry.1.key, entry.2), tree)

def popLast (layout : NodeLayout) (tree : RawBTree K V) :
    Result (Option (K × V) × RawBTree K V) :=
  if tree.len = 0 then pure (none, tree)
  else do
    match ← tree.lastNonemptyLeaf with
    | none => pure (none, tree)
    | some leaf => do
        let lastIdx := (tree.node leaf).entries.length - 1
        let (entry, tree) ← tree.leafRemoveAt layout leaf lastIdx
        pure (some (entry.1.key, entry.2), tree)

end Removal

section Clear

/-- The separators below a node, as `drop_internal_keys` visits them. -/
def internalKeys (tree : RawBTree K V) : Nat → NodeIdx → Result (List (KeyObj K))
  | fuel, idx =>
      if (tree.node idx).isLeaf then .ok []
      else
        match fuel with
        | 0 => .error .endless
        | fuel + 1 => do
            let below ← (tree.node idx).children.mapM (internalKeys tree fuel)
            pure ((tree.node idx).keys ++ below.flatten)

/-- Drop the keys of all leaves along the chain, then all separators. -/
def dropAllContents (tree : RawBTree K V) : Result (RawBTree K V) :=
  match tree.root with
  | none => pure tree
  | some root => do
      let leaves ← tree.leafChain Node.next tree.arena.len tree.firstLeaf
      let separators ← tree.internalKeys tree.height root
      let tree := tree.dropAll (leaves.flatMap fun leaf => (tree.node leaf).entries.map Prod.fst)
      pure (tree.dropAll separators)

/-- The blocks stay, with whatever bytes they hold. -/
def clear (tree : RawBTree K V) : Result (RawBTree K V) := do
  let tree ← tree.dropAllContents
  pure { tree with
    arena := { tree.arena with len := 0, free := [] }
    root := none
    firstLeaf := none
    lastLeaf := none
    len := 0
    height := 0 }

end Clear

end Optimap.FlatBTree.RawBTree
