import Optimap.FlatBTree.Node

/-!
# The tree: search and insertion

The functions of `raw.rs` on the arena. A descent path is a list with its last
element first, so that popping takes the head.
-/

set_option autoImplicit false

namespace Optimap.FlatBTree

structure RawBTree (K V : Type) where
  arena : Arena K V
  root : Option NodeIdx
  firstLeaf : Option NodeIdx
  lastLeaf : Option NodeIdx
  len : Nat
  height : Nat
  ledger : Ledger

/-- `(parent_node_idx, child_slot_in_parent)`, deepest parent first. -/
abbrev PathBuf := List (NodeIdx × Nat)

namespace RawBTree

variable {K V : Type}

def new : RawBTree K V where
  arena := .new
  root := none
  firstLeaf := none
  lastLeaf := none
  len := 0
  height := 0
  ledger := ⟨0, []⟩

section Access

def node (tree : RawBTree K V) (idx : NodeIdx) : Node K V := tree.arena.nodes idx

def modify (tree : RawBTree K V) (idx : NodeIdx) (change : Node K V → Node K V) : RawBTree K V :=
  { tree with arena := tree.arena.modify idx change }

def allocNode (tree : RawBTree K V) : NodeIdx × RawBTree K V :=
  (tree.arena.allocNode.1, { tree with arena := tree.arena.allocNode.2 })

def freeNode (tree : RawBTree K V) (idx : NodeIdx) : RawBTree K V :=
  { tree with arena := tree.arena.freeNode idx }

def setParent (tree : RawBTree K V) (parent : Option NodeIdx) (idx : NodeIdx) : RawBTree K V :=
  tree.modify idx fun node => { node with parent := parent }

def setParents (tree : RawBTree K V) (parent : Option NodeIdx) (idxs : List NodeIdx) :
    RawBTree K V :=
  idxs.foldl (fun tree idx => tree.setParent parent idx) tree

def setPrev (tree : RawBTree K V) (prev : Option NodeIdx) (idx : NodeIdx) : RawBTree K V :=
  tree.modify idx fun node => { node with prev := prev }

def setNext (tree : RawBTree K V) (next : Option NodeIdx) (idx : NodeIdx) : RawBTree K V :=
  tree.modify idx fun node => { node with next := next }

def setEntries (tree : RawBTree K V) (entries : List (KeyObj K × V)) (idx : NodeIdx) :
    RawBTree K V :=
  tree.modify idx fun node => node.setEntries entries

/-- Give an object under `key` to the tree: one passed in, or a clone. -/
def own (tree : RawBTree K V) (key : K) : KeyObj K × RawBTree K V :=
  (⟨key, tree.ledger.nextId⟩,
    { tree with ledger := { tree.ledger with nextId := tree.ledger.nextId + 1 } })

def drop (tree : RawBTree K V) (object : KeyObj K) : RawBTree K V :=
  { tree with ledger := { tree.ledger with dropped := object.id :: tree.ledger.dropped } }

def dropAll (tree : RawBTree K V) (objects : List (KeyObj K)) : RawBTree K V :=
  objects.foldl drop tree

end Access

section Search
variable [LinearOrder K]

/-- The slot of the first separator above `key`, found by scanning. -/
def scanAbove (key : K) (keys : List (KeyObj K)) : Nat :=
  keys.findIdx fun object => key < object.key

/-- `partition_point`: on a partitioned slice, where the predicate stops holding. -/
def partitionPoint {α : Type} (predicate : α → Bool) (slots : List α) : Nat :=
  (slots.takeWhile predicate).length

/-- The `for _ in 0..height` loop from a node down, by a choice of child slot. -/
def descend (tree : RawBTree K V) (choose : List (KeyObj K) → Nat) : Nat → NodeIdx → Result NodeIdx
  | 0, idx => .ok idx
  | height + 1, idx => do
      let child ← readSlot (tree.node idx).children (choose (tree.node idx).keys)
      descend tree choose height child

/-- The scan of a leaf, which stops at the first larger key. -/
def scanLeaf (key : K) : List (KeyObj K × V) → Option Nat
  | [] => none
  | entry :: entries =>
      if key = entry.1.key then some 0
      else if key < entry.1.key then none
      else (scanLeaf key entries).map (· + 1)

def searchLinear (tree : RawBTree K V) (key : K) (root : NodeIdx) : Result (Option (NodeIdx × Nat)) := do
  let leaf ← tree.descend (scanAbove key) tree.height root
  pure ((scanLeaf key (tree.node leaf).entries).map fun slot => (leaf, slot))

/-- `binary_search_by` on a leaf: its keys are distinct, so the matching slot. -/
def searchBinary (tree : RawBTree K V) (key : K) (root : NodeIdx) : Result (Option (NodeIdx × Nat)) := do
  let leaf ← tree.descend (partitionPoint fun object => object.key ≤ key) tree.height root
  pure (((tree.node leaf).entries.findIdx? fun entry => entry.1.key = key).map fun slot => (leaf, slot))

def search (tree : RawBTree K V) (key : K) : Result (Option (NodeIdx × Nat)) :=
  match tree.root with
  | none => .ok none
  | some root =>
      if tree.height < 3 then tree.searchLinear key root else tree.searchBinary key root

def get (tree : RawBTree K V) (key : K) : Result (Option V) := do
  match ← tree.search key with
  | none => pure none
  | some (leaf, slot) => do
      let entry ← readSlot (tree.node leaf).entries slot
      pure (some entry.2)

/-- Where a key goes in a leaf: before the first key not below it. -/
def insertSlot (key : K) (entries : List (KeyObj K × V)) : Nat :=
  entries.findIdx fun entry => key ≤ entry.1.key

/-- The descent that records its path. -/
def descendPath (tree : RawBTree K V) (key : K) : Nat → NodeIdx → PathBuf → Result (NodeIdx × PathBuf)
  | 0, idx, path => .ok (idx, path)
  | height + 1, idx, path => do
      let slot := scanAbove key (tree.node idx).keys
      let child ← readSlot (tree.node idx).children slot
      descendPath tree key height child ((idx, slot) :: path)

def searchForInsert (tree : RawBTree K V) (key : K) (root : NodeIdx) : Result (NodeIdx × Nat × PathBuf) := do
  let (leaf, path) ← tree.descendPath key tree.height root []
  pure (leaf, insertSlot key (tree.node leaf).entries, path)

def searchForInsertNoPath (tree : RawBTree K V) (key : K) (root : NodeIdx) : Result (NodeIdx × Nat) := do
  let leaf ← tree.descend (scanAbove key) tree.height root
  pure (leaf, insertSlot key (tree.node leaf).entries)

/-- The slot of `child` among the children of `parent`, scanned with a default. -/
def childSlot (tree : RawBTree K V) (parent child : NodeIdx) (default : Nat) : Nat :=
  ((tree.node parent).children.findIdx? (· == child)).getD default

/-- The path to a node by parent pointers, which lead up at most `fuel` levels. -/
def pathToNode (tree : RawBTree K V) : Nat → NodeIdx → Result PathBuf
  | fuel, idx =>
      match (tree.node idx).parent with
      | none => .ok []
      | some parent =>
          match fuel with
          | 0 => .error .endless
          | fuel + 1 => do
              let slot := tree.childSlot parent idx (tree.node parent).keys.length
              let path ← pathToNode tree fuel parent
              pure ((parent, slot) :: path)

end Search

section Insertion

/-- Insert at `pos` in a leaf that has room. -/
def leafInsertAt (tree : RawBTree K V) (leaf : NodeIdx) (pos : Nat) (key : KeyObj K) (value : V) :
    RawBTree K V :=
  let entries := (tree.node leaf).entries
  tree.setEntries (entries.take pos ++ (key, value) :: entries.drop pos) leaf

/-- The first leaf of an empty tree. -/
def insertFirst (tree : RawBTree K V) (key : KeyObj K) (value : V) : RawBTree K V :=
  let (leaf, tree) := tree.allocNode
  let tree := tree.modify leaf fun node =>
    { node.setEntries [(key, value)] with isLeaf := true, parent := none, prev := none, next := none }
  { tree with root := some leaf, firstLeaf := some leaf, lastLeaf := some leaf, len := 1 }

/-- Hang `right` into the leaf chain behind `left`. -/
def linkAfter (tree : RawBTree K V) (left right : NodeIdx) (oldNext : Option NodeIdx) : RawBTree K V :=
  let tree := ((tree.setNext (some right) left).setPrev (some left) right).setNext oldNext right
  match oldNext with
  | some next => tree.setPrev (some right) next
  | none => { tree with lastLeaf := some right }

/-- Split a full leaf and insert the new entry. Returns the promoted key, the new
right leaf and the tree. -/
def leafSplitAndInsert (layout : NodeLayout) (tree : RawBTree K V) (left : NodeIdx) (pos : Nat)
    (key : KeyObj K) (value : V) : Result (KeyObj K × NodeIdx × RawBTree K V) := do
  let mid := (layout.leafCap + 1) / 2
  let (right, tree) := tree.allocNode
  let oldNext := (tree.node left).next
  let leftParent := (tree.node left).parent
  let tree := tree.modify right fun node => { node with isLeaf := true, parent := leftParent }
  let entries := (tree.node left).entries
  let tree :=
    if pos < mid then
      -- the left half loses one more entry, since the new one comes back to it
      let moveStart := mid - 1
      let tree := tree.setEntries (entries.drop moveStart) right
      let tree := tree.setEntries (entries.take moveStart) left
      tree.leafInsertAt left pos key value
    else
      let rightPos := pos - mid
      let tree := tree.setEntries
        ((entries.drop mid).take rightPos ++ (key, value) :: entries.drop (mid + rightPos)) right
      tree.setEntries (entries.take mid) left
  let tree := tree.linkAfter left right oldNext
  let first ← readSlot (tree.node right).entries 0
  let (promoted, tree) := tree.own first.1.key
  pure (promoted, right, tree)

def internalInsertAt (tree : RawBTree K V) (idx : NodeIdx) (pos : Nat) (key : KeyObj K)
    (rightChild : NodeIdx) : RawBTree K V :=
  tree.modify idx fun node =>
    { node with
      keys := node.keys.take pos ++ key :: node.keys.drop pos
      children := node.children.take (pos + 1) ++ rightChild :: node.children.drop (pos + 1) }

/-- Write the two halves of a split node around the key at `mid`. Only the
children that move get a new parent. -/
def distribute (tree : RawBTree K V) (left right : NodeIdx) (mid : Nat)
    (allKeys : List (KeyObj K)) (allChildren : List NodeIdx) : RawBTree K V :=
  let leftParent := (tree.node left).parent
  let tree := tree.modify left fun node =>
    { node with keys := allKeys.take mid, children := allChildren.take (mid + 1) }
  let tree := tree.modify right fun node =>
    { node with
      isLeaf := false
      parent := leftParent
      keys := allKeys.drop (mid + 1)
      children := allChildren.drop (mid + 1) }
  tree.setParents (some right) (allChildren.drop (mid + 1))

/-- Split a full internal node and insert a key with its right child. Returns the
promoted key, the new right node and the tree. -/
def internalSplitAndInsert (layout : NodeLayout) (tree : RawBTree K V) (left : NodeIdx) (pos : Nat)
    (key : KeyObj K) (rightChild : NodeIdx) : Result (KeyObj K × NodeIdx × RawBTree K V) := do
  let mid := layout.internalCap / 2
  let (right, tree) := tree.allocNode
  let keys := (tree.node left).keys
  let children := (tree.node left).children
  let allKeys := keys.take pos ++ key :: keys.drop pos
  let allChildren := children.take (pos + 1) ++ rightChild :: children.drop (pos + 1)
  let promoted ← readSlot allKeys mid
  pure (promoted, right, tree.distribute left right mid allKeys allChildren)

/-- A new root above two nodes. -/
def installRoot (tree : RawBTree K V) (key : KeyObj K) (left right : NodeIdx) : RawBTree K V :=
  let (root, tree) := tree.allocNode
  let tree := tree.modify root fun node =>
    { node with isLeaf := false, parent := none, keys := [key], children := [left, right] }
  let tree := tree.setParents (some root) [left, right]
  { tree with root := some root, height := tree.height + 1 }

/-- Propagate a split upward along the recorded path. -/
def propagateSplit (layout : NodeLayout) :
    PathBuf → KeyObj K → NodeIdx → RawBTree K V → Result (RawBTree K V)
  | [], key, newChild, tree => do
      let root ← deref tree.root
      pure (tree.installRoot key root newChild)
  | (parent, childPos) :: path, key, newChild, tree =>
      if (tree.node parent).keys.length < layout.internalCap then
        pure ((tree.internalInsertAt parent childPos key newChild).setParent (some parent) newChild)
      else do
        let (promoted, newInternal, tree) ←
          tree.internalSplitAndInsert layout parent childPos key newChild
        propagateSplit layout path promoted newInternal tree

/-- Propagate a split upward by parent pointers. -/
def propagateSplitLazy (layout : NodeLayout) :
    Nat → NodeIdx → KeyObj K → NodeIdx → RawBTree K V → Result (RawBTree K V)
  | fuel, child, key, newSibling, tree =>
      match (tree.node child).parent with
      | none => pure (tree.installRoot key child newSibling)
      | some parent =>
          match fuel with
          | 0 => .error .endless
          | fuel + 1 => do
              let childPos := tree.childSlot parent child ((tree.node parent).keys.length + 1)
              if (tree.node parent).keys.length < layout.internalCap then
                pure ((tree.internalInsertAt parent childPos key newSibling).setParent
                  (some parent) newSibling)
              else do
                let (promoted, newInternal, tree) ←
                  tree.internalSplitAndInsert layout parent childPos key newSibling
                propagateSplitLazy layout fuel parent promoted newInternal tree

/-- Insert at a slot of a leaf, splitting it when it is full. The path is only
looked at in that case. -/
def insertInLeaf (layout : NodeLayout) (tree : RawBTree K V) (leaf : NodeIdx) (pos : Nat)
    (key : KeyObj K) (value : V) (path : Result PathBuf) : Result (RawBTree K V) :=
  if (tree.node leaf).entries.length < layout.leafCap then
    let tree := tree.leafInsertAt leaf pos key value
    pure { tree with len := tree.len + 1 }
  else do
    let path ← path
    let (promoted, newLeaf, tree) ← tree.leafSplitAndInsert layout leaf pos key value
    propagateSplit layout path promoted newLeaf { tree with len := tree.len + 1 }

variable [LinearOrder K]

/-- Insert a key. Returns the previous value under an equal key, whose object
stays; the one passed in is then dropped. -/
def insert (layout : NodeLayout) (tree : RawBTree K V) (key : K) (value : V) :
    Result (Option V × RawBTree K V) := do
  let (object, tree) := tree.own key
  match tree.root with
  | none => pure (none, tree.insertFirst object value)
  | some root => do
      let last ← deref tree.lastLeaf
      let lastEntries := (tree.node last).entries
      -- fast path: above all existing keys
      if lastEntries.getLast?.any (fun entry => entry.1.key < key) then do
        let tree ← tree.insertInLeaf layout last lastEntries.length object value
          (tree.pathToNode tree.height last)
        pure (none, tree)
      else do
        let first ← deref tree.firstLeaf
        let firstEntries := (tree.node first).entries
        -- fast path: below all existing keys
        if firstEntries.head?.any (fun entry => key < entry.1.key) then do
          let tree ← tree.insertInLeaf layout first 0 object value (tree.pathToNode tree.height first)
          pure (none, tree)
        else do
          let (leaf, pos, path) ← tree.searchForInsert key root
          let entries := (tree.node leaf).entries
          match entries[pos]? with
          | some entry =>
              if entry.1.key = key then
                let tree := tree.setEntries (entries.set pos (entry.1, value)) leaf
                pure (some entry.2, tree.drop object)
              else do
                let tree ← tree.insertInLeaf layout leaf pos object value (.ok path)
                pure (none, tree)
          | none => do
              let tree ← tree.insertInLeaf layout leaf pos object value (.ok path)
              pure (none, tree)

inductive EntrySearch where
  | emptyTree
  | occupied (leaf : NodeIdx) (slot : Nat)
  | vacant (leaf : NodeIdx) (pos : Nat)

def entrySearch (tree : RawBTree K V) (key : K) : Result EntrySearch :=
  match tree.root with
  | none => .ok .emptyTree
  | some root => do
      let (leaf, pos) ← tree.searchForInsertNoPath key root
      match (tree.node leaf).entries[pos]? with
      | some entry => pure (if entry.1.key = key then .occupied leaf pos else .vacant leaf pos)
      | none => pure (.vacant leaf pos)

/-- Insert at a vacant position. Returns where the entry ended up. -/
def insertAtVacant (layout : NodeLayout) (tree : RawBTree K V) (leaf : NodeIdx) (pos : Nat)
    (key : KeyObj K) (value : V) : Result (NodeIdx × Nat × RawBTree K V) :=
  if (tree.node leaf).entries.length < layout.leafCap then
    let tree := tree.leafInsertAt leaf pos key value
    pure (leaf, pos, { tree with len := tree.len + 1 })
  else do
    let mid := (layout.leafCap + 1) / 2
    let (promoted, newLeaf, tree) ← tree.leafSplitAndInsert layout leaf pos key value
    let tree ← propagateSplitLazy layout tree.height leaf promoted newLeaf
      { tree with len := tree.len + 1 }
    pure (if pos < mid then (leaf, pos, tree) else (newLeaf, pos - mid, tree))

/-- `entry(key).or_insert(value)`: the value the returned reference points to. -/
def entryOrInsert (layout : NodeLayout) (tree : RawBTree K V) (key : K) (value : V) :
    Result (V × RawBTree K V) := do
  let (object, tree) := tree.own key
  match ← tree.entrySearch key with
  | .occupied leaf slot => do
      let entry ← readSlot (tree.node leaf).entries slot
      pure (entry.2, tree.drop object)
  | .vacant leaf pos => do
      let (leaf, slot, tree) ← tree.insertAtVacant layout leaf pos object value
      let entry ← readSlot (tree.node leaf).entries slot
      pure (entry.2, tree)
  | .emptyTree => do
      let tree := tree.insertFirst object value
      let first ← deref tree.firstLeaf
      let entry ← readSlot (tree.node first).entries 0
      pure (entry.2, tree)

end Insertion

end RawBTree

end Optimap.FlatBTree
