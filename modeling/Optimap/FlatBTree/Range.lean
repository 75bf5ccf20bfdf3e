import Optimap.FlatBTree.Removal

/-!
# Ranges and `retain`

A range is resolved to two positions in the leaf chain, one for each bound, and
walked from the first until the second is met. `retain` filters the leaves in
place and leaves the nodes above them as they are.
-/

set_option autoImplicit false

namespace Optimap.FlatBTree

variable {K V : Type}

inductive Bound (K : Type) where
  | included (key : K)
  | excluded (key : K)
  | unbounded

/-- A leaf and a slot in it; `NO_NODE` is the end of the chain. -/
abbrev Position := Option NodeIdx × Nat

namespace RawBTree

section Bounds
variable [LinearOrder K]

/-- The leaf of the first key not below `key`, scanning in shallow trees and by
binary search in taller ones. -/
def lowerLeaf (tree : RawBTree K V) (key : K) (root : NodeIdx) : Result NodeIdx :=
  if tree.height < 3 then tree.descend (fun keys => keys.findIdx fun object => key ≤ object.key) tree.height root
  else tree.descend (partitionPoint fun object => object.key < key) tree.height root

/-- The first slot of a leaf that is not below `key`. -/
def lowerSlot (tree : RawBTree K V) (key : K) (entries : List (KeyObj K × V)) : Nat :=
  if tree.height < 3 then entries.findIdx fun entry => key ≤ entry.1.key
  else partitionPoint (fun entry => entry.1.key < key) entries

/-- Only the leaf next to the one found is looked at. -/
def lowerBound (tree : RawBTree K V) (key : K) : Result (Option (NodeIdx × Nat)) :=
  match tree.root with
  | none => .ok none
  | some root => do
      let leaf ← tree.lowerLeaf key root
      let entries := (tree.node leaf).entries
      let pos := tree.lowerSlot key entries
      if pos < entries.length then pure (some (leaf, pos))
      else
        match (tree.node leaf).next with
        | none => pure none
        | some next => if 0 < (tree.node next).entries.length then pure (some (next, 0)) else pure none

/-- `unwrap_or((NO_NODE, 0))`. -/
def position : Option (NodeIdx × Nat) → Position
  | none => (none, 0)
  | some (leaf, idx) => (some leaf, idx)

/-- The position behind `key`, if it is what the search found. -/
def positionAfter (tree : RawBTree K V) (key : K) : Option (NodeIdx × Nat) → Result Position
  | none => .ok (none, 0)
  | some (leaf, idx) => do
      let entry ← readSlot (tree.node leaf).entries idx
      if entry.1.key = key then
        if idx + 1 < (tree.node leaf).entries.length then pure (some leaf, idx + 1)
        else pure ((tree.node leaf).next, 0)
      else pure (some leaf, idx)

def startPosition (tree : RawBTree K V) : Bound K → Result Position
  | .included key => do
      let found ← tree.lowerBound key
      pure (position found)
  | .excluded key => do
      let found ← tree.lowerBound key
      tree.positionAfter key found
  | .unbounded => .ok (tree.firstLeaf, 0)

/-- The exclusive end; `NO_NODE` stands for no end. -/
def endPosition (tree : RawBTree K V) : Bound K → Result Position
  | .included key => do
      let found ← tree.lowerBound key
      tree.positionAfter key found
  | .excluded key => do
      let found ← tree.lowerBound key
      pure (position found)
  | .unbounded => .ok (none, 0)

def resolveRangeBounds (tree : RawBTree K V) (start stop : Bound K) : Result (Position × Position) := do
  let first ← tree.startPosition start
  let last ← tree.endPosition stop
  pure (first, last)

end Bounds

end RawBTree

structure RangeIter where
  currentLeaf : Option NodeIdx
  currentIdx : Nat
  endLeaf : Option NodeIdx
  endIdx : Nat

namespace RangeIter

/-- `next`, which looks at `fuel` leaves at most. -/
def next (tree : RawBTree K V) : Nat → RangeIter → Result (Option (K × V) × RangeIter)
  | 0, _ => .error .endless
  | fuel + 1, iter =>
      match iter.currentLeaf with
      | none => .ok (none, iter)
      | some leaf =>
          if iter.endLeaf = some leaf ∧ iter.endIdx ≤ iter.currentIdx then
            .ok (none, { iter with currentLeaf := none })
          else
            match (tree.node leaf).entries[iter.currentIdx]? with
            | some entry =>
                .ok (some (entry.1.key, entry.2), { iter with currentIdx := iter.currentIdx + 1 })
            | none => next tree fuel { iter with currentLeaf := (tree.node leaf).next, currentIdx := 0 }

/-- Everything the iterator yields. -/
def collect (tree : RawBTree K V) : Nat → RangeIter → Result (List (K × V))
  | 0, _ => .error .endless
  | fuel + 1, iter => do
      let (item, iter) ← iter.next tree (tree.arena.len + 1)
      match item with
      | none => pure []
      | some pair => do
          let rest ← collect tree fuel iter
          pure (pair :: rest)

end RangeIter

namespace RawBTree

variable [LinearOrder K]

/-- The iterator of `range` and of `range_mut`, which walks the same slots and
lends each value for writing. -/
def rangeIter (tree : RawBTree K V) (start stop : Bound K) : Result RangeIter := do
  let ((currentLeaf, currentIdx), (endLeaf, endIdx)) ← tree.resolveRangeBounds start stop
  pure ⟨currentLeaf, currentIdx, endLeaf, endIdx⟩

def range (tree : RawBTree K V) (start stop : Bound K) : Result (List (K × V)) := do
  let iter ← tree.rangeIter start stop
  iter.collect tree (tree.len + 1)

def rangeMut (tree : RawBTree K V) (start stop : Bound K) : Result (List (K × V)) := do
  let iter ← tree.rangeIter start stop
  iter.collect tree (tree.len + 1)

section Retain

/-- The closure of `retain`: it sees a key, may write the value, decides, and
keeps a state of its own. -/
abbrev Visit (S K V : Type) := S → K → V → Bool × V × S

variable {S : Type}

/-- The loop over one leaf, with `count` entries ahead of slot `slot`. A removed
entry is dropped and the later ones move up by one. -/
def retainLeaf (visit : Visit S K V) (leaf : NodeIdx) : Nat → Nat → S → RawBTree K V → S × RawBTree K V
  | 0, _, state, tree => (state, tree)
  | count + 1, slot, state, tree =>
      let entries := (tree.node leaf).entries
      match entries[slot]? with
      | none => (state, tree)
      | some entry =>
          let (keep, value, state) := visit state entry.1.key entry.2
          if keep then
            retainLeaf visit leaf count (slot + 1) state (tree.setEntries (entries.set slot (entry.1, value)) leaf)
          else
            let tree := (tree.drop entry.1).setEntries (entries.eraseIdx slot) leaf
            retainLeaf visit leaf count slot state { tree with len := tree.len - 1 }

/-- The walk along the chain. -/
def retainLeaves (visit : Visit S K V) : Nat → Option NodeIdx → S → RawBTree K V → Result (S × RawBTree K V)
  | _, none, state, tree => .ok (state, tree)
  | 0, some _, _, _ => .error .endless
  | fuel + 1, some leaf, state, tree =>
      let next := (tree.node leaf).next
      let (state, tree) := retainLeaf visit leaf (tree.node leaf).entries.length 0 state tree
      retainLeaves visit fuel next state tree

def retain (visit : Visit S K V) (state : S) (tree : RawBTree K V) : Result (S × RawBTree K V) := do
  let (state, tree) ← retainLeaves visit tree.arena.len tree.firstLeaf state tree
  if tree.len = 0 then do
    let tree ← tree.clear
    pure (state, tree)
  else pure (state, tree)

end Retain

end RawBTree

end Optimap.FlatBTree
