import Optimap.FlatBTree.Drain

/-!
# `append`

Trees over disjoint ranges are grafted: the nodes of the upper tree are copied into the
arena of the lower one, the leaf chains are joined, and the copied root is hung under the
right spine. Otherwise both trees are drained, merged and packed anew.
-/

set_option autoImplicit false
set_option linter.unusedSectionVars false

namespace Optimap.FlatBTree

open Lib

variable {K V : Type}

/-- The first leaf copied so far, and the end of the chain that copies are appended to. -/
structure ChainEnds where
  firstLeaf : Option NodeIdx
  chainTail : Option NodeIdx

namespace RawBTree

section Graft

/-- A leaf behind the end of the chain. All bytes are copied but the links. -/
def cloneLeafInto (node : Node K V) (ends : ChainEnds) (tree : RawBTree K V) :
    NodeIdx × ChainEnds × RawBTree K V :=
  let (leaf, tree) := tree.allocNode
  let tree := tree.modify leaf fun _ => { node with parent := none, prev := ends.chainTail, next := none }
  let tree :=
    match ends.chainTail with
    | some tail => tree.setNext (some leaf) tail
    | none => tree
  (leaf, ⟨ends.firstLeaf.or (some leaf), some leaf⟩, tree)

/-- Write a copied child over the index that came with the bytes. -/
def adoptCopy (tree : RawBTree K V) (idx : NodeIdx) (slot : Nat) (child : NodeIdx) : RawBTree K V :=
  (tree.modify idx fun node => { node with children := node.children.set slot child }).setParent (some idx) child

/-- The loop over the children of a copied node, from a slot on. -/
def cloneChildrenInto
    (clone : NodeIdx → ChainEnds → RawBTree K V → Result (NodeIdx × ChainEnds × RawBTree K V)) (copy : NodeIdx) :
    Nat → List NodeIdx → ChainEnds → RawBTree K V → Result (ChainEnds × RawBTree K V)
  | _, [], ends, tree => .ok (ends, tree)
  | slot, child :: children, ends, tree => do
      let (newChild, ends, tree) ← clone child ends tree
      cloneChildrenInto clone copy (slot + 1) children ends (tree.adoptCopy copy slot newChild)

/-- The copy of a subtree of `source`, which has at most `fuel` levels of internal nodes. -/
def cloneSubtreeInto (source : RawBTree K V) :
    Nat → NodeIdx → ChainEnds → RawBTree K V → Result (NodeIdx × ChainEnds × RawBTree K V)
  | fuel, idx, ends, tree =>
      if (source.node idx).isLeaf then .ok (cloneLeafInto (source.node idx) ends tree)
      else
        match fuel with
        | 0 => .error .endless
        | fuel + 1 => do
            let (copy, tree) := tree.allocNode
            let tree := tree.modify copy fun _ => { source.node idx with parent := none }
            let (ends, tree) ←
              cloneChildrenInto (cloneSubtreeInto source fuel) copy 0 (source.node idx).children ends tree
            pure (copy, ends, tree)

/-- Down the last children. -/
def rightSpine (tree : RawBTree K V) : Nat → NodeIdx → PathBuf → Result (NodeIdx × PathBuf)
  | 0, cur, path => .ok (cur, path)
  | descend + 1, cur, path => do
      let curLen := (tree.node cur).keys.length
      let child ← readSlot (tree.node cur).children curLen
      rightSpine tree descend child ((cur, curLen) :: path)

/-- Hang a copied root of the given height behind the right spine. -/
def graftCombineRoots (layout : NodeLayout) (tree : RawBTree K V) (otherRoot : NodeIdx) (separator : KeyObj K)
    (otherHeight : Nat) : Result (RawBTree K V) := do
  let root ← deref tree.root
  if tree.height = otherHeight then pure (tree.installRoot separator root otherRoot)
  else do
    let (cur, path) ← tree.rightSpine (tree.height - otherHeight - 1) root []
    let curLen := (tree.node cur).keys.length
    if curLen < layout.internalCap then
      pure ((tree.internalInsertAt cur curLen separator otherRoot).setParent (some cur) otherRoot)
    else do
      let (promoted, newInternal, tree) ← tree.internalSplitAndInsert layout cur curLen separator otherRoot
      propagateSplit layout path promoted newInternal tree

/-- The first key slot of a leaf, live or not. -/
def readFirstSlot (node : Node K V) : Result (KeyObj K) :=
  match (node.entries.head?.map Prod.fst).or node.slot0 with
  | some object => .ok object
  | none => .error .deadSlot

/-- The graft of a tree over larger keys. `none` when the other tree is the higher one. -/
def appendGraftDisjoint (layout : NodeLayout) (tree other : RawBTree K V) :
    Result (Option (RawBTree K V × RawBTree K V)) :=
  if tree.height < other.height then .ok none
  else do
    let otherRoot ← deref other.root
    let last ← deref tree.lastLeaf
    let (copy, ends, tree) ← other.cloneSubtreeInto other.height otherRoot ⟨none, tree.lastLeaf⟩ tree
    let tree := tree.setNext ends.firstLeaf last
    let first ← deref ends.firstLeaf
    let object ← readFirstSlot (tree.node first)
    let (separator, tree) := tree.own object.key
    let tree ← tree.graftCombineRoots layout copy separator other.height
    pure (some ({ tree with lastLeaf := ends.chainTail, len := tree.len + other.len },
      { (new : RawBTree K V) with ledger := other.ledger }))

end Graft

section Merge
variable [LinearOrder K]

/-- Two ascending sequences in one; of equal keys, the entry of the second stays. -/
def mergeEntries : List (K × V) → List (K × V) → List (K × V)
  | [], right => right
  | left, [] => left
  | a :: left, b :: right =>
      if a.1 < b.1 then a :: mergeEntries left (b :: right)
      else if b.1 < a.1 then b :: mergeEntries (a :: left) right
      else b :: mergeEntries left right

/-- Drain both trees and pack what they held. -/
def appendDrain (layout : NodeLayout) (tree other : RawBTree K V) : Result (RawBTree K V × RawBTree K V) :=
  if other.len = 0 then .ok (tree, other)
  else if tree.len = 0 then .ok (other, tree)
  else do
    let (left, _) ← tree.drainAll
    let (right, other) ← other.drainAll
    let packed ← bulkLoad layout (mergeEntries left right)
    pure (packed, other)

/-- Without the merge, where the ranges are disjoint. -/
def appendConcat (layout : NodeLayout) (tree other : RawBTree K V) : Result (RawBTree K V × RawBTree K V) :=
  if other.len = 0 then .ok (tree, other)
  else if tree.len = 0 then .ok (other, tree)
  else do
    let (left, _) ← tree.drainAll
    let (right, other) ← other.drainAll
    let packed ← bulkLoad layout (left ++ right)
    pure (packed, other)

def insertEach (layout : NodeLayout) : List (K × V) → RawBTree K V → Result (RawBTree K V)
  | [], tree => .ok tree
  | (key, value) :: pairs, tree => do
      let (_, tree) ← tree.insert layout key value
      insertEach layout pairs tree

/-- One insertion for each entry of the other tree. -/
def appendExtend (layout : NodeLayout) (tree other : RawBTree K V) : Result (RawBTree K V × RawBTree K V) :=
  if other.len = 0 then .ok (tree, other)
  else if tree.len = 0 then .ok (other, tree)
  else do
    let (pairs, other) ← other.drainAll
    let tree ← insertEach layout pairs tree
    pure (tree, other)

/-- `append_graft`, which packs anew where a graft is not supported. -/
def appendGraft (layout : NodeLayout) (tree other : RawBTree K V) : Result (RawBTree K V × RawBTree K V) :=
  if other.len = 0 then .ok (tree, other)
  else if tree.len = 0 then .ok (other, tree)
  else do
    match ← tree.appendGraftDisjoint layout other with
    | some grafted => pure grafted
    | none => tree.appendDrain layout other

/-- `unwrap` on the entry of a tree that is not empty. -/
def unwrapEntry : Option (K × V) → Result (K × V)
  | some entry => .ok entry
  | none => .error .noNode

/-- The tree with the entries of both, and what is left of the other one. -/
def append (layout : NodeLayout) (tree other : RawBTree K V) : Result (RawBTree K V × RawBTree K V) :=
  if other.len = 0 then .ok (tree, other)
  else if tree.len = 0 then .ok (other, tree)
  else do
    let selfMax ← unwrapEntry (← tree.lastKeyValue)
    let otherMin ← unwrapEntry (← other.firstKeyValue)
    if selfMax.1 < otherMin.1 then tree.appendGraft layout other
    else do
      let selfMin ← unwrapEntry (← tree.firstKeyValue)
      let otherMax ← unwrapEntry (← other.lastKeyValue)
      -- the trees are swapped first, so the lower one is grafted onto
      if otherMax.1 < selfMin.1 then other.appendGraft layout tree
      else tree.appendDrain layout other

end Merge

end RawBTree

end Optimap.FlatBTree
