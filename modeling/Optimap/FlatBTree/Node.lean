import Mathlib.Logic.Function.Basic
import Mathlib.Tactic

/-!
# Nodes and the arena

Nodes are 256-byte blocks of one arena, named by their index. A leaf keeps its
keys and values side by side with links to its neighbours; an internal node has
one child more than keys. Key objects carry an identity, so that moving, cloning
and dropping them can be told apart.
-/

set_option autoImplicit false

namespace Optimap.FlatBTree

/-- `LEAF_CAP` and `INTERNAL_CAP`, under the compile-time assertions on them. -/
structure NodeLayout where
  leafCap : Nat
  internalCap : Nat
  leafCap_pos : 1 ≤ leafCap
  internalCap_two : 2 ≤ internalCap

/-- An index into the arena; `NO_NODE` is `none`. -/
abbrev NodeIdx := Nat

/-- A key in memory. A clone is a new object under the same key. -/
structure KeyObj (K : Type) where
  key : K
  id : Nat
  deriving DecidableEq

structure Node (K V : Type) where
  isLeaf : Bool
  parent : Option NodeIdx
  /-- The live key and value slots of a leaf. -/
  entries : List (KeyObj K × V)
  /-- What the first key slot of a leaf holds in memory, live or not. -/
  slot0 : Option (KeyObj K)
  prev : Option NodeIdx
  next : Option NodeIdx
  /-- The live key slots of an internal node. -/
  keys : List (KeyObj K)
  children : List NodeIdx

namespace Node

variable {K V : Type}

/-- A block of zero bytes. -/
def zeroed : Node K V where
  isLeaf := false
  parent := some 0
  entries := []
  slot0 := none
  prev := some 0
  next := some 0
  keys := []
  children := []

/-- Writing the live slots of a leaf. An emptied leaf keeps the bytes of its
first slot. -/
def setEntries (node : Node K V) (entries : List (KeyObj K × V)) : Node K V :=
  { node with entries := entries, slot0 := (entries.head?.map Prod.fst).or node.slot0 }

end Node

structure Arena (K V : Type) where
  nodes : NodeIdx → Node K V
  /-- High-water mark: the next fresh slot. -/
  len : Nat
  /-- The free list, its head first. -/
  free : List NodeIdx

namespace Arena

variable {K V : Type}

def new : Arena K V := ⟨fun _ => .zeroed, 0, []⟩

def modify (arena : Arena K V) (idx : NodeIdx) (change : Node K V → Node K V) : Arena K V :=
  { arena with nodes := Function.update arena.nodes idx (change (arena.nodes idx)) }

/-- A node from the free list is zeroed. A fresh one is taken as it is: zero from
the allocator, or what was there before a `clear`. -/
def allocNode (arena : Arena K V) : NodeIdx × Arena K V :=
  match arena.free with
  | idx :: free => (idx, { arena.modify idx fun _ => .zeroed with free := free })
  | [] => (arena.len, { arena with len := arena.len + 1 })

def freeNode (arena : Arena K V) (idx : NodeIdx) : Arena K V :=
  { arena with free := idx :: arena.free }

end Arena

/-- What stops a tree operation. -/
inductive Fault where
  /-- `child_pos - 1` at `child_pos = 0`. -/
  | childPosUnderflow
  /-- A slot beyond the live ones is read. -/
  | deadSlot
  /-- `NO_NODE` is dereferenced. -/
  | noNode
  /-- Links lead on for longer than the tree has levels or nodes. -/
  | endless
  deriving DecidableEq

abbrev Result (α : Type) := Except Fault α

def readSlot {α : Type} (slots : List α) (idx : Nat) : Result α :=
  match slots[idx]? with
  | some value => .ok value
  | none => .error .deadSlot

def deref : Option NodeIdx → Result NodeIdx
  | some idx => .ok idx
  | none => .error .noNode

/-- `child_pos - 1`. -/
def childPosPred : Nat → Result Nat
  | 0 => .error .childPosUnderflow
  | childPos + 1 => .ok childPos

/-- The identities handed out and those whose object has been dropped, latest first. -/
structure Ledger where
  nextId : Nat
  dropped : List Nat

end Optimap.FlatBTree
