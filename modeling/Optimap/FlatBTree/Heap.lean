import Optimap.FlatBTree.Levels

/-!
# What heap updates leave alone

Reading a node back after each elementary update, and the ownership of nodes: no
node is held twice, nor held and free.
-/

set_option autoImplicit false
set_option linter.unusedSectionVars false

namespace Optimap.FlatBTree

open Lib

variable {K V : Type}

/-- The listed nodes are allocated, pairwise distinct and not on the free list. -/
structure Owned (arena : Arena K V) (idxs : List NodeIdx) : Prop where
  nodup : (idxs ++ arena.free).Nodup
  bounded : ∀ idx ∈ idxs ++ arena.free, idx < arena.len

namespace Owned

variable {arena : Arena K V} {idxs others : List NodeIdx} {idx : NodeIdx}

theorem perm (owned : Owned arena idxs) (same : others.Perm idxs) : Owned arena others := by
  have full : (others ++ arena.free).Perm (idxs ++ arena.free) := same.append_right _
  exact ⟨full.nodup_iff.mpr owned.nodup, fun idx member => owned.bounded idx (full.mem_iff.mp member)⟩

theorem nodup_idxs (owned : Owned arena idxs) : idxs.Nodup := (List.nodup_append.mp owned.nodup).1

theorem sublist (owned : Owned arena idxs) (fewer : others.Sublist idxs) : Owned arena others := by
  have full := fewer.append_right arena.free
  exact ⟨owned.nodup.sublist full, fun idx member => owned.bounded idx (full.subset member)⟩

theorem free (owned : Owned arena (idx :: idxs)) : Owned (arena.freeNode idx) idxs := by
  have moved : (idxs ++ idx :: arena.free).Perm (idx :: idxs ++ arena.free) := List.perm_middle
  exact ⟨moved.nodup_iff.mpr owned.nodup, fun other member => owned.bounded other (moved.mem_iff.mp member)⟩

theorem alloc (owned : Owned arena idxs) :
    Owned arena.allocNode.2 (arena.allocNode.1 :: idxs) ∧
      ∀ other, other ≠ arena.allocNode.1 → arena.allocNode.2.nodes other = arena.nodes other := by
  cases freeList : arena.free with
  | nil =>
      simp only [Arena.allocNode, freeList]
      have bounded : ∀ other ∈ idxs, other < arena.len :=
        fun other member => owned.bounded other (List.mem_append_left _ member)
      refine ⟨⟨?_, ?_⟩, fun _ _ => trivial⟩
      · simp only [List.append_nil, List.nodup_cons]
        exact ⟨fun member => absurd (bounded _ member) (lt_irrefl _), owned.nodup_idxs⟩
      · simp only [List.append_nil, List.mem_cons]
        rintro other (rfl | member)
        · exact Nat.lt_succ_self _
        · exact Nat.lt_succ_of_lt (bounded other member)
  | cons head rest =>
      simp only [Arena.allocNode, freeList]
      have moved : (head :: idxs ++ rest).Perm (idxs ++ arena.free) := by
        rw [freeList]
        exact List.perm_middle.symm
      refine ⟨⟨?_, ?_⟩, ?_⟩
      · exact moved.nodup_iff.mpr owned.nodup
      · exact fun other member => owned.bounded other (moved.mem_iff.mp member)
      · intro other different
        simp [Arena.modify, different]

theorem length_le (owned : Owned arena idxs) : idxs.length ≤ arena.len := by
  have inside : idxs.toFinset ⊆ Finset.range arena.len := by
    intro idx member
    exact Finset.mem_range.mpr (owned.bounded idx (List.mem_append_left _ (List.mem_toFinset.mp member)))
  have card := Finset.card_le_card inside
  rwa [List.toFinset_card_of_nodup owned.nodup_idxs, Finset.card_range] at card

/-- Ownership does not depend on what the nodes hold. -/
theorem of_same {arena' : Arena K V} (owned : Owned arena idxs) (sameFree : arena'.free = arena.free)
    (sameLen : arena'.len = arena.len) : Owned arena' idxs :=
  ⟨by rw [sameFree]; exact owned.nodup, by rw [sameFree, sameLen]; exact owned.bounded⟩

end Owned

namespace RawBTree

variable {tree : RawBTree K V} {idx other : NodeIdx}

theorem node_modify (change : Node K V → Node K V) :
    (tree.modify idx change).node other = if other = idx then change (tree.node idx) else tree.node other := by
  simp [modify, Arena.modify, node, Function.update_apply]

@[simp] theorem node_modify_self (change : Node K V → Node K V) :
    (tree.modify idx change).node idx = change (tree.node idx) := by
  simp [node_modify]

theorem node_modify_of_ne (change : Node K V → Node K V) (different : other ≠ idx) :
    (tree.modify idx change).node other = tree.node other := by
  simp [node_modify, different]

@[simp] theorem modify_root (change : Node K V → Node K V) : (tree.modify idx change).root = tree.root := rfl
@[simp] theorem modify_firstLeaf (change : Node K V → Node K V) :
    (tree.modify idx change).firstLeaf = tree.firstLeaf := rfl
@[simp] theorem modify_lastLeaf (change : Node K V → Node K V) :
    (tree.modify idx change).lastLeaf = tree.lastLeaf := rfl
@[simp] theorem modify_len (change : Node K V → Node K V) : (tree.modify idx change).len = tree.len := rfl
@[simp] theorem modify_height (change : Node K V → Node K V) :
    (tree.modify idx change).height = tree.height := rfl
@[simp] theorem modify_ledger (change : Node K V → Node K V) :
    (tree.modify idx change).ledger = tree.ledger := rfl
@[simp] theorem modify_free (change : Node K V → Node K V) :
    (tree.modify idx change).arena.free = tree.arena.free := rfl
@[simp] theorem modify_arena_len (change : Node K V → Node K V) :
    (tree.modify idx change).arena.len = tree.arena.len := rfl

/-- Two trees that differ in the nodes of their arenas at most. -/
structure SameFrame (tree tree' : RawBTree K V) : Prop where
  free : tree'.arena.free = tree.arena.free
  arenaLen : tree'.arena.len = tree.arena.len
  root : tree'.root = tree.root
  firstLeaf : tree'.firstLeaf = tree.firstLeaf
  lastLeaf : tree'.lastLeaf = tree.lastLeaf
  len : tree'.len = tree.len
  height : tree'.height = tree.height
  ledger : tree'.ledger = tree.ledger

namespace SameFrame

theorem refl (tree : RawBTree K V) : SameFrame tree tree := ⟨rfl, rfl, rfl, rfl, rfl, rfl, rfl, rfl⟩

theorem modify (tree : RawBTree K V) (idx : NodeIdx) (change : Node K V → Node K V) :
    SameFrame tree (tree.modify idx change) := ⟨rfl, rfl, rfl, rfl, rfl, rfl, rfl, rfl⟩

theorem trans {first second third : RawBTree K V} (left : SameFrame first second)
    (right : SameFrame second third) : SameFrame first third :=
  ⟨right.free.trans left.free, right.arenaLen.trans left.arenaLen, right.root.trans left.root,
    right.firstLeaf.trans left.firstLeaf, right.lastLeaf.trans left.lastLeaf, right.len.trans left.len,
    right.height.trans left.height, right.ledger.trans left.ledger⟩

end SameFrame

theorem setParents_sameFrame (parent : Option NodeIdx) (idxs : List NodeIdx) (tree : RawBTree K V) :
    SameFrame tree (tree.setParents parent idxs) := by
  induction idxs generalizing tree with
  | nil => exact .refl tree
  | cons idx idxs ih => exact (SameFrame.modify tree idx _).trans (ih (tree.setParent parent idx))

theorem node_setParents {parent : Option NodeIdx} {idxs : List NodeIdx} {tree : RawBTree K V} :
    (tree.setParents parent idxs).node other =
      if other ∈ idxs then { tree.node other with parent := parent } else tree.node other := by
  induction idxs generalizing tree with
  | nil => simp [setParents]
  | cons idx idxs ih =>
      have step : (tree.setParents parent (idx :: idxs)) = (tree.setParent parent idx).setParents parent idxs := rfl
      rw [step, ih]
      by_cases same : other = idx
      · subst same
        by_cases member : other ∈ idxs <;> simp [setParent, member]
      · simp [setParent, node_modify_of_ne _ same, same]

end RawBTree

namespace Node

/-- A node with its parent pointer left out. -/
def payload (node : Node K V) : Node K V := { node with parent := none }

section SamePayload
variable {node node' : Node K V} (same : node'.payload = node.payload)
include same

theorem isLeaf_of_payload : node'.isLeaf = node.isLeaf := by
  simpa [payload] using congrArg Node.isLeaf same

theorem entries_of_payload : node'.entries = node.entries := by
  simpa [payload] using congrArg Node.entries same

theorem prev_of_payload : node'.prev = node.prev := by
  simpa [payload] using congrArg Node.prev same

theorem next_of_payload : node'.next = node.next := by
  simpa [payload] using congrArg Node.next same

theorem keys_of_payload : node'.keys = node.keys := by
  simpa [payload] using congrArg Node.keys same

theorem children_of_payload : node'.children = node.children := by
  simpa [payload] using congrArg Node.children same

end SamePayload

end Node

end Optimap.FlatBTree
