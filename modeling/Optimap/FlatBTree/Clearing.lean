import Optimap.FlatBTree.Deletion

/-!
# Clearing

`clear` visits every leaf along the chain and every separator down the levels, so
that each key object of the tree is dropped exactly once.
-/

set_option autoImplicit false
set_option linter.unusedSectionVars false

namespace Optimap.FlatBTree

open Lib

variable {K V : Type}

section Visits
variable {tree : RawBTree K V}

theorem leafChain_threads {link : Node K V → Option NodeIdx} {cells : List NodeIdx}
    (threads : Threads (fun idx => link (tree.node idx)) cells) {fuel : Nat} (enough : cells.length ≤ fuel) :
    tree.leafChain link fuel cells.head? = .ok cells := by
  induction cells generalizing fuel with
  | nil => cases fuel <;> rfl
  | cons cell cells ih =>
      obtain ⟨fuel, rfl⟩ : ∃ less, fuel = less + 1 := ⟨fuel - 1, by simp only [List.length_cons] at enough; omega⟩
      obtain ⟨forward, rest⟩ := threads
      simp only at forward
      rw [List.head?_cons, RawBTree.leafChain, forward, ih rest (by simpa using enough)]
      rfl

/-- The separators of a row whose nodes are replaced by further rows. -/
theorem seps_row_flatMap {below : NodeIdx → List (LevelItem K)} {children : List NodeIdx}
    {keys : List (KeyObj K)} (paired : children.length = keys.length + 1) :
    (Item.seps ((Item.row children keys).flatMap fun
      | .node idx => below idx
      | .sep key => [.sep key])).Perm (keys ++ children.flatMap fun child => Item.seps (below child)) := by
  cases children with
  | nil => simp at paired
  | cons child children =>
      simp only [List.length_cons, Nat.add_right_cancel_iff] at paired
      simp only [Item.row, List.flatMap_cons, Item.seps_append]
      have trail : (Item.seps ((Item.trail keys children).flatMap fun
          | .node idx => below idx
          | .sep key => [.sep key])).Perm (keys ++ children.flatMap fun child => Item.seps (below child)) := by
        induction keys generalizing children with
        | nil =>
            obtain rfl := List.length_eq_zero_iff.mp paired
            exact List.Perm.refl _
        | cons key keys ih =>
            cases children with
            | nil => simp at paired
            | cons next children =>
                simp only [List.length_cons, Nat.add_right_cancel_iff] at paired
                simp only [Item.trail, List.flatMap_cons, Item.seps_append, Item.seps_sep,
                  List.cons_append, List.nil_append]
                refine List.Perm.cons key (((ih children paired).append_left _).trans ?_)
                rw [← List.append_assoc, ← List.append_assoc]
                exact List.perm_append_comm.append_right _
      refine (trail.append_left _).trans ?_
      rw [← List.append_assoc, ← List.append_assoc]
      exact List.perm_append_comm.append_right _

theorem mapM_ok {α β : Type} {f : α → Result β} {g : α → β → Prop} {values : List α}
    (each : ∀ value ∈ values, ∃ result, f value = .ok result ∧ g value result) :
    ∃ results, values.mapM f = .ok results ∧ List.Forall₂ g values results := by
  induction values with
  | nil => exact ⟨[], rfl, .nil⟩
  | cons value values ih =>
      obtain ⟨result, found, good⟩ := each value List.mem_cons_self
      obtain ⟨results, rest, goods⟩ := ih fun other member => each other (List.mem_cons_of_mem _ member)
      refine ⟨result :: results, ?_, .cons good goods⟩
      rw [List.mapM_cons, found]
      simp only [bind, Except.bind, rest]
      rfl

theorem flatten_perm {children : List NodeIdx} {lists : List (List (KeyObj K))}
    {below : NodeIdx → List (KeyObj K)}
    (each : List.Forall₂ (fun child list => list.Perm (below child)) children lists) :
    lists.flatten.Perm (children.flatMap below) := by
  induction each with
  | nil => exact List.Perm.refl _
  | cons first _ ih =>
      rw [List.flatten_cons, List.flatMap_cons]
      exact first.append ih

/-- `drop_internal_keys` finds every separator once. -/
theorem internalKeys_perm (steps : Nat) (idx : NodeIdx)
    (internal : ∀ depth < steps, ∀ other ∈ Item.nodes (level tree.node idx depth),
      (tree.node other).isLeaf = false ∧
        (tree.node other).children.length = (tree.node other).keys.length + 1)
    (leaves : ∀ other ∈ Item.nodes (level tree.node idx steps), (tree.node other).isLeaf = true) :
    ∃ keys, tree.internalKeys steps idx = .ok keys ∧ keys.Perm (Item.seps (level tree.node idx steps)) := by
  induction steps generalizing idx with
  | zero =>
      have leaf := leaves idx (by simp [level])
      refine ⟨[], ?_, List.Perm.refl _⟩
      unfold RawBTree.internalKeys
      rw [if_pos leaf]
  | succ steps ih =>
      obtain ⟨notLeaf, paired⟩ := internal 0 (by omega) idx (by simp [level])
      have below : ∀ depth, level tree.node idx (1 + depth) =
          (Item.row (tree.node idx).children (tree.node idx).keys).flatMap (sublevel tree.node depth) := by
        intro depth
        rw [level_add]
        simp [level, expand]
      have inside : ∀ depth, ∀ child ∈ (tree.node idx).children,
          ∀ other ∈ Item.nodes (level tree.node child depth),
            other ∈ Item.nodes (level tree.node idx (depth + 1)) := by
        intro depth child isChild other member
        rw [Nat.add_comm, below, Item.mem_nodes, List.mem_flatMap]
        refine ⟨.node child, Item.mem_nodes.mp ?_, Item.mem_nodes.mp member⟩
        rw [Item.nodes_row paired]
        exact isChild
      obtain ⟨lists, visited, perms⟩ := mapM_ok fun child isChild => ih child
        (fun depth lower other member => internal (depth + 1) (by omega) other
          (inside depth child isChild other member))
        fun other member => leaves other (inside steps child isChild other member)
      refine ⟨(tree.node idx).keys ++ lists.flatten, ?_, ?_⟩
      · unfold RawBTree.internalKeys
        simp only [notLeaf, Bool.false_eq_true, if_false, visited, bind, Except.bind, pure, Except.pure]
      · rw [Nat.add_comm, below]
        refine ((flatten_perm perms).append_left _).trans ?_
        have rows := @seps_row_flatMap _ (fun child => level tree.node child steps) _ _ paired
        refine List.Perm.trans rows.symm ?_
        refine List.Perm.of_eq (congrArg Item.seps (List.flatMap_congr fun item _ => ?_))
        cases item <;> rfl

end Visits

section Drops
variable {tree : RawBTree K V}

theorem dropAll_ledger (objects : List (KeyObj K)) (tree : RawBTree K V) :
    tree.dropAll objects = { tree with ledger := ⟨tree.ledger.nextId,
      (objects.map KeyObj.id).reverse ++ tree.ledger.dropped⟩ } := by
  induction objects generalizing tree with
  | nil => rfl
  | cons object objects ih =>
      have step : tree.dropAll (object :: objects) = (tree.drop object).dropAll objects := rfl
      rw [step, ih]
      simp [RawBTree.drop]

theorem objectIds_marks (heap : Heap K V) (items : List (LevelItem K)) :
    (objectIds (marks heap items)).Perm
      ((((Item.nodes items).flatMap fun leaf => (heap leaf).entries.map Prod.fst).map KeyObj.id) ++
        (Item.seps items).map KeyObj.id) := by
  induction items with
  | nil => exact List.Perm.refl _
  | cons item items ih =>
      cases item with
      | sep key =>
          refine (List.Perm.cons key.id ih).trans ?_
          exact List.perm_middle.symm
      | node idx =>
          simp only [marks_node, objectIds_append, Item.nodes_node, Item.seps_node, List.flatMap_cons,
            List.map_append, List.append_assoc]
          refine List.Perm.append (List.Perm.of_eq ?_) ih
          simp [objectIds]

theorem Ledger.Tracks.dropAll {ledger : Ledger} {ids gone : List Nat} (tracks : ledger.Tracks ids)
    (same : gone.Perm ids) : Ledger.Tracks ⟨ledger.nextId, gone.reverse ++ ledger.dropped⟩ [] := by
  have moved : ([] ++ (gone.reverse ++ ledger.dropped)).Perm (ids ++ ledger.dropped) :=
    ((List.reverse_perm gone).trans same).append_right _
  exact ⟨moved.nodup_iff.mpr tracks.nodup, fun id member => tracks.bounded id (moved.mem_iff.mp member)⟩

end Drops

variable [LinearOrder K] {layout : NodeLayout} {tree : RawBTree K V} {held : List (Mark K V)}

theorem Holds.clear (holds : Holds layout tree held) :
    ∃ tree', tree.clear = .ok tree' ∧ Vacant tree' ∧
      (tree.ledger.Tracks (objectIds held) → tree'.ledger.Tracks []) := by
  have vacant : ∀ ledger, Vacant (⟨⟨tree.arena.nodes, 0, []⟩, none, none, none, 0, 0, ledger⟩ : RawBTree K V) :=
    fun ledger => ⟨rfl, rfl, rfl, rfl, rfl, List.nodup_nil, by simp⟩
  cases holds with
  | vacant empty =>
      refine ⟨_, ?_, vacant tree.ledger, fun tracks => tracks⟩
      simp only [RawBTree.clear, RawBTree.dropAllContents, empty.root, bind, Except.bind]
      rfl
  | @rooted root items rooted =>
      have chain := leafChain_threads rooted.row.linked.threads_next rooted.length_le
      rw [← rooted.row.first] at chain
      obtain ⟨separators, visited, perm⟩ := internalKeys_perm tree.height root
        (fun depth lower other member =>
          ⟨(rooted.crownAt.crown.internal_at lower member).internal,
            (rooted.crownAt.crown.internal_at lower member).paired⟩)
        (by rw [rooted.crownAt.level_eq]; exact rooted.row.leaf)
      rw [rooted.crownAt.level_eq] at perm
      refine ⟨_, ?_, vacant ⟨tree.ledger.nextId, (separators.map KeyObj.id).reverse ++
        ((((Item.nodes items).flatMap fun leaf => (tree.node leaf).entries.map Prod.fst).map
          KeyObj.id).reverse ++ tree.ledger.dropped)⟩, fun tracks => ?_⟩
      · simp only [RawBTree.clear, RawBTree.dropAllContents, rooted.crownAt.root_eq, chain, visited, bind,
          Except.bind, pure, Except.pure, dropAll_ledger]
      · have all := (List.Perm.append_left (((Item.nodes items).flatMap fun leaf =>
          (tree.node leaf).entries.map Prod.fst).map KeyObj.id) (perm.map KeyObj.id)).trans
            (objectIds_marks tree.node items).symm
        have dropped := tracks.dropAll all
        rw [List.reverse_append, List.append_assoc] at dropped
        exact dropped

end Optimap.FlatBTree
