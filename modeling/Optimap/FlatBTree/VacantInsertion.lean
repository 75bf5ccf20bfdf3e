import Optimap.FlatBTree.Ownership

/-!
# Insertion through a vacant entry

`insert` takes one of two fast paths or records its way down; a vacant entry keeps the
leaf and the position only and finds the way up again by parent pointers. Both build
the same tree, node for node.
-/

set_option autoImplicit false
set_option linter.unusedSectionVars false

namespace Optimap.FlatBTree

open Lib

variable {K V : Type}

/-! ## The way up -/

/-- By induction on the levels above the split: the parent pointer leads to the parent
that was recorded, and the child is found in the slot that was recorded. -/
theorem propagateSplitLazy_eq {layout : NodeLayout} {tree : RawBTree K V} {root child sibling : NodeIdx}
    {depth fuel : Nat} {left right : List (LevelItem K)} {rest : List NodeIdx} {path : PathBuf} (key : KeyObj K)
    (crownAt : CrownAt layout tree root depth (left ++ .node child :: right) (sibling :: rest))
    (leads : PathTo tree.node root depth child path) (enough : depth ≤ fuel)
    (adopted : (tree.node sibling).parent = (tree.node child).parent) :
    RawBTree.propagateSplitLazy layout fuel child key sibling tree =
      RawBTree.propagateSplit layout path key sibling tree := by
  induction depth generalizing tree child sibling left right rest fuel path key with
  | zero =>
      obtain rfl : path = [] := leads
      have isRoot : child = root := by
        have single := crownAt.level_eq
        cases left with
        | nil => simp_all [level]
        | cons head left => simp [level] at single
      subst isRoot
      have orphan : (tree.node child).parent = none := crownAt.crown
      unfold RawBTree.propagateSplitLazy
      simp only [orphan, RawBTree.propagateSplit, crownAt.root_eq, deref, bind, Except.bind]
  | succ depth ih =>
      obtain ⟨fuel, rfl⟩ : ∃ less, fuel = less + 1 := ⟨fuel - 1, by omega⟩
      obtain ⟨place⟩ := crownAt.crown.locate crownAt.level_eq
      have parentEq := place.parent_eq crownAt.crown
      have slot : tree.childSlot place.parent child ((tree.node place.parent).keys.length + 1) =
          place.before.length :=
        childSlot_place _ place (place.child_notMem crownAt.crown crownAt.nodes_nodup).1
      obtain ⟨upper, rfl, leadsUp⟩ := leads.head_eq crownAt.crown crownAt.nodes_nodup place
      rw [parentEq] at adopted
      unfold RawBTree.propagateSplitLazy
      simp only [parentEq, slot, RawBTree.propagateSplit]
      by_cases room : (tree.node place.parent).keys.length < layout.internalCap
      · simp only [if_pos room]
      · obtain ⟨promoted, fresh, middle, returned, base, adoptedUp, _, _, upperSame, _⟩ :=
          internalSplitAndInsert_spec key crownAt place room adopted
        simp only [if_neg room, returned, bind, Except.bind]
        exact ih promoted base (leadsUp.congr upperSame) (by omega) adoptedUp

variable [LinearOrder K] {layout : NodeLayout} {tree : RawBTree K V} {root leaf : NodeIdx}
  {items left right : List (LevelItem K)} {below above : List (KeyObj K × V)} {held : List (Mark K V)}

/-- In a gap both insertions build one tree, and the vacant entry is told where its key
and value ended up, whichever half of a split leaf that is. -/
theorem insertAtVacant_eq {key : KeyObj K} {value : V} (rooted : Rooted layout tree root items)
    (gap : Gap tree items key.key left leaf right below above) :
    ∃ leaf' slot tree', tree.insertAtVacant layout leaf below.length key value = .ok (leaf', slot, tree') ∧
      (tree'.node leaf').entries[slot]? = some (key, value) ∧
      ∀ path, PathTo tree.node root tree.height leaf path →
        tree.insertInLeaf layout leaf below.length key value (.ok path) = .ok tree' := by
  obtain ⟨leaf', slot, tree', held, returned, placed, _⟩ :=
    @insertAtVacant_inserted _ _ _ _ _ _ _ _ _ _ _ _ key value rooted gap
  refine ⟨leaf', slot, tree', returned, placed, fun path leads => ?_⟩
  by_cases room : (tree.node leaf).entries.length < layout.leafCap
  · rw [RawBTree.insertAtVacant, if_pos room] at returned
    rw [RawBTree.insertInLeaf, if_pos room]
    cases returned
    rfl
  · obtain ⟨middle, separator, fresh, lower, upper, divided, cut, _⟩ :=
      @leafSplitAndInsert_cut _ _ _ _ _ _ _ _ _ _ _ _ _ value rooted gap room
    have leadsCut := leads.congr cut.upper_same
    rw [← cut.height] at leadsCut
    have sameWay := propagateSplitLazy_eq separator cut.crownAt leadsCut le_rfl cut.adopted
    rw [RawBTree.insertAtVacant, if_neg room] at returned
    rw [RawBTree.insertInLeaf, if_neg room]
    simp only [divided, bind, Except.bind] at returned ⊢
    simp only at sameWay
    rw [sameWay] at returned
    cases propagated : RawBTree.propagateSplit layout path separator fresh { middle with len := middle.len + 1 } with
    | error fault => simp [propagated] at returned
    | ok final =>
        simp only [propagated, pure, Except.pure, Except.ok.injEq] at returned
        split at returned <;> cases returned <;> rfl

/-! ## The fast paths -/

/-- A key above the last entry of the last leaf is led to the end of that leaf. -/
theorem Gap.at_end {key : K} {front : List (LevelItem K)} {last : NodeIdx} {entry : KeyObj K × V}
    (rooted : Rooted layout tree root items) (gap : Gap tree items key left leaf right below above)
    (split : items = front ++ [.node last]) (isLast : (tree.node last).entries.getLast? = some entry)
    (larger : entry.1.key < key) : leaf = last ∧ below.length = (tree.node last).entries.length := by
  have ends : (Item.nodes items).getLast? = some last := by
    rw [split]
    simp
  have sameLeaf : leaf = last := by
    rw [gap.split, Item.nodes_append, Item.nodes_node] at ends
    cases nodesRight : Item.nodes right using List.reverseRecOn with
    | nil =>
        rw [nodesRight] at ends
        simpa using ends
    | append_singleton others final =>
        rw [nodesRight, ← List.cons_append, ← List.append_assoc, List.getLast?_concat] at ends
        cases ends
        have stored : (.node entry : Mark K V) ∈ marks tree.node right := by
          rw [← Item.mem_nodes, nodes_marks]
          exact List.mem_flatMap.mpr ⟨last, by simp [nodesRight], List.mem_of_getLast? isLast⟩
        have beyond : key < entry.1.key := gap.upper _ (List.mem_append_right _ stored)
        exact absurd larger beyond.not_gt
  subst sameLeaf
  exact ⟨rfl, gap.insertSlot_eq.1.symm.trans (rooted.gap_last split isLast larger).insertSlot_eq.1⟩

/-- A key below the first entry of the first leaf is led to the start of that leaf. -/
theorem Gap.at_start {key : K} {back : List (LevelItem K)} {first : NodeIdx} {entry : KeyObj K × V}
    (rooted : Rooted layout tree root items) (gap : Gap tree items key left leaf right below above)
    (split : items = .node first :: back) (isFirst : (tree.node first).entries.head? = some entry)
    (smaller : key < entry.1.key) : leaf = first ∧ below.length = 0 := by
  have starts : (Item.nodes items).head? = some first := by
    rw [split]
    simp
  have sameLeaf : leaf = first := by
    rw [gap.split, Item.nodes_append, Item.nodes_node] at starts
    cases nodesLeft : Item.nodes left with
    | nil =>
        rw [nodesLeft] at starts
        simpa using starts
    | cons initial others =>
        rw [nodesLeft, List.cons_append, List.head?_cons] at starts
        cases starts
        have stored : (.node entry : Mark K V) ∈ marks tree.node left := by
          rw [← Item.mem_nodes, nodes_marks]
          exact List.mem_flatMap.mpr ⟨first, by simp [nodesLeft], List.mem_of_head? isFirst⟩
        have before : entry.1.key < key := gap.lower _ (List.mem_append_left _ stored)
        exact absurd smaller before.not_gt
  subst sameLeaf
  exact ⟨rfl, gap.insertSlot_eq.1.symm.trans (rooted.gap_first split isFirst smaller).insertSlot_eq.1⟩

/-! ## Both insertions of a missing key -/

/-- `entry(key).or_insert(value)` on a missing key: where the vacant entry stands, and where
its key and value end up. -/
inductive VacantInserted (layout : NodeLayout) (tree : RawBTree K V) (object : KeyObj K) (value : V)
    (tree' : RawBTree K V) : Prop where
  /-- `insert_first_leaf`. -/
  | first {leaf : NodeIdx} (located : tree.entrySearch object.key = .ok .emptyTree)
      (inserted : tree.insertFirst object value = tree') (firstLeaf : tree'.firstLeaf = some leaf)
      (stored : (tree'.node leaf).entries[0]? = some (object, value))
  /-- `insert_at_vacant`, and what is in the slot it returns. -/
  | located {leaf leaf' : NodeIdx} {pos slot : Nat} (located : tree.entrySearch object.key = .ok (.vacant leaf pos))
      (inserted : tree.insertAtVacant layout leaf pos object value = .ok (leaf', slot, tree'))
      (stored : (tree'.node leaf').entries[slot]? = some (object, value))

theorem Rooted.vacant_insertion {key : K} {value : V} {object : KeyObj K} (rooted : Rooted layout tree root items)
    (named : object.key = key) (absent : lookupEntry key (contents (marks tree.node items)) = none) :
    ∃ tree', VacantInserted layout tree object value tree' ∧ ∀ last first, tree.lastLeaf = some last →
      tree.firstLeaf = some first → ∃ leaf pos path, tree.searchForInsert key root = .ok (leaf, pos, path) ∧
        (∀ other ∈ (tree.node leaf).entries[pos]?, other.1.key ≠ key) ∧
        tree.insertInLeaf layout leaf pos object value (.ok path) = .ok tree' ∧
        ((tree.node last).entries.getLast?.any (fun entry => decide (entry.1.key < key)) = true →
          tree.insertInLeaf layout last (tree.node last).entries.length object value
            (tree.pathToNode tree.height last) = .ok tree') ∧
        ((tree.node first).entries.head?.any (fun entry => decide (key < entry.1.key)) = true →
          tree.insertInLeaf layout first 0 object value (tree.pathToNode tree.height first) = .ok tree') := by
  obtain ⟨⟨first, back, firstSplit, firstEq⟩, front, last, lastSplit, lastEq⟩ := rooted.ends
  obtain ⟨leaf, path, left, right, landed, landing, leads⟩ := rooted.readable.descendPath key
  cases landing.cases rooted.readable with
  | inr found =>
      obtain ⟨below, entry, above, hit, rfl⟩ := found
      have present := lookupEntry_occupied entry.2 (hit.between rooted.readable)
      rw [hit.marks_eq, contents_append, contents_node, present] at absent
      cases absent
  | inl missing =>
      obtain ⟨below, above, gap⟩ := missing
      obtain ⟨slotEq, different⟩ := gap.insertSlot_eq
      have gapObject : Gap tree items object.key left leaf right below above := named ▸ gap
      obtain ⟨leaf', slot, tree', returned, placed, sameTree⟩ := @insertAtVacant_eq _ _ _ _ _ _ _ _ _ _ _ _ object value
        rooted gapObject
      have descended : tree.descend (RawBTree.scanAbove key) tree.height root = .ok leaf := by
        rw [@descend_eq_descendPath _ _ _ _ _ key [] fun _ => rfl, landed]
        rfl
      have located : tree.entrySearch object.key = .ok (.vacant leaf below.length) := by
        rw [named]
        simp only [RawBTree.entrySearch, rooted.crownAt.root_eq, RawBTree.searchForInsertNoPath, descended, bind,
          Except.bind, pure, Except.pure, slotEq]
        cases read : (tree.node leaf).entries[below.length]? with
        | none => rfl
        | some entry => simp only [if_neg (different entry read)]
      have byParents : ∃ found, tree.pathToNode tree.height leaf = .ok found ∧
          PathTo tree.node root tree.height leaf found :=
        pathToNode_leads rooted.crownAt (by rw [gap.split]; simp) le_rfl
      obtain ⟨found, foundEq, leadsFound⟩ := byParents
      refine ⟨tree', .located located returned placed, ?_⟩
      intro last' first' lastEq' firstEq'
      rw [lastEq] at lastEq'
      rw [firstEq] at firstEq'
      cases lastEq'
      cases firstEq'
      refine ⟨leaf, below.length, path, ?_, different, sameTree path leads, fun append => ?_, fun prepend => ?_⟩
      · simp only [RawBTree.searchForInsert, landed, bind, Except.bind, pure, Except.pure, slotEq]
      · obtain ⟨entry, isLast, larger⟩ := (Option.any_eq_true _ _).mp append
        obtain ⟨sameLeaf, sameSlot⟩ := gap.at_end rooted lastSplit isLast (of_decide_eq_true larger)
        rw [← sameSlot, ← sameLeaf, foundEq]
        exact sameTree found leadsFound
      · obtain ⟨entry, isFirst, smaller⟩ := (Option.any_eq_true _ _).mp prepend
        obtain ⟨sameLeaf, sameSlot⟩ := gap.at_start rooted firstSplit isFirst (of_decide_eq_true smaller)
        rw [← sameLeaf, foundEq]
        rw [sameSlot] at sameTree
        exact sameTree found leadsFound

theorem Rooted.insert_missing {key : K} {value : V} (rooted : Rooted layout tree root items)
    (absent : lookupEntry key (contents (marks tree.node items)) = none) :
    ∃ tree', tree.insert layout key value = .ok (none, tree') ∧
      VacantInserted layout (tree.own key).2 (tree.own key).1 value tree' := by
  set owning : RawBTree K V :=
    { tree with ledger := { tree.ledger with nextId := tree.ledger.nextId + 1 } } with owningDef
  have rooted' : Rooted layout owning root items := rooted.setLedger _
  have absent' : lookupEntry key (contents (marks owning.node items)) = none := absent
  obtain ⟨⟨first, _, _, firstEq⟩, _, last, _, lastEq⟩ := rooted'.ends
  obtain ⟨tree', vacant, insertions⟩ := @Rooted.vacant_insertion _ _ _ _ _ _ _ _ value ⟨key, tree.ledger.nextId⟩
    rooted' rfl absent'
  obtain ⟨leaf, pos, path, searched, different, plain, append, prepend⟩ := insertions last first lastEq firstEq
  refine ⟨tree', ?_, vacant⟩
  simp only [RawBTree.insert, RawBTree.own, ← owningDef, rooted'.crownAt.root_eq, lastEq, firstEq, deref, bind,
    Except.bind]
  by_cases above : (owning.node last).entries.getLast?.any fun entry => decide (entry.1.key < key)
  · simp only [if_pos above, append above]
    rfl
  by_cases below : (owning.node first).entries.head?.any fun entry => decide (key < entry.1.key)
  · simp only [if_neg above, if_pos below, prepend below]
    rfl
  simp only [if_neg above, if_neg below, searched]
  cases read : (owning.node leaf).entries[pos]? with
  | none =>
      simp only [plain]
      rfl
  | some entry =>
      simp only [if_neg (different entry read), plain]
      rfl

theorem VacantInserted.entryOrInsert {key : K} {value : V} {tree' : RawBTree K V}
    (vacant : VacantInserted layout (tree.own key).2 (tree.own key).1 value tree') :
    tree.entryOrInsert layout key value = .ok (value, tree') := by
  cases vacant with
  | first located inserted firstLeaf stored =>
      simp only [RawBTree.own] at located inserted
      simp only [RawBTree.entryOrInsert, RawBTree.own, located, inserted, firstLeaf, deref, readSlot, stored, bind,
        Except.bind]
      rfl
  | located located inserted stored =>
      simp only [RawBTree.own] at located inserted
      simp only [RawBTree.entryOrInsert, RawBTree.own, located, inserted, readSlot, stored, bind, Except.bind]
      rfl

/-- For every well-formed tree and missing key, `insert` and the vacant entry end in the same
tree, and the slot a vacant entry is given holds the key and the value. -/
theorem vacant_insert_builds_same_tree (holds : Holds layout tree held) {key : K} (absent : tree.get key = .ok none)
    (value : V) :
    ∃ tree', tree.insert layout key value = .ok (none, tree') ∧
      tree.entryOrInsert layout key value = .ok (value, tree') ∧
      VacantInserted layout (tree.own key).2 (tree.own key).1 value tree' := by
  rw [holds.get_eq key] at absent
  have missing := Except.ok.inj absent
  cases holds with
  | vacant empty =>
      obtain ⟨_, leaf, firstLeaf, stored⟩ := @insertFirst_inserted _ _ _ layout _
        (empty.setLedger { tree.ledger with nextId := tree.ledger.nextId + 1 }) ⟨key, tree.ledger.nextId⟩ value
      have vacant : VacantInserted layout (tree.own key).2 (tree.own key).1 value
          ((tree.own key).2.insertFirst (tree.own key).1 value) := by
        refine .first ?_ rfl firstLeaf ?_
        · simp only [RawBTree.entrySearch, RawBTree.own, empty.root]
        · rw [RawBTree.own, stored]
          rfl
      refine ⟨_, ?_, vacant.entryOrInsert, vacant⟩
      simp only [RawBTree.insert, RawBTree.own, empty.root]
      rfl
  | rooted rooted =>
      obtain ⟨tree', inserted, vacant⟩ := rooted.insert_missing missing
      exact ⟨tree', inserted, vacant.entryOrInsert, vacant⟩

/-- After eight ascending keys the ninth splits its leaf and both nodes above it. -/
theorem vacant_insert_splits_alike :
    ∃ replies tree tree', RawBTree.run tinyLayout (ascendingInserts 8) .new = .ok (replies, tree) ∧
      tree.insert tinyLayout 8 () = .ok (none, tree') ∧ tree.entryOrInsert tinyLayout 8 () = .ok ((), tree') := by
  have start : Holds tinyLayout (RawBTree.new : RawBTree Nat Unit) [] := .vacant new_vacant
  obtain ⟨tree, held, returned, holds, contentsEq⟩ := @Holds.run _ _ _ _ _ _ .empty start rfl (ascendingInserts 8)
  have absent : tree.get 8 = .ok none := by
    rw [holds.get_eq, contentsEq]
    exact congrArg Except.ok (by decide)
  obtain ⟨tree', inserted, entered, _⟩ := vacant_insert_builds_same_tree holds absent ()
  exact ⟨_, tree, tree', returned, inserted, entered⟩

end Optimap.FlatBTree
