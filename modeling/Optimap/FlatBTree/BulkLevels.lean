import Optimap.FlatBTree.BulkLoad
import Optimap.FlatBTree.Refinement

/-!
# Levels built from below

While it loads, the tree is a tower of rows of nodes, the topmost first. A row of
parents over the topmost one makes it a tower again; under a single root, the
levels of the tree are the rows of the tower.
-/

set_option autoImplicit false
set_option linter.unusedSectionVars false

namespace Optimap.FlatBTree

open Lib

variable {K V : Type} {layout : NodeLayout} {tree tree' : RawBTree K V}

/-- An internal node as `bulk_load` leaves it: possibly without a key. -/
structure LooseOk (layout : NodeLayout) (heap : Heap K V) (idx : NodeIdx) : Prop where
  internal : (heap idx).isLeaf = false
  paired : (heap idx).children.length = (heap idx).keys.length + 1
  fits : (heap idx).keys.length ≤ layout.internalCap
  parents : ∀ child ∈ (heap idx).children, (heap child).parent = some idx

theorem LooseOk.congr {heap heap' : Heap K V} {idx : NodeIdx} (old : LooseOk layout heap idx)
    (same : (heap' idx).payload = (heap idx).payload)
    (parents : ∀ child ∈ (heap idx).children, (heap' child).parent = (heap child).parent) :
    LooseOk layout heap' idx := by
  have sameKeys := Node.keys_of_payload same
  have sameChildren := Node.children_of_payload same
  refine ⟨?_, ?_, ?_, fun child isChild => ?_⟩
  · rw [Node.isLeaf_of_payload same]; exact old.internal
  · rw [sameChildren, sameKeys]; exact old.paired
  · rw [sameKeys]; exact old.fits
  · rw [sameChildren] at isChild
    rw [parents child isChild]
    exact old.parents child isChild

section Allocation

theorem ownAll_spec (keys : List K) (tree : RawBTree K V) :
    (tree.ownAll keys).1.map KeyObj.key = keys ∧
      ∃ ledger, (tree.ownAll keys).2 = { tree with ledger := ledger } := by
  induction keys generalizing tree with
  | nil => exact ⟨rfl, tree.ledger, rfl⟩
  | cons key keys ih =>
      obtain ⟨objects, ledger, rest⟩ := ih (tree.own key).2
      refine ⟨?_, ledger, ?_⟩
      · simp only [RawBTree.ownAll, List.map_cons, objects]
        rfl
      · simp only [RawBTree.ownAll, rest]
        rfl

theorem allocNode_fresh (fresh : tree.arena.free = []) :
    tree.allocNode = (tree.arena.len, { tree with arena := { tree.arena with len := tree.arena.len + 1 } }) := by
  simp [RawBTree.allocNode, Arena.allocNode, fresh]

end Allocation

section Parents

/-- A parent over a group of children. Each child comes with the least key below it. -/
structure Parented (layout : NodeLayout) (tree : RawBTree K V) (parent : NodeIdx × K)
    (group : List (NodeIdx × K)) : Prop where
  minKey : group.head?.map Prod.snd = some parent.2
  fits : group.length ≤ layout.internalCap + 1
  internal : (tree.node parent.1).isLeaf = false
  children_eq : (tree.node parent.1).children = group.map Prod.fst
  keys_eq : (tree.node parent.1).keys.map KeyObj.key = (group.map Prod.snd).tail
  adopted : ∀ child ∈ group.map Prod.fst, (tree.node child).parent = some parent.1

theorem Parented.congr {parent : NodeIdx × K} {group : List (NodeIdx × K)}
    (parented : Parented layout tree parent group)
    (payload : (tree'.node parent.1).payload = (tree.node parent.1).payload)
    (same : ∀ child ∈ group.map Prod.fst, (tree'.node child).parent = (tree.node child).parent) :
    Parented layout tree' parent group := by
  refine ⟨parented.minKey, parented.fits, ?_, ?_, ?_, fun child member => ?_⟩
  · rw [Node.isLeaf_of_payload payload]; exact parented.internal
  · rw [Node.children_of_payload payload]; exact parented.children_eq
  · rw [Node.keys_of_payload payload]; exact parented.keys_eq
  · rw [same child member]; exact parented.adopted child member

theorem Parented.group_ne_nil {parent : NodeIdx × K} {group : List (NodeIdx × K)}
    (parented : Parented layout tree parent group) : group ≠ [] := by
  rintro rfl
  have none := parented.minKey
  simp at none

theorem Parented.keys_length {parent : NodeIdx × K} {group : List (NodeIdx × K)}
    (parented : Parented layout tree parent group) :
    group.length = (tree.node parent.1).keys.length + 1 := by
  have lengths := congrArg List.length parented.keys_eq
  have nonempty := List.length_pos_iff.mpr parented.group_ne_nil
  simp only [List.length_map, List.length_tail] at lengths
  omega

theorem Parented.looseOk {parent : NodeIdx × K} {group : List (NodeIdx × K)}
    (parented : Parented layout tree parent group) : LooseOk layout tree.node parent.1 := by
  have length := parented.keys_length
  have fits := parented.fits
  refine ⟨parented.internal, ?_, by omega, fun child isChild => ?_⟩
  · rw [parented.children_eq, List.length_map]
    exact length
  · rw [parented.children_eq] at isChild
    exact parented.adopted child isChild

/-- A row of parents over a row of children. -/
def Over (layout : NodeLayout) (tree : RawBTree K V) (upper lower : List (NodeIdx × K)) : Prop :=
  ∃ groups : List (List (NodeIdx × K)), groups.flatten = lower ∧
    List.Forall₂ (Parented layout tree) upper groups

theorem Over.congr {upper lower : List (NodeIdx × K)} (stacked : Over layout tree upper lower)
    (payload : ∀ parent ∈ upper.map Prod.fst, (tree'.node parent).payload = (tree.node parent).payload)
    (same : ∀ child ∈ lower.map Prod.fst, (tree'.node child).parent = (tree.node child).parent) :
    Over layout tree' upper lower := by
  obtain ⟨groups, rfl, built⟩ := stacked
  refine ⟨groups, rfl, ?_⟩
  induction built with
  | nil => exact .nil
  | @cons parent group upper groups parented _ ih =>
      refine .cons (parented.congr (payload _ List.mem_cons_self) fun child member => same child ?_)
        (ih (fun other member => payload other (List.mem_cons_of_mem _ member))
          fun child member => same child ?_)
      · rw [List.flatten_cons, List.map_append]
        exact List.mem_append_left _ member
      · rw [List.flatten_cons, List.map_append]
        exact List.mem_append_right _ member

theorem Over.looseOk {upper lower : List (NodeIdx × K)} (stacked : Over layout tree upper lower) :
    ∀ parent ∈ upper.map Prod.fst, LooseOk layout tree.node parent := by
  obtain ⟨groups, flat, built⟩ := stacked
  clear flat
  induction built with
  | nil => simp
  | @cons parent group upper groups parented _ ih =>
      intro idx member
      rcases List.mem_cons.mp member with rfl | member
      · exact parented.looseOk
      · exact ih idx member

/-- The level below a row of parents is the row of their children. -/
theorem Over.expand_row {upper lower : List (NodeIdx × K)} (stacked : Over layout tree upper lower)
    {seps : List (KeyObj K)} (keys : seps.map KeyObj.key = (upper.map Prod.snd).tail) :
    ∃ seps', (Item.row (upper.map Prod.fst) seps).flatMap (expand tree.node) =
        Item.row (lower.map Prod.fst) seps' ∧ seps'.map KeyObj.key = (lower.map Prod.snd).tail := by
  obtain ⟨groups, rfl, built⟩ := stacked
  induction built generalizing seps with
  | nil => exact ⟨[], rfl, rfl⟩
  | @cons parent group upper groups parented built ih =>
      have opened : expand tree.node (.node parent.1) =
          Item.row (group.map Prod.fst) (tree.node parent.1).keys := by
        rw [expand, parented.children_eq]
      cases built with
      | nil =>
          refine ⟨(tree.node parent.1).keys, ?_, ?_⟩
          · obtain rfl : seps = [] := by simpa using keys
            simp [Item.row, Item.trail, opened]
          · simpa using parented.keys_eq
      | @cons second group' upper groups parented' built =>
          cases seps with
          | nil => simp at keys
          | cons sep seps =>
              have keysEq : sep.key = second.2 ∧ seps.map KeyObj.key = upper.map Prod.snd := by
                simpa using keys
              obtain ⟨seps', rest, restKeys⟩ := @ih seps keysEq.2
              have paired : (group.map Prod.fst).length = (tree.node parent.1).keys.length + 1 := by
                rw [List.length_map]
                exact parented.keys_length
              obtain ⟨head, tail, groupEq⟩ := List.exists_cons_of_ne_nil parented'.group_ne_nil
              have headKey : head.2 = second.2 := by
                have minKey := parented'.minKey
                rw [groupEq] at minKey
                simpa using minKey
              refine ⟨(tree.node parent.1).keys ++ sep :: seps', ?_, ?_⟩
              · rw [List.flatten_cons, List.map_append, Item.row_append_sep sep paired (by simp [groupEq]),
                  ← rest, ← opened]
                simp [Item.row, Item.trail, expand]
              · have nonempty : group.map Prod.snd ≠ [] := by simpa using parented.group_ne_nil
                rw [List.map_append, parented.keys_eq, List.map_cons, restKeys,
                  List.flatten_cons (l := group), List.map_append, List.tail_append_of_ne_nil nonempty]
                simp [groupEq, keysEq.1, headKey]

end Parents

section Loading

/-- `children.len().div_ceil(internal_cap + 1)`. -/
def parentCount (layout : NodeLayout) (n : Nat) : Nat := (n + layout.internalCap) / (layout.internalCap + 1)

/-- What building the parents of a row does. -/
structure LoadedParents (layout : NodeLayout) (tree tree' : RawBTree K V)
    (children parents : List (NodeIdx × K)) : Prop where
  stacked : Over layout tree' parents children
  orphans : ∀ parent ∈ parents.map Prod.fst, (tree'.node parent).parent = none
  fresh : ∀ parent ∈ parents.map Prod.fst, tree.arena.len ≤ parent ∧ parent < tree'.arena.len
  nodup : (parents.map Prod.fst).Nodup
  payload : ∀ idx < tree.arena.len, (tree'.node idx).payload = (tree.node idx).payload
  same : ∀ idx < tree.arena.len, idx ∉ children.map Prod.fst → tree'.node idx = tree.node idx
  free : tree'.arena.free = []
  len_le : tree.arena.len ≤ tree'.arena.len
  count : parents.length = parentCount layout children.length
  /-- A lone child is left when the full groups do not come out even. -/
  bare : (∃ parent ∈ parents.map Prod.fst, (tree'.node parent).keys = []) ↔
    children.length % (layout.internalCap + 1) = 1

theorem LoadedParents.none (fresh : tree.arena.free = []) : LoadedParents layout tree tree [] [] where
  stacked := ⟨[], rfl, .nil⟩
  orphans := by simp
  fresh := by simp
  nodup := List.nodup_nil
  payload := fun _ _ => rfl
  same := fun _ _ _ => rfl
  free := fresh
  len_le := le_rfl
  count := by
    rw [List.length_nil, parentCount, Nat.zero_add, Nat.div_eq_of_lt (by simp)]
  bare := by simp

/-- The first parent of a row. -/
theorem firstParent_spec (minKey : K) {child : NodeIdx} {group : List (NodeIdx × K)}
    (fresh : tree.arena.free = []) (old : ∀ idx ∈ child :: group.map Prod.fst, idx < tree.arena.len)
    (small : group.length ≤ layout.internalCap)
    (made : tree' = ((tree.allocNode.2.ownAll (group.map Prod.snd)).2.modify tree.allocNode.1 fun node =>
      { node with
        isLeaf := false
        parent := none
        keys := (tree.allocNode.2.ownAll (group.map Prod.snd)).1
        children := child :: group.map Prod.fst }).setParents (some tree.allocNode.1)
          (child :: group.map Prod.fst)) :
    Parented layout tree' (tree.arena.len, minKey) ((child, minKey) :: group) ∧
      (tree'.node tree.arena.len).parent = none ∧
      tree'.arena.free = [] ∧ tree'.arena.len = tree.arena.len + 1 ∧
      ∀ idx < tree.arena.len, tree'.node idx = if idx ∈ child :: group.map Prod.fst then
        { tree.node idx with parent := some tree.arena.len } else tree.node idx := by
  obtain ⟨keysEq, ledger, owned⟩ := ownAll_spec (group.map Prod.snd) tree.allocNode.2
  set objects := (tree.allocNode.2.ownAll (group.map Prod.snd)).1 with objectsDef
  rw [owned, allocNode_fresh fresh] at made
  have frame := made ▸ RawBTree.setParents_sameFrame (some tree.arena.len) (child :: group.map Prod.fst)
    (RawBTree.modify { tree with
      arena := { tree.arena with len := tree.arena.len + 1 }, ledger := ledger } tree.arena.len fun node =>
        { node with isLeaf := false, parent := none, keys := objects, children := child :: group.map Prod.fst })
  have node : ∀ idx, tree'.node idx = if idx ∈ child :: group.map Prod.fst then
      { (if idx = tree.arena.len then { tree.node idx with
          isLeaf := false, parent := none, keys := objects, children := child :: group.map Prod.fst }
        else tree.node idx) with parent := some tree.arena.len }
      else if idx = tree.arena.len then { tree.node idx with
          isLeaf := false, parent := none, keys := objects, children := child :: group.map Prod.fst }
        else tree.node idx := by
    intro idx
    rw [made, RawBTree.node_setParents, RawBTree.node_modify]
    by_cases isParent : idx = tree.arena.len
    · rw [if_pos isParent, if_pos isParent, isParent]
      rfl
    · rw [if_neg isParent, if_neg isParent]
      rfl
  have lower : ∀ idx < tree.arena.len, tree'.node idx = if idx ∈ child :: group.map Prod.fst then
      { tree.node idx with parent := some tree.arena.len } else tree.node idx := by
    intro idx bound
    rw [node idx, if_neg (Nat.ne_of_lt bound)]
  have outside : tree.arena.len ∉ child :: group.map Prod.fst := fun member => lt_irrefl _ (old _ member)
  have parentNode := node tree.arena.len
  rw [if_neg outside, if_pos rfl] at parentNode
  refine ⟨⟨rfl, ?_, ?_, ?_, ?_, fun idx member => ?_⟩, ?_, frame.free.trans fresh, frame.arenaLen, lower⟩
  · simp only [List.length_cons]
    omega
  · rw [parentNode]
  · rw [parentNode]
    rfl
  · rw [parentNode]
    exact keysEq
  · have inGroup : idx ∈ child :: group.map Prod.fst := member
    rw [lower idx (old idx inGroup), if_pos inGroup]
  · rw [parentNode]

theorem parentCount_step (layout : NodeLayout) (n : Nat) :
    parentCount layout (n + 1) = parentCount layout (n - layout.internalCap) + 1 := by
  rw [parentCount, parentCount, ← Nat.add_div_right _ (Nat.succ_pos _)]
  rcases Nat.le_total layout.internalCap n with large | small
  · congr 1
    omega
  · rw [Nat.sub_eq_zero_of_le small, Nat.zero_add, @Nat.div_eq_of_lt_le 1 _ _ (by omega) (by omega),
      @Nat.div_eq_of_lt_le 1 _ _ (by omega) (by omega)]

theorem lone_step {layout : NodeLayout} {n : Nat} (more : n ≠ 0) :
    (n + 1) % (layout.internalCap + 1) = 1 ↔ (n - layout.internalCap) % (layout.internalCap + 1) = 1 := by
  have capTwo := layout.internalCap_two
  rcases Nat.lt_or_ge n layout.internalCap with small | large
  · rw [Nat.mod_eq_of_lt (by omega), Nat.sub_eq_zero_of_le small.le, Nat.zero_mod]
    omega
  · have same : n + 1 = n - layout.internalCap + (layout.internalCap + 1) := by omega
    rw [same, Nat.add_mod_right]

theorem loadParents_spec {fuel : Nat} {children : List (NodeIdx × K)} (fresh : tree.arena.free = [])
    (old : ∀ idx ∈ children.map Prod.fst, idx < tree.arena.len) (unique : (children.map Prod.fst).Nodup)
    (enough : children.length ≤ fuel) :
    LoadedParents layout tree (tree.loadParents layout fuel children).2 children
      (tree.loadParents layout fuel children).1 := by
  induction fuel generalizing children tree with
  | zero =>
      obtain rfl := List.length_eq_zero_iff.mp (Nat.le_zero.mp enough)
      exact .none fresh
  | succ fuel ih =>
      cases children with
      | nil => exact .none fresh
      | cons head more =>
          obtain ⟨child, minKey⟩ := head
          have capTwo := layout.internalCap_two
          set group := more.take layout.internalCap with groupDef
          set later := more.drop layout.internalCap with laterDef
          have childrenEq : (child, minKey) :: more = ((child, minKey) :: group) ++ later := by
            rw [groupDef, laterDef, List.cons_append, List.take_append_drop]
          have fstEq : ((child, minKey) :: more).map Prod.fst =
              (child :: group.map Prod.fst) ++ later.map Prod.fst := by
            rw [childrenEq]
            simp
          rw [fstEq] at old unique
          obtain ⟨_, laterUnique, apart⟩ := List.nodup_append.mp unique
          set middle := ((tree.allocNode.2.ownAll (group.map Prod.snd)).2.modify tree.allocNode.1 fun node =>
            { node with
              isLeaf := false
              parent := none
              keys := (tree.allocNode.2.ownAll (group.map Prod.snd)).1
              children := child :: group.map Prod.fst }).setParents (some tree.allocNode.1)
                (child :: group.map Prod.fst) with middleDef
          obtain ⟨parented, orphan, freeMiddle, lenMiddle, lower⟩ :=
            @firstParent_spec _ _ layout _ _ minKey child group fresh
              (fun idx member => old idx (List.mem_append_left _ member)) (by rw [groupDef]; simp) middleDef
          have loaded := @ih middle later freeMiddle
            (fun idx member => lenMiddle ▸ Nat.lt_succ_of_lt (old idx (List.mem_append_right _ member)))
            laterUnique (by simp only [List.length_cons] at enough; rw [laterDef, List.length_drop]; omega)
          have opened : tree.loadParents layout (fuel + 1) ((child, minKey) :: more) =
              ((tree.arena.len, minKey) :: (middle.loadParents layout fuel later).1,
                (middle.loadParents layout fuel later).2) := by
            have allocated : tree.allocNode.1 = tree.arena.len := by rw [allocNode_fresh fresh]
            simp only [RawBTree.loadParents]
            rw [← groupDef, ← laterDef, ← middleDef, allocated]
          rw [opened]
          set tree' := (middle.loadParents layout fuel later).2 with treeDef
          set parents := (middle.loadParents layout fuel later).1 with parentsDef
          have inMiddle : ∀ idx : NodeIdx, idx < tree.arena.len → idx < middle.arena.len :=
            fun idx bound => lenMiddle ▸ Nat.lt_succ_of_lt bound
          have parentSame : tree'.node tree.arena.len = middle.node tree.arena.len :=
            loaded.same _ (lenMiddle ▸ Nat.lt_succ_self _) fun member =>
              lt_irrefl _ (old _ (List.mem_append_right _ member))
          have groupSame : ∀ idx ∈ child :: group.map Prod.fst, tree'.node idx = middle.node idx := by
            intro idx member
            exact loaded.same idx (inMiddle idx (old idx (List.mem_append_left _ member)))
              fun inLater => apart idx member idx inLater rfl
          have parented' : Parented layout tree' (tree.arena.len, minKey) ((child, minKey) :: group) :=
            parented.congr (by rw [parentSame]) fun idx member => by rw [groupSame idx member]
          have laterCount : later.length = more.length - layout.internalCap := by
            rw [laterDef, List.length_drop]
          have lenLe := loaded.len_le
          refine ⟨?_, ?_, ?_, ?_, ?_, ?_, loaded.free, by omega, ?_, ?_⟩
          · obtain ⟨groups, flat, built⟩ := loaded.stacked
            exact ⟨((child, minKey) :: group) :: groups, by rw [List.flatten_cons, flat, childrenEq],
              .cons parented' built⟩
          · intro idx member
            rcases List.mem_cons.mp member with rfl | member
            · rw [parentSame]; exact orphan
            · exact loaded.orphans idx member
          · intro idx member
            rcases List.mem_cons.mp member with rfl | member
            · have inside : tree.arena.len < tree'.arena.len := by omega
              exact ⟨le_rfl, inside⟩
            · obtain ⟨lowerBound, upperBound⟩ := loaded.fresh idx member
              exact ⟨le_trans (lenMiddle ▸ Nat.le_succ _) lowerBound, upperBound⟩
          · refine List.nodup_cons.mpr ⟨fun member => ?_, loaded.nodup⟩
            have lowerBound := (loaded.fresh _ member).1
            omega
          · intro idx bound
            rw [loaded.payload idx (inMiddle idx bound), lower idx bound]
            split
            · rfl
            · rfl
          · intro idx bound outside
            rw [fstEq, List.mem_append, not_or] at outside
            rw [loaded.same idx (inMiddle idx bound) outside.2, lower idx bound, if_neg outside.1]
          · rw [List.length_cons, loaded.count, laterCount, List.length_cons, parentCount_step]
          · have headKeys : (tree'.node tree.arena.len).keys = [] ↔ more = [] := by
              have lengths : ((child, minKey) :: group).length = (tree'.node tree.arena.len).keys.length + 1 :=
                parented'.keys_length
              rw [List.length_cons, groupDef, List.length_take] at lengths
              rw [← List.length_eq_zero_iff, ← List.length_eq_zero_iff]
              omega
            simp only [List.map_cons, List.mem_cons, exists_eq_or_imp, headKeys, loaded.bare, laterCount,
              List.length_cons]
            rcases List.eq_nil_or_concat more with rfl | ⟨front, last, moreEq⟩
            · simp [Nat.mod_eq_of_lt (show 1 < layout.internalCap + 1 by omega)]
            · have nonempty : more.length ≠ 0 := by simp [moreEq]
              rw [lone_step nonempty]
              simp [moreEq]

end Loading

section Towers

/-- Rows of nodes over each other, the topmost first. -/
structure Tower (layout : NodeLayout) (tree : RawBTree K V) (levels : List (List (NodeIdx × K))) : Prop where
  chain : levels.IsChain (Over layout tree)
  orphans : ∀ row ∈ levels.head?, ∀ idx ∈ row.map Prod.fst, (tree.node idx).parent = none
  owned : Owned tree.arena (levels.flatten.map Prod.fst)
  free : tree.arena.free = []

theorem chain_congr {levels : List (List (NodeIdx × K))} (chain : levels.IsChain (Over layout tree))
    (payload : ∀ idx ∈ levels.flatten.map Prod.fst, (tree'.node idx).payload = (tree.node idx).payload)
    (same : ∀ idx ∈ levels.tail.flatten.map Prod.fst, (tree'.node idx).parent = (tree.node idx).parent) :
    levels.IsChain (Over layout tree') := by
  induction levels with
  | nil => exact .nil
  | cons upper levels ih =>
      cases levels with
      | nil => exact .singleton _
      | cons lower levels =>
          obtain ⟨stacked, rest⟩ := List.isChain_cons_cons.mp chain
          simp only [List.flatten_cons, List.map_append, List.mem_append, List.tail_cons] at payload same
          refine List.isChain_cons_cons.mpr ⟨stacked.congr ?_ ?_, ih rest ?_ ?_⟩
          · exact fun idx member => payload idx (.inl member)
          · exact fun idx member => same idx (.inl member)
          · simp only [List.flatten_cons, List.map_append, List.mem_append]
            exact fun idx member => payload idx (.inr member)
          · exact fun idx member => same idx (.inr member)

/-- A row of parents on top. -/
theorem Tower.raise {children parents : List (NodeIdx × K)} {lower : List (List (NodeIdx × K))}
    (tower : Tower layout tree (children :: lower)) (loaded : LoadedParents layout tree tree' children parents) :
    Tower layout tree' (parents :: children :: lower) := by
  have bounded : ∀ idx ∈ (children :: lower).flatten.map Prod.fst, idx < tree.arena.len :=
    fun idx member => tower.owned.bounded idx (List.mem_append_left _ member)
  have nodup := tower.owned.nodup_idxs
  refine ⟨List.isChain_cons_cons.mpr ⟨loaded.stacked, chain_congr tower.chain ?_ ?_⟩, ?_, ⟨?_, ?_⟩,
    loaded.free⟩
  · exact fun idx member => loaded.payload idx (bounded idx member)
  · intro idx member
    simp only [List.flatten_cons, List.map_append] at bounded nodup
    rw [loaded.same idx (bounded idx (List.mem_append_right _ member)) fun inRow =>
      (List.nodup_append.mp nodup).2.2 idx inRow idx member rfl]
  · rintro row ⟨⟩
    exact loaded.orphans
  · rw [loaded.free, List.append_nil, List.flatten_cons, List.map_append]
    refine List.nodup_append.mpr ⟨loaded.nodup, nodup, fun idx inRow other below same => ?_⟩
    exact absurd (bounded other below) (not_lt.mpr (same ▸ (loaded.fresh idx inRow).1))
  · rw [loaded.free, List.append_nil, List.flatten_cons, List.map_append]
    intro idx member
    rcases List.mem_append.mp member with inRow | below
    · exact (loaded.fresh idx inRow).2
    · exact lt_of_lt_of_le (bounded idx below) loaded.len_le

/-- What building all levels over a row does: it ends in a single root. -/
structure LoadedLevels (layout : NodeLayout) (tree tree' : RawBTree K V) (children : List (NodeIdx × K))
    (lower upper : List (List (NodeIdx × K))) (root : NodeIdx × K) : Prop where
  tower : Tower layout tree' (upper ++ children :: lower)
  top : (upper ++ children :: lower).head? = some [root]
  payload : ∀ idx < tree.arena.len, (tree'.node idx).payload = (tree.node idx).payload
  rooted : upper ≠ [] → (tree'.node root.1).keys ≠ []
  bare : (∃ idx ∈ upper.flatten.map Prod.fst, (tree'.node idx).keys = []) ↔
    ∃ row, 1 < (parentCount layout)^[row] children.length ∧
      (parentCount layout)^[row] children.length % (layout.internalCap + 1) = 1

theorem parentCount_one (layout : NodeLayout) : parentCount layout 1 = 1 := by
  rw [parentCount, Nat.add_comm, Nat.div_self (Nat.succ_pos _)]

theorem parentCount_pos {layout : NodeLayout} {n : Nat} (pos : 0 < n) : 0 < parentCount layout n :=
  Nat.div_pos (by omega) (Nat.succ_pos _)

theorem parentCount_lt {layout : NodeLayout} {n : Nat} (more : 1 < n) : parentCount layout n < n := by
  have capTwo := layout.internalCap_two
  rw [parentCount, Nat.div_lt_iff_lt_mul (Nat.succ_pos _)]
  nlinarith

/-- A lone child has parents beside its own. -/
theorem parentCount_of_lone {layout : NodeLayout} {n : Nat} (more : 1 < n)
    (lone : n % (layout.internalCap + 1) = 1) : 1 < parentCount layout n := by
  have large : layout.internalCap + 1 ≤ n := by
    by_contra small
    rw [Nat.mod_eq_of_lt (not_le.mp small)] at lone
    omega
  have different : n ≠ layout.internalCap + 1 := by
    rintro rfl
    simp at lone
  rw [parentCount, Nat.lt_iff_add_one_le, Nat.le_div_iff_mul_le (Nat.succ_pos _)]
  omega

theorem loadLevels_spec {fuel height : Nat} {children : List (NodeIdx × K)}
    {lower : List (List (NodeIdx × K))} (tower : Tower layout tree (children :: lower))
    (nonempty : 0 < children.length) (enough : children.length ≤ fuel + 1) :
    ∃ root upper tree', RawBTree.loadLevels layout fuel children height tree =
        .ok (root.1, height + upper.length, tree') ∧
      LoadedLevels layout tree tree' children lower upper root := by
  induction fuel generalizing children lower height tree with
  | zero =>
      obtain ⟨root, rfl⟩ := List.length_eq_one_iff.mp (show children.length = 1 by omega)
      refine ⟨root, [], tree, rfl, tower, rfl, fun _ _ => rfl, by simp, ?_⟩
      simp [Function.iterate_fixed (parentCount_one layout)]
  | succ fuel ih =>
      by_cases several : 1 < children.length
      · have loaded := @loadParents_spec _ _ layout tree children.length children tower.free
          (fun idx member => tower.owned.bounded idx (List.mem_append_left _ (by simp at member ⊢; tauto)))
          (tower.owned.nodup_idxs.sublist (by simp)) le_rfl
        set middle := (tree.loadParents layout children.length children).2 with middleDef
        set parents := (tree.loadParents layout children.length children).1 with parentsDef
        have count := loaded.count
        have fewer := @parentCount_lt layout _ several
        have some := @parentCount_pos layout _ nonempty
        have alone := @parentCount_of_lone layout _ several
        obtain ⟨root, upper, tree', finished, raised⟩ := @ih middle (height + 1) parents (children :: lower)
          (tower.raise loaded) (by omega) (by omega)
        have keysSame : ∀ idx ∈ parents.map Prod.fst, (tree'.node idx).keys = (middle.node idx).keys :=
          fun idx member => Node.keys_of_payload (raised.payload idx (loaded.fresh idx member).2)
        refine ⟨root, upper ++ [parents], tree', ?_, ?_, ?_, ?_, ?_, ?_⟩
        · rw [RawBTree.loadLevels, if_pos several]
          simp only [← middleDef, ← parentsDef, finished, List.length_append, List.length_singleton]
          congr 3
          omega
        · simpa using raised.tower
        · simpa using raised.top
        · intro idx bound
          rw [raised.payload idx (lt_of_lt_of_le bound loaded.len_le), loaded.payload idx bound]
        · intro _
          by_cases direct : upper = []
          · subst direct
            have parentsEq : parents = [root] := by simpa using raised.top
            intro noKeys
            rw [keysSame root.1 (by simp [parentsEq])] at noKeys
            have lone := alone (loaded.bare.mp ⟨root.1, by simp [parentsEq], noKeys⟩)
            rw [← count, parentsEq] at lone
            simp at lone
          · exact raised.rooted direct
        · have ownRow : (∃ idx ∈ parents.map Prod.fst, (tree'.node idx).keys = []) ↔
              children.length % (layout.internalCap + 1) = 1 := by
            rw [← loaded.bare]
            exact exists_congr fun idx => and_congr_right fun member => by rw [keysSame idx member]
          have upperRows := raised.bare
          rw [count] at upperRows
          rw [List.flatten_append, List.map_append]
          simp only [List.mem_append, or_and_right, exists_or, upperRows, List.flatten_cons,
            List.flatten_nil, List.append_nil, ownRow]
          constructor
          · rintro (⟨row, more, lone⟩ | lone)
            · exact ⟨row + 1, by rw [Function.iterate_succ_apply]; exact ⟨more, lone⟩⟩
            · exact ⟨0, several, lone⟩
          · rintro ⟨row, more, lone⟩
            cases row with
            | zero => exact .inr lone
            | succ row =>
                rw [Function.iterate_succ_apply] at more lone
                exact .inl ⟨row, more, lone⟩
      · obtain ⟨root, rfl⟩ := List.length_eq_one_iff.mp (show children.length = 1 by omega)
        refine ⟨root, [], tree, rfl, tower, rfl, fun _ _ => rfl, by simp, ?_⟩
        simp [Function.iterate_fixed (parentCount_one layout)]

theorem Over.lower_ne_nil {upper lower : List (NodeIdx × K)} (stacked : Over layout tree upper lower)
    (nonempty : upper ≠ []) : lower ≠ [] := by
  obtain ⟨groups, rfl, built⟩ := stacked
  cases built with
  | nil => exact absurd rfl nonempty
  | cons parented _ =>
      rw [List.flatten_cons]
      exact List.append_ne_nil_of_left_ne_nil parented.group_ne_nil _

/-- A level of the tree under the topmost node, as a row of the tower. -/
structure LevelRow (tree : RawBTree K V) (root : NodeIdx) (levels : List (List (NodeIdx × K))) (depth : Nat)
    (row : List (NodeIdx × K)) (seps : List (KeyObj K)) : Prop where
  level_eq : level tree.node root depth = Item.row (row.map Prod.fst) seps
  keys_eq : seps.map KeyObj.key = (row.map Prod.snd).tail
  above_eq : above tree.node root depth = (levels.take depth).flatten.map Prod.fst
  row_ne_nil : row ≠ []

theorem LevelRow.paired {root : NodeIdx} {levels : List (List (NodeIdx × K))} {depth : Nat}
    {row : List (NodeIdx × K)} {seps : List (KeyObj K)} (levelRow : LevelRow tree root levels depth row seps) :
    (row.map Prod.fst).length = seps.length + 1 := by
  have lengths := congrArg List.length levelRow.keys_eq
  have nonempty := List.length_pos_iff.mpr levelRow.row_ne_nil
  simp only [List.length_map, List.length_tail] at lengths ⊢
  omega

theorem LevelRow.nodes_eq {root : NodeIdx} {levels : List (List (NodeIdx × K))} {depth : Nat}
    {row : List (NodeIdx × K)} {seps : List (KeyObj K)} (levelRow : LevelRow tree root levels depth row seps) :
    Item.nodes (level tree.node root depth) = row.map Prod.fst := by
  rw [levelRow.level_eq, Item.nodes_row levelRow.paired]

theorem Tower.levelRow {levels : List (List (NodeIdx × K))} {root : NodeIdx × K}
    (tower : Tower layout tree levels) (top : levels.head? = some [root]) {depth : Nat}
    {row : List (NodeIdx × K)} (found : levels[depth]? = some row) :
    ∃ seps, LevelRow tree root.1 levels depth row seps := by
  induction depth generalizing row with
  | zero =>
      rw [List.head?_eq_getElem?, found] at top
      obtain rfl := Option.some.inj top
      exact ⟨[], rfl, rfl, rfl, by simp⟩
  | succ depth ih =>
      obtain ⟨bound, rowEq⟩ := List.getElem?_eq_some_iff.mp found
      have isUpper : levels[depth]? = some levels[depth] := List.getElem?_eq_getElem _
      obtain ⟨seps, upper⟩ := ih isUpper
      have stacked := List.isChain_iff_getElem.mp tower.chain depth bound
      rw [rowEq] at stacked
      obtain ⟨seps', rowLevel, keys⟩ := stacked.expand_row upper.keys_eq
      refine ⟨seps', ?_, keys, ?_, stacked.lower_ne_nil upper.row_ne_nil⟩
      · rw [level, upper.level_eq, rowLevel]
      · rw [above, upper.above_eq, upper.nodes_eq, List.take_add_one, isUpper, Option.toList_some,
          List.flatten_append, List.map_append, List.flatten_singleton]

/-- The nodes above the last row are parents of others. -/
theorem Tower.looseOk {levels : List (List (NodeIdx × K))} (tower : Tower layout tree levels) {depth : Nat}
    {row : List (NodeIdx × K)} (found : levels[depth]? = some row) (inner : depth + 1 < levels.length) :
    ∀ idx ∈ row.map Prod.fst, LooseOk layout tree.node idx := by
  obtain ⟨bound, rfl⟩ := List.getElem?_eq_some_iff.mp found
  exact (List.isChain_iff_getElem.mp tower.chain depth inner).looseOk

end Towers

end Optimap.FlatBTree
