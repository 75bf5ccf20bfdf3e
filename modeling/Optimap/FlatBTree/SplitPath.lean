import Optimap.FlatBTree.MovingHalf
import Optimap.FlatBTree.StayingHalf

/-!
# The walk up the path

Each level takes one step in both halves. On the left of the cut either something is left
below, or the boundary leaf begins with the first key of the right part and nothing is left
until the path has a child in front of it.
-/

set_option autoImplicit false
set_option linter.unusedSectionVars false

namespace Optimap.FlatBTree

open Lib

variable {K V : Type}

section Rows

/-- An item with what its leaf holds after the cut. -/
def filledAt (heap : Heap K V) (leaf : NodeIdx) (entries : List (KeyObj K × V)) :
    LevelItem K → Item (List (KeyObj K × V)) (KeyObj K) :=
  Item.map (fun idx => if idx = leaf then entries else (heap idx).entries) id

theorem map_filledAt {heap : Heap K V} {leaf : NodeIdx} {entries : List (KeyObj K × V)} {items : List (LevelItem K)}
    (apart : leaf ∉ Item.nodes items) : items.map (filledAt heap leaf entries) = items.map (filled heap) := by
  refine List.map_congr_left fun item member => ?_
  cases item with
  | sep key => rfl
  | node idx =>
      have different : idx ≠ leaf := fun same => apart (same ▸ Item.mem_nodes.mpr member)
      simp [filledAt, filled, Item.map, different]

/-- The number of entries in fillings. -/
def stored (fillings : Fillings K V) : Nat := ((Item.nodes fillings).map List.length).sum

theorem stored_append (left right : Fillings K V) : stored (left ++ right) = stored left + stored right := by
  simp [stored]

theorem length_spread (fillings : Fillings K V) : (Item.nodes (fillings.flatMap spread)).length = stored fillings := by
  induction fillings with
  | nil => rfl
  | cons filling fillings ih =>
      rw [List.flatMap_cons, Item.nodes_append, List.length_append, ih]
      cases filling with
      | sep key => simp [spread, stored]
      | node entries =>
          have nodes : Item.nodes (spread (.node entries : Item (List (KeyObj K × V)) (KeyObj K))) = entries := by
            simp [spread, Item.nodes, List.filterMap_map]
          rw [nodes]
          simp [stored]

theorem stored_filled (heap : Heap K V) (items : List (LevelItem K)) :
    stored (items.map (filled heap)) = storedIn heap (Item.nodes items) := by
  rw [stored, filled, Item.nodes_map, List.map_map]
  rfl

/-- What is left of a row in front of a leaf: with the leaf itself if some of its entries are on
the left, else without the separator in front of it. -/
inductive LeftRow (leaf : NodeIdx) (divided : Prop) :
    List (LevelItem K) → List (LevelItem K) → List (KeyObj K) → Prop where
  | inside {left : List (LevelItem K)} (isDivided : divided) : LeftRow leaf divided left (left ++ [.node leaf]) []
  | between {front : List (LevelItem K)} {key : KeyObj K} (whole : ¬ divided) :
      LeftRow leaf divided (front ++ [.sep key]) front [key]

theorem LeftRow.prepend {leaf : NodeIdx} {divided : Prop} {left row : List (LevelItem K)} {gone : List (KeyObj K)}
    (leftRow : LeftRow leaf divided left row gone) (front : List (LevelItem K)) :
    LeftRow leaf divided (front ++ left) (front ++ row) gone := by
  cases leftRow with
  | inside isDivided =>
      rw [← List.append_assoc]
      exact .inside isDivided
  | between whole =>
      rw [← List.append_assoc]
      exact .between whole

/-- The ledger after some key objects have been dropped. -/
def Ledger.dropping (ledger : Ledger) (gone : List (KeyObj K)) : Ledger :=
  ⟨ledger.nextId, gone.map KeyObj.id ++ ledger.dropped⟩

end Rows

variable [LinearOrder K] {layout : NodeLayout} {tree : RawBTree K V} {root : NodeIdx} {items : List (LevelItem K)}
  {s : Surgery K V} {fuel depth steps leaf idx parent childPos : Nat} {leafNode : Node K V} {path : PathBuf}
  {outside outside' before after : List NodeIdx} {keysBefore keysAfter : List (KeyObj K)}
  {leftCount rightCount : List Nat} {left right : List (LevelItem K)} {below : List (KeyObj K × V)}

/-- A leaf under the path is not under a child beside it. -/
theorem Rung.leaf_apart
    (rung : Rung layout tree root steps idx parent childPos outside before after keysBefore keysAfter outside')
    (onPath : leaf ∈ Item.nodes (level tree.node idx steps)) :
    leaf ∉ Item.nodes ((Item.lead before keysBefore).flatMap (sublevel tree.node steps)) ∧
      leaf ∉ Item.nodes ((Item.trail keysAfter after).flatMap (sublevel tree.node steps)) := by
  have unique : (Item.nodes (level tree.node parent (steps + 1))).Nodup :=
    (rung.sub.under_perm.nodup_iff.mp rung.unique).sublist (List.sublist_append_right _ _)
  rw [rung.level_eq, Item.nodes_append, Item.nodes_append] at unique
  obtain ⟨_, inner, front⟩ := List.nodup_append.mp unique
  refine ⟨fun member => front leaf member leaf (List.mem_append_left _ onPath) rfl, fun member => ?_⟩
  exact (List.nodup_append.mp inner).2.2 leaf onPath leaf member rfl

section MovingLeft

/-- How far the left half has been moved. -/
inductive LeftMoved (layout : NodeLayout) (tree : RawBTree K V) (leaf : NodeIdx) (below : List (KeyObj K × V))
    (s : Surgery K V) (steps : Nat) : List (LevelItem K) → Option NodeIdx → List Nat → Prop where
  | nothing (whole : below = []) (ends : s.ends = ⟨none, none⟩) (owned : Owned s.dst.arena []) (count : s.count = 0)
      (ledger : s.tree.ledger = tree.ledger) : LeftMoved layout tree leaf below s steps [] none []
  | part {left row : List (LevelItem K)} {gone : List (KeyObj K)} {top : NodeIdx} {counts : List Nat}
      (leftRow : LeftRow leaf (below ≠ []) left row gone)
      (copied : Copied layout s.dst steps top (row.map (filledAt tree.node leaf below)) counts)
      (chained : Chained s (leavesUnder s.dst.node steps top))
      (count : s.count = stored (row.map (filledAt tree.node leaf below)))
      (ledger : s.tree.ledger = tree.ledger.dropping gone) : LeftMoved layout tree leaf below s steps left (some top) counts

/-- Both halves on the way up, the left one moving. -/
structure HalvesLeft (layout : NodeLayout) (tree : RawBTree K V) (leaf : NodeIdx) (leafNode : Node K V)
    (below : List (KeyObj K × V)) (s : Surgery K V) (steps : Nat) (idx : NodeIdx) (leftBelow : Option NodeIdx)
    (outside : List NodeIdx) (left right : List (LevelItem K)) (leftCount rightCount : List Nat) : Prop where
  level_eq : level tree.node idx steps = left ++ .node leaf :: right
  stays : Stays layout tree leaf leafNode s.tree steps idx (.node leaf :: right) outside rightCount
  moved : LeftMoved layout tree leaf below s steps left leftBelow leftCount
  frame : s.tree = { tree with arena := s.tree.arena, ledger := s.tree.ledger }
  dstFrame : s.dst = { tree.fresh with arena := s.dst.arena }

theorem buildInternal_tree (keys : List (KeyObj K)) (children : List NodeIdx) (s : Surgery K V) (t : RawBTree K V) :
    ({ s with tree := t } : Surgery K V).buildInternal keys children =
      ((s.buildInternal keys children).1, { (s.buildInternal keys children).2 with tree := t }) := rfl

theorem prependChain_tree {temp s' : Surgery K V} {ends : ChainEnds} {count : Nat} (t : RawBTree K V)
    (prepended : temp.prependChain ends count = .ok s') :
    ({ temp with tree := t } : Surgery K V).prependChain ends count = .ok { s' with tree := t } := by
  unfold Surgery.prependChain at *
  cases first : temp.ends.firstLeaf with
  | none =>
      simp only [first, Except.ok.injEq] at prepended ⊢
      rw [← prepended]
  | some first' =>
      cases main : ends.firstLeaf with
      | none =>
          simp only [first, main, Except.ok.injEq] at prepended ⊢
          rw [← prepended]
      | some main' =>
          simp only [first, main, bind, Except.bind] at prepended ⊢
          cases tail : deref temp.ends.chainTail with
          | error fault => simp [tail] at prepended
          | ok tail' =>
              simp only [tail, pure, Except.pure, Except.ok.injEq] at prepended ⊢
              rw [← prepended]

/-- The keys in front of the path, when a separator is among them. -/
theorem Rung.split_before
    (rung : Rung layout tree root steps idx parent (childPos + 1) outside before after keysBefore keysAfter outside') :
    ∃ keys key, keysBefore = keys ++ [key] ∧ (tree.node parent).keys.take childPos = keys ∧
      (tree.node parent).keys[childPos]? = some key := by
  have length : keysBefore.length = childPos + 1 := rung.before_paired.symm.trans rung.before_length
  rcases List.eq_nil_or_concat keysBefore with rfl | ⟨keys, key, rfl⟩
  · simp at length
  · rw [List.concat_eq_append] at length ⊢
    have keysLength : childPos = keys.length := by simpa using length.symm
    have keysEq := rung.keys_eq
    rw [List.concat_eq_append, List.append_assoc] at keysEq
    refine ⟨keys, key, rfl, ?_, ?_⟩
    · rw [keysEq, keysLength, List.take_left]
    · rw [keysEq, keysLength]
      simp

theorem Subtree.leaves_ne_nil {heap : Heap K V} {top : NodeIdx} (sub : Subtree layout heap steps top) :
    leavesUnder heap steps top ≠ [] := by
  induction steps generalizing top with
  | zero => simp [leavesUnder, level]
  | succ steps ih =>
      obtain ⟨child, isChild⟩ := List.exists_mem_of_length_pos
        (show 0 < (heap top).children.length by rw [sub.1.paired]; omega)
      obtain ⟨leaf, member⟩ := List.exists_mem_of_ne_nil _ (ih (sub.2 child isChild))
      rw [leavesUnder, sub.nodes_level]
      exact List.ne_nil_of_mem (List.mem_flatMap.mpr ⟨child, isChild, member⟩)

/-- The children in front of the path have been copied into the arena, next to what is there. -/
structure CopiedBefore (layout : NodeLayout) (tree : RawBTree K V) (leaf : NodeIdx) (leafNode : Node K V)
    (s temp : Surgery K V) (steps : Nat) (idx parent : NodeIdx) (before after copies used outside' : List NodeIdx)
    (right : List (LevelItem K)) (rightCount : List Nat) : Prop where
  moved : Surgery.MovedRow layout tree steps { s with ends := ⟨none, none⟩, count := 0 } temp before copies used
  stays : Stays layout tree leaf leafNode temp.tree steps idx (.node leaf :: right)
    (parent :: after.flatMap (under tree.node steps) ++ outside') rightCount
  frame : temp.tree = { s.tree with arena := temp.tree.arena }
  dstFrame : temp.dst = { s.dst with arena := temp.dst.arena }
  count : ∀ count, (if copies.flatMap (leavesUnder temp.dst.node steps) = [] then count else count + temp.count) =
    count + storedIn tree.node (before.flatMap (leavesUnder tree.node steps))

theorem HalvesLeft.copyBefore {leftBelow : Option NodeIdx} {used : List NodeIdx}
    (halves : HalvesLeft layout tree leaf leafNode below s steps idx leftBelow outside left right leftCount rightCount)
    (rung : Rung layout tree root steps idx parent childPos outside before after keysBefore keysAfter outside')
    (enough : steps ≤ fuel) (owned : Owned s.dst.arena used) :
    ∃ copies temp, Surgery.deepCopyEach fuel before { s with ends := ⟨none, none⟩, count := 0 } = .ok (copies, temp) ∧
      CopiedBefore layout tree leaf leafNode s temp steps idx parent before after copies used outside' right rightCount := by
  have outsideOf : ∀ other ∈ before.flatMap (under tree.node steps), other ∈ outside := by
    intro other member
    refine rung.outside_perm.symm.subset (List.mem_append_left _ (List.mem_cons_of_mem _ ?_))
    rw [List.flatMap_append]
    exact List.mem_append_left _ member
  have unique : (before.flatMap (under tree.node steps)).Nodup := by
    have all := (List.nodup_cons.mp rung.unique).2
    rw [below_succ, rung.children_eq, List.flatMap_append] at all
    exact all.sublist (List.sublist_append_left _ _)
  obtain ⟨copies, temp, copying, moved⟩ := @Surgery.deepCopyEach_moves _ _ layout tree steps fuel before used
    { s with ends := ⟨none, none⟩, count := 0 } enough
    (fun child isChild => rung.sub.2 child (rung.beside_mem (List.mem_append_left _ isChild)))
    (fun other member => rung.beside_leaf other (by
      rw [List.flatMap_append]
      exact List.mem_append_left _ member))
    unique (fun other member => halves.stays.untouched other (outsideOf other member)) rfl owned
    (fun tail isTail => absurd isTail (by simp))
  have tempTree : temp.tree = s.tree.vacateAll (before.flatMap (postorder tree.node steps)) := by
    rw [moved.after]
    rfl
  refine ⟨copies, temp, copying, moved, ?_, ?_, moved.extended.frame, fun count => ?_⟩
  · rw [tempTree]
    exact halves.stays.vacate rung.outside_after
  · rw [tempTree]
    exact vacateAll_frame _ _
  · have counted : temp.count = storedIn tree.node (before.flatMap (leavesUnder tree.node steps)) := by
      rw [moved.after]
      exact Nat.zero_add _
    cases before with
    | nil =>
        obtain rfl : copies = [] := by simpa using moved.row.copied
        simp [storedIn]
    | cons child before =>
        rw [if_neg, counted]
        obtain ⟨copy, rest, copyOf, _, rfl⟩ := List.forall₂_cons_left_iff.mp moved.row.copied
        rw [List.flatMap_cons]
        exact fun none => copyOf.sub.leaves_ne_nil (List.append_eq_nil_iff.mp none).1

theorem splitNodeLeft_step {leftBelow : Option NodeIdx}
    (halves : HalvesLeft layout tree leaf leafNode below s steps idx leftBelow outside left right leftCount rightCount)
    (rung : Rung layout tree root steps idx parent childPos outside before after keysBefore keysAfter outside')
    (enough : steps ≤ fuel) :
    ∃ leftAbove s' left' right' leftCount', s.splitNodeLeft fuel parent childPos leftBelow (some idx) =
        .ok (leftAbove, some parent, s') ∧
      HalvesLeft layout tree leaf leafNode below s' (steps + 1) parent leftAbove outside' left' right' leftCount'
        (rightCount ++ [(tree.node parent).keys.length - childPos]) ∧
      ∀ rest, leftCount' ++ leftCounts leftAbove.isSome rest =
        leftCount ++ leftCounts leftBelow.isSome ((parent, childPos) :: rest) := by
  have parentNode : s.tree.node parent = tree.node parent :=
    halves.stays.untouched parent (rung.outside_perm.symm.subset List.mem_cons_self)
  have childrenTake : (tree.node parent).children.take childPos = before := by
    rw [rung.children_eq, ← rung.before_length, List.take_left]
  have onPath : leaf ∈ Item.nodes (level tree.node idx steps) := by rw [halves.level_eq]; simp
  have levelEq : level tree.node parent (steps + 1) =
      ((Item.lead before keysBefore).flatMap (sublevel tree.node steps) ++ left) ++
        .node leaf :: (right ++ (Item.trail keysAfter after).flatMap (sublevel tree.node steps)) := by
    rw [rung.level_eq, halves.level_eq]
    simp
  have leadNodes : Item.nodes ((Item.lead before keysBefore).flatMap (sublevel tree.node steps)) =
      before.flatMap (leavesUnder tree.node steps) := by
    rw [nodes_sublevels, nodes_lead rung.before_paired]
    rfl
  have leadFilled := @map_filledAt _ _ tree.node leaf below _ (rung.leaf_apart onPath).1
  -- the right half takes the same step whatever the left one does
  have finish : ∀ (temp s'' : Surgery K V) (copies used : List NodeIdx),
      CopiedBefore layout tree leaf leafNode s temp steps idx parent before after copies used outside' right rightCount →
      s''.tree.arena = temp.tree.arena →
      ∃ t', Surgery.keepRight parent childPos (some idx) s'' = .ok (some parent, { s'' with tree := t' }) ∧
        t' = { s''.tree with arena := t'.arena } ∧
        Stays layout tree leaf leafNode t' (steps + 1) parent
          (.node leaf :: (right ++ (Item.trail keysAfter after).flatMap (sublevel tree.node steps))) outside'
          (rightCount ++ [(tree.node parent).keys.length - childPos]) := by
    intro temp s'' copies used copied sameArena
    exact (copied.stays.of_arena sameArena).keepRight rung
  cases halves.moved with
  | @part left row gone top counts leftRow copied chained count ledger =>
      obtain ⟨copies, temp, copying, front⟩ := halves.copyBefore rung enough copied.owned
      obtain ⟨built, temp', s'', building, prepended, grown, chained', counted, sameTree, dstFrame⟩ :=
        copied.growLeft rung chained front.moved
      have joined : Surgery.joinLeft (some top) (if 0 < childPos then (tree.node parent).keys[childPos - 1]? else none)
          ((tree.node parent).keys.take (childPos - 1)) copies temp = .ok (keysBefore, copies ++ [top], temp) := by
        have copiesLength : copies.length = childPos := front.moved.row.copied.length_eq.symm.trans rung.before_length
        cases childPos with
        | zero =>
            obtain rfl : copies = [] := List.length_eq_zero_iff.mp copiesLength
            have none : keysBefore = [] :=
              List.length_eq_zero_iff.mp (rung.before_paired.symm.trans rung.before_length)
            simp [Surgery.joinLeft, none]
        | succ pos =>
            obtain ⟨keys, key, keysEq, taken, found⟩ := rung.split_before
            have nonempty : copies.isEmpty = false := by
              cases copies with
              | nil => simp at copiesLength
              | cons copy copies => rfl
            simp [Surgery.joinLeft, nonempty, found, taken, keysEq, Surgery.expectSeparator, bind, Except.bind, pure,
              Except.pure]
      obtain ⟨t', kept, frame, stays⟩ := finish temp s'' copies _ front (by rw [sameTree])
      refine ⟨some built, { s'' with tree := t' }, _, _, leftCount ++ [keysBefore.length], ?_, ⟨levelEq, stays, .part (leftRow.prepend _) ?_
        ⟨chained'.linked, chained'.ends⟩ ?_ ?_, ?_, ?_⟩, fun rest => ?_⟩
      · have nonempty : (copies ++ [top]).isEmpty = false := by simp
        simp only [Surgery.splitNodeLeft, parentNode, childrenTake, copying, joined, bind, Except.bind, nonempty,
          Bool.false_eq_true, if_false, building, prepended, kept]
        rfl
      · rw [List.map_append, leadFilled]
        exact grown
      · change s''.count = _
        rw [counted, front.count, List.map_append, leadFilled, stored_append, stored_filled, leadNodes, count,
          Nat.add_comm]
      · change t'.ledger = _
        rw [frame, sameTree, front.frame, ledger]
      · change t' = { tree with arena := t'.arena, ledger := t'.ledger }
        rw [frame, sameTree, front.frame, halves.frame]
      · change s''.dst = { tree.fresh with arena := s''.dst.arena }
        rw [dstFrame, front.dstFrame, halves.dstFrame]
      · rw [Option.isSome_some, Option.isSome_some, leftCounts, ← rung.before_paired, rung.before_length]
        simp
  | nothing whole ends owned count ledger =>
      obtain ⟨copies, temp, copying, front⟩ := halves.copyBefore rung enough owned
      have copiesLength : copies.length = childPos := front.moved.row.copied.length_eq.symm.trans rung.before_length
      cases childPos with
      | zero =>
          obtain rfl : copies = [] := List.length_eq_zero_iff.mp copiesLength
          obtain rfl : before = [] := List.length_eq_zero_iff.mp rung.before_length
          have tempEnds : temp.ends = ⟨none, none⟩ := front.moved.row.ends_eq
          have prepended : temp.prependChain s.ends s.count = .ok { temp with ends := s.ends, count := s.count } := by
            rw [Surgery.prependChain, tempEnds]
          obtain ⟨t', kept, frame, stays⟩ := finish temp { temp with ends := s.ends, count := s.count } [] _ front rfl
          refine ⟨none, { temp with tree := t', ends := s.ends, count := s.count }, _, _, [], ?_,
            ⟨levelEq, stays, .nothing whole ends ?_ count ?_, ?_, ?_⟩, fun rest => ?_⟩
          · simp only [Surgery.splitNodeLeft, parentNode, childrenTake, copying, Surgery.joinLeft, lt_irrefl, if_false,
              Surgery.dropSeparator, bind, Except.bind, List.isEmpty_nil, if_true, prepended, kept]
            rfl
          · have owned' := front.moved.row.owned
            exact owned'
          · change t'.ledger = _
            rw [frame, front.frame, ledger]
          · change t' = { tree with arena := t'.arena, ledger := t'.ledger }
            rw [frame, front.frame, halves.frame]
          · change temp.dst = { tree.fresh with arena := temp.dst.arena }
            rw [front.dstFrame, halves.dstFrame]
          · simp [leftCounts]
      | succ pos =>
          obtain ⟨keys, key, rfl, taken, found⟩ := rung.split_before
          obtain ⟨built, temp', s'', building, prepended, grown, chained', counted, sameTree, dstFrame⟩ :=
            MovedRow.startLeft rung front.moved
          have nonempty : copies.isEmpty = false := by
            cases copies with
            | nil => simp at copiesLength
            | cons copy copies => rfl
          have building' : ({ temp with tree := temp.tree.drop key } : Surgery K V).buildInternal keys copies =
              (built, { temp' with tree := temp.tree.drop key }) := by
            rw [buildInternal_tree, building]
          have prepended' : ({ temp' with tree := temp.tree.drop key } : Surgery K V).prependChain s.ends s.count =
              .ok { s'' with tree := temp.tree.drop key } := by
            rw [ends]
            exact prependChain_tree _ prepended
          obtain ⟨t', kept, frame, stays⟩ := finish temp { s'' with tree := temp.tree.drop key } copies _ front rfl
          have rowEq : (Item.lead before (keys ++ [key])).flatMap (sublevel tree.node steps) =
              (Item.row before keys).flatMap (sublevel tree.node steps) ++ [.sep key] := by
            have paired := rung.before_paired
            rw [List.length_append, List.length_singleton] at paired
            rw [lead_row key paired, List.flatMap_append]
            rfl
          rw [rowEq, List.append_nil] at levelEq
          have frontNodes : Item.nodes ((Item.row before keys).flatMap (sublevel tree.node steps)) =
              before.flatMap (leavesUnder tree.node steps) := by
            rw [← leadNodes, rowEq, Item.nodes_append]
            simp
          have frontFilled := @map_filledAt _ _ tree.node leaf below ((Item.row before keys).flatMap (sublevel tree.node steps))
            (by
              rw [frontNodes, ← leadNodes]
              exact (rung.leaf_apart onPath).1)
          refine ⟨some built, { s'' with tree := t' }, _, _, [keys.length], ?_,
            ⟨levelEq, stays, .part (.between (not_not.mpr whole)) ?_ ⟨chained'.linked, chained'.ends⟩ ?_ ?_, ?_, ?_⟩,
            fun rest => ?_⟩
          · have positive : 0 < pos + 1 := Nat.succ_pos pos
            simp only [Surgery.splitNodeLeft, parentNode, childrenTake, copying, Surgery.joinLeft, if_pos positive,
              Nat.add_sub_cancel, found, taken, Surgery.dropSeparator, bind, Except.bind, nonempty, Bool.false_eq_true,
              if_false, building', prepended', kept]
            rfl
          · rw [frontFilled]
            exact grown
          · change s''.count = _
            rw [counted, front.count, frontFilled, stored_filled, frontNodes, count, Nat.zero_add]
          · change t'.ledger = _
            rw [frame]
            change (temp.tree.drop key).ledger = _
            rw [RawBTree.drop, front.frame, ledger]
            rfl
          · change t' = { tree with arena := t'.arena, ledger := t'.ledger }
            rw [frame, RawBTree.drop, front.frame, halves.frame]
          · change s''.dst = { tree.fresh with arena := s''.dst.arena }
            rw [dstFrame, front.dstFrame, halves.dstFrame]
          · have length := rung.before_paired.symm.trans rung.before_length
            simp only [List.length_append, List.length_singleton, Nat.add_right_cancel_iff] at length
            simp [leftCounts, length]

/-- The walk from a node on the path up to the root. -/
theorem splitPathLeft_halves {leftBelow : Option NodeIdx} (rooted : Rooted layout tree root items)
    (deep : depth + steps = tree.height) (leads : PathTo tree.node root depth idx path)
    (onLevel : idx ∈ Item.nodes (level tree.node root depth))
    (whole : (under tree.node steps idx ++ outside).Perm (under tree.node tree.height root))
    (halves : HalvesLeft layout tree leaf leafNode below s steps idx leftBelow outside left right leftCount rightCount) :
    ∃ top s' left' right', s.splitPathLeft tree.height path leftBelow (some idx) = .ok (top, some root, s') ∧
      HalvesLeft layout tree leaf leafNode below s' tree.height root top [] left' right'
        (leftCount ++ leftCounts leftBelow.isSome path) (rightCount ++ rightCounts tree.node path) := by
  induction depth generalizing steps idx path s outside left right leftBelow leftCount rightCount with
  | zero =>
      obtain rfl : idx = root := by simpa [level] using onLevel
      obtain rfl : path = [] := leads
      obtain rfl : steps = tree.height := by omega
      obtain rfl : outside = [] := by
        have lengths := whole.length_eq
        rw [List.length_append] at lengths
        exact List.length_eq_zero_iff.mp (by omega)
      refine ⟨leftBelow, s, left, right, rfl, ?_⟩
      have none : leftCounts leftBelow.isSome [] = [] := by cases leftBelow <;> rfl
      rw [none, rightCounts, List.map_nil, List.append_nil, List.append_nil]
      exact halves
  | succ depth ih =>
      obtain ⟨parent, childPos, rest, rfl⟩ : ∃ parent childPos rest, path = (parent, childPos) :: rest :=
        leads.imp fun _ => Exists.imp fun _ => Exists.imp fun _ => And.left
      obtain ⟨isParent, leads', before, after, keysBefore, keysAfter, outside', rung⟩ := rooted.rung deep leads whole
      obtain ⟨leftAbove, s₁, left₁, right₁, leftCount₁, stepped, halves₁, counts⟩ :=
        splitNodeLeft_step halves rung (show steps ≤ tree.height by omega)
      obtain ⟨top, s', left', right', walked, halves'⟩ := ih (by omega) leads' isParent rung.whole halves₁
      refine ⟨top, s', left', right', ?_, ?_⟩
      · simp only [Surgery.splitPathLeft, stepped, bind, Except.bind]
        exact walked
      · rw [counts, List.append_assoc] at halves'
        exact halves'

end MovingLeft

section MovingRight

/-- What is left of the left half where it stands. -/
inductive LeftKept (layout : NodeLayout) (tree : RawBTree K V) (leaf : NodeIdx) (leafNode : Node K V) (divided : Prop)
    (t : RawBTree K V) (steps : Nat) (idx : NodeIdx) (outside : List NodeIdx) :
    List (LevelItem K) → Option NodeIdx → List Nat → Prop where
  | nothing (whole : ¬ divided) (emptied : Emptied tree leaf t outside) (ledger : t.ledger = tree.ledger) :
      LeftKept layout tree leaf leafNode divided t steps idx outside [] none []
  | part {left row : List (LevelItem K)} {gone : List (KeyObj K)} {counts : List Nat}
      (leftRow : LeftRow leaf divided left row gone)
      (stays : Stays layout tree leaf leafNode t steps idx row outside counts)
      (ledger : t.ledger = tree.ledger.dropping gone) :
      LeftKept layout tree leaf leafNode divided t steps idx outside left (some idx) counts

/-- Both halves on the way up, the right one moving. -/
structure HalvesRight (layout : NodeLayout) (tree : RawBTree K V) (leaf : NodeIdx) (leafNode : Node K V) (divided : Prop)
    (above : List (KeyObj K × V)) (s : Surgery K V) (steps : Nat) (idx : NodeIdx) (leftBelow : Option NodeIdx)
    (top : NodeIdx) (outside : List NodeIdx) (left right : List (LevelItem K)) (leftCount rightCount : List Nat) : Prop where
  level_eq : level tree.node idx steps = left ++ .node leaf :: right
  kept : LeftKept layout tree leaf leafNode divided s.tree steps idx outside left leftBelow leftCount
  copied : Copied layout s.dst steps top ((.node leaf :: right).map (filledAt tree.node leaf above)) rightCount
  chained : Chained s (leavesUnder s.dst.node steps top)
  count : s.count = stored ((.node leaf :: right).map (filledAt tree.node leaf above))
  frame : s.tree = { tree with arena := s.tree.arena, ledger := s.tree.ledger }
  dstFrame : s.dst = { tree.fresh with arena := s.dst.arena }

theorem LeftKept.untouched {divided : Prop} {t : RawBTree K V} {leftBelow : Option NodeIdx}
    (kept : LeftKept layout tree leaf leafNode divided t steps idx outside left leftBelow leftCount) :
    ∀ other ∈ outside, t.node other = tree.node other := by
  cases kept with
  | nothing whole emptied ledger => exact emptied.untouched
  | part leftRow stays ledger => exact stays.untouched

/-- The left half takes its step when the children behind the path have gone. -/
theorem LeftKept.up {divided : Prop} {leftBelow : Option NodeIdx} {s'' : Surgery K V}
    (rung : Rung layout tree root steps idx parent childPos outside before after keysBefore keysAfter outside')
    (kept : LeftKept layout tree leaf leafNode divided s.tree steps idx outside left leftBelow leftCount)
    (gone : s''.tree = s.tree.vacateAll (after.flatMap (postorder tree.node steps))) :
    ∃ leftAbove t' leftCount', Surgery.keepLeft parent childPos leftBelow s'' = .ok (leftAbove, { s'' with tree := t' }) ∧
      t' = { s.tree with arena := t'.arena, ledger := t'.ledger } ∧
      LeftKept layout tree leaf leafNode divided t' (steps + 1) parent outside'
        ((Item.lead before keysBefore).flatMap (sublevel tree.node steps) ++ left) leftAbove leftCount' ∧
      ∀ rest, leftCount' ++ leftCounts leftAbove.isSome rest =
        leftCount ++ leftCounts leftBelow.isSome ((parent, childPos) :: rest) := by
  have vacated : s''.tree = { s.tree with arena := s''.tree.arena } := by
    rw [gone]
    exact vacateAll_frame _ _
  cases kept with
  | @part left row dropped counts leftRow stays ledger =>
      have stays' := stays.vacate rung.outside_before
      rw [← gone] at stays'
      obtain ⟨t', kept, frame, up⟩ := stays'.keepLeft rung
      refine ⟨some parent, t', _, kept, ?_, .part (leftRow.prepend _) up ?_, fun rest => ?_⟩
      · rw [frame, vacated]
      · rw [frame, vacated, ← ledger]
      · simp [leftCounts]
  | nothing whole emptied ledger =>
      have emptied' := emptied.vacate rung.outside_before
      rw [← gone] at emptied'
      cases childPos with
      | zero =>
          obtain rfl : before = [] := List.length_eq_zero_iff.mp rung.before_length
          obtain ⟨kept, freed⟩ := emptied'.keepLeft_first
          refine ⟨none, _, [], kept, ?_, .nothing whole freed ?_, fun rest => ?_⟩
          · rw [vacated]
            rfl
          · change s''.tree.ledger = _
            rw [vacated, ledger]
          · simp [leftCounts]
      | succ pos =>
          obtain ⟨keys, key, rfl, _, _⟩ := rung.split_before
          obtain ⟨t', kept, frame, stays⟩ := @Emptied.keepLeft _ _ _ layout tree root steps leaf idx parent pos leafNode
            outside outside' before after keys keysAfter s'' key rung emptied'
          have rowEq : (Item.lead before (keys ++ [key])).flatMap (sublevel tree.node steps) =
              (Item.row before keys).flatMap (sublevel tree.node steps) ++ [.sep key] := by
            have paired := rung.before_paired
            rw [List.length_append, List.length_singleton] at paired
            rw [lead_row key paired, List.flatMap_append]
            rfl
          rw [rowEq, List.append_nil]
          refine ⟨some parent, t', _, kept, ?_, .part (.between whole) stays ?_, fun rest => ?_⟩
          · rw [frame, RawBTree.drop, vacated]
          · rw [frame, RawBTree.drop, vacated]
            change Ledger.mk s.tree.ledger.nextId (key.id :: s.tree.ledger.dropped) = _
            rw [ledger]
            rfl
          · simp [leftCounts]

/-- The separators and children behind the path, as they go into the new node. -/
theorem Rung.joinRight {copies : List NodeIdx} {top : NodeIdx} {temp : Surgery K V}
    (rung : Rung layout tree root steps idx parent childPos outside before after keysBefore keysAfter outside')
    (same : copies.length = after.length) :
    Surgery.joinRight (some top) (tree.node parent).keys[childPos]? ((tree.node parent).keys.drop (childPos + 1)) copies
      temp = .ok (keysAfter, top :: copies, temp) := by
  have length : keysBefore.length = childPos := rung.before_paired.symm.trans rung.before_length
  have afterPaired := rung.after_paired
  rw [rung.keys_eq, ← length, List.getElem?_append_right le_rfl, Nat.sub_self, ← List.drop_drop, List.drop_left]
  cases keysAfter with
  | nil =>
      obtain rfl : copies = [] := List.length_eq_zero_iff.mp (same.trans afterPaired)
      rfl
  | cons key keysAfter =>
      have nonempty : copies.isEmpty = false := by
        cases copies with
        | nil => rw [afterPaired] at same; cases same
        | cons copy copies => rfl
      simp [Surgery.joinRight, nonempty, Surgery.expectSeparator, bind, Except.bind, pure, Except.pure]

theorem splitNodeRight_step {divided : Prop} {leftBelow : Option NodeIdx} {top : NodeIdx} {above : List (KeyObj K × V)}
    (halves : HalvesRight layout tree leaf leafNode divided above s steps idx leftBelow top outside left right leftCount
      rightCount)
    (rung : Rung layout tree root steps idx parent childPos outside before after keysBefore keysAfter outside')
    (enough : steps ≤ fuel) :
    ∃ leftAbove top' s' left' right' leftCount', s.splitNodeRight fuel parent childPos leftBelow (some top) =
        .ok (leftAbove, some top', s') ∧
      HalvesRight layout tree leaf leafNode divided above s' (steps + 1) parent leftAbove top' outside' left' right'
        leftCount' (rightCount ++ [(tree.node parent).keys.length - childPos]) ∧
      ∀ rest, leftCount' ++ leftCounts leftAbove.isSome rest =
        leftCount ++ leftCounts leftBelow.isSome ((parent, childPos) :: rest) := by
  have parentNode : s.tree.node parent = tree.node parent :=
    halves.kept.untouched parent (rung.outside_perm.symm.subset List.mem_cons_self)
  have childrenDrop : (tree.node parent).children.drop (childPos + 1) = after := by
    rw [rung.children_eq, ← rung.before_length, ← List.drop_drop, List.drop_left]
    rfl
  have onPath : leaf ∈ Item.nodes (level tree.node idx steps) := by rw [halves.level_eq]; simp
  have levelEq : level tree.node parent (steps + 1) =
      ((Item.lead before keysBefore).flatMap (sublevel tree.node steps) ++ left) ++
        .node leaf :: (right ++ (Item.trail keysAfter after).flatMap (sublevel tree.node steps)) := by
    rw [rung.level_eq, halves.level_eq]
    simp
  have trailNodes : Item.nodes ((Item.trail keysAfter after).flatMap (sublevel tree.node steps)) =
      after.flatMap (leavesUnder tree.node steps) := by
    rw [nodes_sublevels, Item.nodes_trail rung.after_paired.symm]
    rfl
  have trailFilled := @map_filledAt _ _ tree.node leaf above _ (rung.leaf_apart onPath).2
  have outsideOf : ∀ other ∈ after.flatMap (under tree.node steps), other ∈ outside := by
    intro other member
    refine rung.outside_perm.symm.subset (List.mem_append_left _ (List.mem_cons_of_mem _ ?_))
    rw [List.flatMap_append]
    exact List.mem_append_right _ member
  have unique : (after.flatMap (under tree.node steps)).Nodup := by
    have all := (List.nodup_cons.mp rung.unique).2
    rw [below_succ, rung.children_eq, List.flatMap_append, List.flatMap_cons] at all
    exact all.sublist ((List.sublist_append_right _ _).trans (List.sublist_append_right _ _))
  obtain ⟨copies, temp, copying, moved⟩ := @Surgery.deepCopyEach_moves _ _ layout tree steps fuel after
    (under s.dst.node steps top) s enough
    (fun child isChild => rung.sub.2 child (rung.beside_mem (List.mem_append_right _ isChild)))
    (fun other member => rung.beside_leaf other (by
      rw [List.flatMap_append]
      exact List.mem_append_right _ member))
    unique (fun other member => halves.kept.untouched other (outsideOf other member)) halves.chained.matched
    halves.copied.owned (fun tail isTail => by
      rw [halves.chained.ends] at isTail
      exact halves.copied.sub.leaves_subset tail (List.mem_of_getLast? isTail))
  have joined := @Rung.joinRight _ _ _ _ _ _ _ _ _ _ _ _ _ _ _ _ copies top temp rung moved.row.copied.length_eq.symm
  obtain ⟨built, s'', building, frame, copied, chained⟩ := halves.copied.growRight rung halves.chained moved
  have gone : s''.tree = s.tree.vacateAll (after.flatMap (postorder tree.node steps)) := by
    rw [frame, moved.after]
    rfl
  obtain ⟨leftAbove, t', leftCount', kept, leftFrame, up, counts⟩ := halves.kept.up rung gone
  have rightCountEq : (tree.node parent).keys.length - childPos = keysAfter.length := by rw [rung.keys_length]; omega
  rw [rightCountEq]
  refine ⟨leftAbove, built, { s'' with tree := t' }, _, _, leftCount', ?_, ⟨levelEq, up, ?_,
    ⟨chained.linked, chained.ends⟩, ?_, ?_, ?_⟩, counts⟩
  · simp only [Surgery.splitNodeRight, parentNode, childrenDrop, copying, joined, bind, Except.bind, List.isEmpty_cons,
      Bool.false_eq_true, if_false, building, kept]
    rfl
  · rw [← List.cons_append, List.map_append, trailFilled]
    exact copied
  · change s''.count = _
    rw [← List.cons_append, List.map_append, trailFilled, stored_append, stored_filled, trailNodes, ← halves.count]
    rw [frame, moved.after]
    rfl
  · change t' = { tree with arena := t'.arena, ledger := t'.ledger }
    rw [leftFrame, halves.frame]
  · change s''.dst = { tree.fresh with arena := s''.dst.arena }
    rw [frame]
    change ({ temp.dst with arena := s''.dst.arena } : RawBTree K V) = _
    rw [moved.extended.frame, halves.dstFrame]

/-- The walk from a node on the path up to the root. -/
theorem splitPathRight_halves {divided : Prop} {leftBelow : Option NodeIdx} {top : NodeIdx}
    {above : List (KeyObj K × V)} (rooted : Rooted layout tree root items) (deep : depth + steps = tree.height)
    (leads : PathTo tree.node root depth idx path) (onLevel : idx ∈ Item.nodes (level tree.node root depth))
    (whole : (under tree.node steps idx ++ outside).Perm (under tree.node tree.height root))
    (halves : HalvesRight layout tree leaf leafNode divided above s steps idx leftBelow top outside left right leftCount
      rightCount) :
    ∃ leftTop rightTop s' left' right', s.splitPathRight tree.height path leftBelow (some top) =
        .ok (leftTop, some rightTop, s') ∧
      HalvesRight layout tree leaf leafNode divided above s' tree.height root leftTop rightTop [] left' right'
        (leftCount ++ leftCounts leftBelow.isSome path) (rightCount ++ rightCounts tree.node path) := by
  induction depth generalizing steps idx path s outside left right leftBelow top leftCount rightCount with
  | zero =>
      obtain rfl : idx = root := by simpa [level] using onLevel
      obtain rfl : path = [] := leads
      obtain rfl : steps = tree.height := by omega
      obtain rfl : outside = [] := by
        have lengths := whole.length_eq
        rw [List.length_append] at lengths
        exact List.length_eq_zero_iff.mp (by omega)
      refine ⟨leftBelow, top, s, left, right, rfl, ?_⟩
      have none : leftCounts leftBelow.isSome [] = [] := by cases leftBelow <;> rfl
      rw [none, rightCounts, List.map_nil, List.append_nil, List.append_nil]
      exact halves
  | succ depth ih =>
      obtain ⟨parent, childPos, rest, rfl⟩ : ∃ parent childPos rest, path = (parent, childPos) :: rest :=
        leads.imp fun _ => Exists.imp fun _ => Exists.imp fun _ => And.left
      obtain ⟨isParent, leads', before, after, keysBefore, keysAfter, outside', rung⟩ := rooted.rung deep leads whole
      obtain ⟨leftAbove, top₁, s₁, left₁, right₁, leftCount₁, stepped, halves₁, counts⟩ :=
        splitNodeRight_step halves rung (show steps ≤ tree.height by omega)
      obtain ⟨leftTop, rightTop, s', left', right', walked, halves'⟩ := ih (by omega) leads' isParent rung.whole halves₁
      refine ⟨leftTop, rightTop, s', left', right', ?_, ?_⟩
      · simp only [Surgery.splitPathRight, stepped, bind, Except.bind]
        exact walked
      · rw [counts, List.append_assoc] at halves'
        exact halves'

end MovingRight

end Optimap.FlatBTree
