import Optimap.FlatBTree.RangePositions

/-!
# What a range yields

The walk of a range stops where it meets the leaf of the end bound. The range is
exact unless the search for a bound gave up at an empty leaf, or the walk starts
behind the leaf it should stop in.
-/

set_option autoImplicit false
set_option linter.unusedSectionVars false

namespace Optimap.FlatBTree

open Lib

variable {K V : Type} [LinearOrder K] {layout : NodeLayout} {tree : RawBTree K V} {root : NodeIdx}
  {items : List (LevelItem K)}

section Walk

/-- The entries of a chain up to a position. -/
def upTo (tree : RawBTree K V) (stop : Position) : List NodeIdx → List (KeyObj K × V)
  | [] => []
  | leaf :: leaves =>
      if stop.1 = some leaf then (tree.node leaf).entries.take stop.2
      else (tree.node leaf).entries ++ upTo tree stop leaves

/-- The iterator stands in the chain in front of these entries. -/
structure RangeIter.Stands (tree : RawBTree K V) (iter : RangeIter) (leaves : List NodeIdx)
    (rest : List (KeyObj K × V)) : Prop where
  current : iter.currentLeaf = leaves.head?
  threads : Threads (fun idx => (tree.node idx).next) leaves
  rest_eq : (upTo tree (iter.endLeaf, iter.endIdx) leaves).drop iter.currentIdx = rest
  inside : ∀ leaf ∈ leaves.head?, iter.currentIdx ≤ (tree.node leaf).entries.length
  stop_inside : ∀ leaf ∈ iter.endLeaf, iter.endIdx ≤ (tree.node leaf).entries.length

theorem RangeIter.Stands.next_spec {leaves : List NodeIdx} {rest : List (KeyObj K × V)} {iter : RangeIter}
    {fuel : Nat} (stands : iter.Stands tree leaves rest) (enough : leaves.length < fuel) :
    (rest = [] ∧ ∃ iter', iter.next tree fuel = .ok (none, iter')) ∨
      ∃ entry rest' iter' leaves', rest = entry :: rest' ∧
        iter.next tree fuel = .ok (some (entry.1.key, entry.2), iter') ∧
        iter'.Stands tree leaves' rest' ∧ leaves'.length ≤ leaves.length := by
  obtain ⟨fuel, rfl⟩ := Nat.exists_eq_add_one_of_ne_zero (Nat.ne_zero_of_lt enough)
  induction leaves generalizing iter fuel with
  | nil =>
      have current : iter.currentLeaf = none := stands.current
      refine .inl ⟨?_, iter, ?_⟩
      · rw [← stands.rest_eq]
        simp [upTo]
      · rw [RangeIter.next, current]
  | cons leaf leaves ih =>
      obtain ⟨forward, threads⟩ := stands.threads
      have current : iter.currentLeaf = some leaf := stands.current
      have inside : iter.currentIdx ≤ (tree.node leaf).entries.length := stands.inside leaf rfl
      have restEq := stands.rest_eq
      rw [upTo] at restEq
      by_cases stopped : iter.endLeaf = some leaf ∧ iter.endIdx ≤ iter.currentIdx
      · refine .inl ⟨?_, { iter with currentLeaf := none }, ?_⟩
        · rw [← restEq, if_pos stopped.1, List.drop_eq_nil_iff, List.length_take]
          exact (Nat.min_le_left _ _).trans stopped.2
        · rw [RangeIter.next, current]
          simp only [if_pos stopped]
      · cases found : (tree.node leaf).entries[iter.currentIdx]? with
        | some entry =>
            obtain ⟨bound, entryEq⟩ := List.getElem?_eq_some_iff.mp found
            have headRest : rest = entry :: (upTo tree (iter.endLeaf, iter.endIdx) (leaf :: leaves)).drop
                (iter.currentIdx + 1) := by
              rw [← stands.rest_eq, upTo]
              split
              · next isEnd =>
                  have room : iter.currentIdx < iter.endIdx := by
                    by_contra past
                    exact stopped ⟨isEnd, not_lt.mp past⟩
                  rw [List.drop_eq_getElem_cons (by rw [List.length_take]; omega), List.getElem_take, entryEq]
              · rw [List.drop_eq_getElem_cons (by rw [List.length_append]; omega),
                  List.getElem_append_left bound, entryEq]
            refine .inr ⟨entry, _, { iter with currentIdx := iter.currentIdx + 1 }, leaf :: leaves, headRest, ?_,
              ⟨current, stands.threads, rfl, ?_, stands.stop_inside⟩, le_rfl⟩
            · rw [RangeIter.next, current]
              simp only [if_neg stopped, found]
            · rintro other ⟨⟩
              exact Nat.succ_le_of_lt bound
        | none =>
            have atEnd : (tree.node leaf).entries.length ≤ iter.currentIdx := List.getElem?_eq_none_iff.mp found
            have elsewhere : iter.endLeaf ≠ some leaf := by
              intro isEnd
              exact stopped ⟨isEnd, (stands.stop_inside leaf isEnd).trans atEnd⟩
            have moved : RangeIter.Stands tree { iter with
                currentLeaf := (tree.node leaf).next, currentIdx := 0 } leaves rest := by
              refine ⟨forward, threads, ?_, fun _ _ => Nat.zero_le _, stands.stop_inside⟩
              rw [← restEq, if_neg elsewhere, List.drop_append_of_le_length inside, List.drop_eq_nil_of_le atEnd]
              rfl
            have step : iter.next tree (fuel + 1) = RangeIter.next tree fuel { iter with
                currentLeaf := (tree.node leaf).next, currentIdx := 0 } := by
              rw [RangeIter.next, current]
              simp only [if_neg stopped, found]
            rw [step]
            simp only [List.length_cons] at enough
            obtain ⟨fuel, rfl⟩ := Nat.exists_eq_add_one_of_ne_zero (show fuel ≠ 0 by omega)
            rcases ih moved fuel (by omega) with finished | ⟨entry, rest', iter', leaves', headRest, more⟩
            · exact .inl finished
            · exact .inr ⟨entry, rest', iter', leaves', headRest, more.1, more.2.1,
                more.2.2.trans (Nat.le_succ _)⟩

theorem RangeIter.Stands.collect_eq {leaves : List NodeIdx} {rest : List (KeyObj K × V)} {iter : RangeIter}
    {fuel : Nat} (stands : iter.Stands tree leaves rest) (enough : leaves.length ≤ tree.arena.len)
    (long : rest.length < fuel) :
    iter.collect tree fuel = .ok (rest.map fun entry => (entry.1.key, entry.2)) := by
  induction fuel generalizing leaves rest iter with
  | zero => omega
  | succ fuel ih =>
      rcases stands.next_spec (Nat.lt_succ_of_le enough) with ⟨rfl, iter', returned⟩ |
        ⟨entry, rest', iter', leaves', rfl, returned, more⟩
      · simp only [RangeIter.collect, returned, bind, Except.bind]
        rfl
      · have later := ih more.1 (more.2.trans enough) (by simp only [List.length_cons] at long; omega)
        simp only [RangeIter.collect, returned, bind, Except.bind, later]
        rfl

/-- One leaf comes strictly before another. -/
def Precedes (leaves : List NodeIdx) (left right : Option NodeIdx) : Prop :=
  ∃ first second before between after, left = some first ∧ right = some second ∧
    leaves = before ++ first :: (between ++ second :: after)

theorem upTo_of_notMem {stop : Position} {leaves : List NodeIdx} (elsewhere : ∀ leaf ∈ leaves, stop.1 ≠ some leaf) :
    upTo tree stop leaves = chainEntries tree leaves := by
  induction leaves with
  | nil => rfl
  | cons leaf leaves ih =>
      rw [upTo, if_neg (elsewhere leaf List.mem_cons_self),
        ih fun other member => elsewhere other (List.mem_cons_of_mem _ member), chainEntries_cons]

theorem upTo_split {leaf : NodeIdx} {idx : Nat} {before after : List NodeIdx} (apart : leaf ∉ before) :
    upTo tree (some leaf, idx) (before ++ leaf :: after) =
      chainEntries tree before ++ (tree.node leaf).entries.take idx := by
  induction before with
  | nil => simp [upTo, chainEntries]
  | cons other before ih =>
      rw [List.mem_cons, not_or] at apart
      rw [List.cons_append, upTo, if_neg (by simpa using apart.1), ih apart.2, chainEntries_cons,
        List.append_assoc]

/-- What the walk yields between two positions. -/
theorem Splits.walk {leaves : List NodeIdx} {start stop : Position}
    {passed rest reached beyond : List (KeyObj K × V)} (unique : leaves.Nodup)
    (threads : Threads (fun idx => (tree.node idx).next) leaves)
    (first : Splits tree leaves start passed rest) (last : Splits tree leaves stop reached beyond) :
    ∃ cells yielded, RangeIter.Stands tree ⟨start.1, start.2, stop.1, stop.2⟩ cells yielded ∧
      cells.length ≤ leaves.length ∧
      (¬ Precedes leaves stop.1 start.1 → yielded = reached.drop passed.length) ∧
      (Precedes leaves stop.1 start.1 → yielded = rest ∧ reached.length ≤ passed.length) := by
  have stopInside : ∀ leaf ∈ stop.1, stop.2 ≤ (tree.node leaf).entries.length := by
    cases last with
    | finish => simp
    | inside split bound =>
        rintro leaf ⟨⟩
        exact bound
  have lastWhole := last.whole
  cases first with
  | finish =>
      refine ⟨[], [], ⟨rfl, trivial, by simp [upTo], by simp, stopInside⟩, Nat.zero_le _, fun _ => ?_, ?_⟩
      · rw [List.drop_eq_nil_of_le]
        rw [lastWhole, List.length_append]
        omega
      · rintro ⟨_, _, _, _, _, _, isNone, _⟩
        simp at isNone
  | @inside before after leaf idx split bound =>
      have passedLength : (chainEntries tree before ++ (tree.node leaf).entries.take idx).length =
          (chainEntries tree before).length + idx := by
        rw [List.length_append, List.length_take, Nat.min_eq_left bound]
      have threadsHere : Threads (fun idx => (tree.node idx).next) (leaf :: after) := by
        rw [split] at threads
        exact threads.suffix
      refine ⟨leaf :: after, _, ⟨rfl, threadsHere, rfl, ?_, stopInside⟩, ?_, ?_, ?_⟩
      · rintro other ⟨⟩
        exact bound
      · rw [split, List.length_append]
        omega
      · intro behind
        cases last with
        | finish =>
            rw [upTo_of_notMem (by simp), split, chainEntries_append, passedLength, List.drop_length_add_append]
        | @inside before' after' leaf' idx' split' bound' =>
            -- the end is met in the rest of the chain
            obtain ⟨between, sameSplit⟩ : ∃ between, leaf :: after = between ++ leaf' :: after' ∧
                before' = before ++ between := by
              rw [split, List.append_eq_append_iff] at split'
              rcases split' with ⟨between, beforeEq, restEq⟩ | ⟨between, beforeEq, restEq⟩
              · exact ⟨between, restEq, beforeEq⟩
              · cases between with
                | nil => exact ⟨[], by simpa using restEq.symm, by simpa using beforeEq.symm⟩
                | cons head between =>
                    simp only [List.cons_append, List.cons.injEq] at restEq
                    obtain ⟨rfl, restEq⟩ := restEq
                    refine absurd ⟨leaf', leaf, before', between, after, rfl, rfl, ?_⟩ behind
                    rw [split, beforeEq]
                    simp
            obtain ⟨restEq, rfl⟩ := sameSplit
            have apart : leaf' ∉ between := by
              rw [split, restEq] at unique
              intro member
              have inner := (List.nodup_append.mp unique).2.1
              exact (List.nodup_append.mp inner).2.2 leaf' member leaf' List.mem_cons_self rfl
            rw [restEq, upTo_split apart, passedLength, chainEntries_append, List.append_assoc,
              List.drop_length_add_append]
      · rintro ⟨_, _, before', between, after', isStop, isStart, order⟩
        obtain rfl := Option.some.inj isStart
        cases last with
        | finish => simp at isStop
        | @inside before'' after'' leaf' idx' split' bound' =>
            obtain rfl := Option.some.inj isStop
            have sameBefore : before = before' ++ leaf' :: between ∧ after = after' := by
              have equal : before ++ leaf :: after = (before' ++ leaf' :: between) ++ leaf :: after' := by
                rw [← split, order]
                simp
              rw [split] at unique
              exact unique_split unique equal
            have sameBefore' : before'' = before' ∧ after'' = between ++ leaf :: after' := by
              rw [split'] at unique
              exact unique_split unique (split'.symm.trans order)
            obtain ⟨rfl, rfl⟩ := sameBefore
            obtain ⟨rfl, rfl⟩ := sameBefore'
            refine ⟨?_, ?_⟩
            · rw [upTo_of_notMem, chainEntries_cons, List.drop_append_of_le_length bound]
              intro other member same
              obtain rfl := Option.some.inj same
              rw [split] at unique
              exact (List.nodup_append.mp unique).2.2 leaf' (by simp) leaf' member rfl
            · rw [passedLength, List.length_append, List.length_take, chainEntries_append, chainEntries_cons,
                List.length_append, List.length_append]
              omega

end Walk

section Law

namespace Bound

/-- The key is not before the start. -/
def AdmitsStart : Bound K → K → Prop
  | .included bound, key => bound ≤ key
  | .excluded bound, key => bound < key
  | .unbounded, _ => True

/-- The key is not past the end. -/
def AdmitsEnd : Bound K → K → Prop
  | .included bound, key => key ≤ bound
  | .excluded bound, key => key < bound
  | .unbounded, _ => True

instance (bound : Bound K) : DecidablePred bound.AdmitsStart := fun key =>
  match bound with
  | .included bound => inferInstanceAs (Decidable (bound ≤ key))
  | .excluded bound => inferInstanceAs (Decidable (bound < key))
  | .unbounded => isTrue trivial

instance (bound : Bound K) : DecidablePred bound.AdmitsEnd := fun key =>
  match bound with
  | .included bound => inferInstanceAs (Decidable (key ≤ bound))
  | .excluded bound => inferInstanceAs (Decidable (key < bound))
  | .unbounded => isTrue trivial

/-- The search for the bound stops at an empty leaf. -/
def Overlooked (tree : RawBTree K V) : Bound K → Prop
  | .included key | .excluded key => Overlooks tree key
  | .unbounded => False

/-- The leaf a range starts in. -/
def startAnchor (tree : RawBTree K V) : Bound K → Option NodeIdx
  | .included key => tree.anchor false key
  | .excluded key => tree.anchor true key
  | .unbounded => tree.leaves.head?

/-- The leaf a range has to stop in. -/
def endAnchor (tree : RawBTree K V) : Bound K → Option NodeIdx
  | .included key => tree.anchor true key
  | .excluded key => tree.anchor false key
  | .unbounded => none

end Bound

theorem Standing.leaves_eq (standing : Standing layout tree root items) : tree.leaves = Item.nodes items := by
  rw [RawBTree.leaves, standing.readable.root_eq]
  simp only
  rw [standing.readable.level_eq]

theorem Resolved.imp {leaves : List NodeIdx} {low low' : K → Prop} {pos : Position}
    {passed rest : List (KeyObj K × V)} (resolved : Resolved tree leaves low pos passed rest)
    (same : ∀ key, low key ↔ low' key) : Resolved tree leaves low' pos passed rest :=
  ⟨resolved.splits, fun entry member => (same _).mp (resolved.passed_low entry member),
    fun entry member isLow => resolved.rest_high entry member ((same _).mpr isLow)⟩

theorem Standing.start_resolved (standing : Standing layout tree root items) {start : Bound K}
    (sound : ¬ start.Overlooked tree) :
    ∃ pos passed rest, tree.startPosition start = .ok pos ∧ pos.1 = start.startAnchor tree ∧
      Resolved tree (Item.nodes items) (fun key => ¬ start.AdmitsStart key) pos passed rest := by
  cases start with
  | included key =>
      obtain ⟨found, passed, rest, searched, anchored, resolved⟩ := standing.position_resolved sound
      refine ⟨RawBTree.position found, passed, rest, ?_, anchored, resolved.imp fun _ => not_le.symm⟩
      simp only [RawBTree.startPosition, searched, bind, Except.bind]
      rfl
  | excluded key =>
      obtain ⟨found, pos, passed, rest, searched, placed, anchored, resolved⟩ :=
        standing.positionAfter_resolved sound
      refine ⟨pos, passed, rest, ?_, anchored, resolved.imp fun _ => not_lt.symm⟩
      simp only [RawBTree.startPosition, searched, bind, Except.bind, placed]
  | unbounded =>
      have firstEq := standing.row.first
      cases row : Item.nodes items with
      | nil =>
          refine ⟨(none, 0), _, [], ?_, ?_, .finish, by simp [chainEntries], by simp⟩
          · rw [RawBTree.startPosition, firstEq, row]
            rfl
          · rw [Bound.startAnchor, standing.leaves_eq, row]
            rfl
      | cons first others =>
          have inside := @Splits.inside _ _ tree (first :: others) [] others first 0 rfl (Nat.zero_le _)
          refine ⟨(some first, 0), _, _, ?_, ?_, inside, by simp [chainEntries], by simp [Bound.AdmitsStart]⟩
          · rw [RawBTree.startPosition, firstEq, row]
            rfl
          · rw [Bound.startAnchor, standing.leaves_eq, row]
            rfl

theorem Standing.end_resolved (standing : Standing layout tree root items) {stop : Bound K}
    (sound : ¬ stop.Overlooked tree) :
    ∃ pos passed rest, tree.endPosition stop = .ok pos ∧ pos.1 = stop.endAnchor tree ∧
      Resolved tree (Item.nodes items) stop.AdmitsEnd pos passed rest := by
  cases stop with
  | included key =>
      obtain ⟨found, pos, passed, rest, searched, placed, anchored, resolved⟩ :=
        standing.positionAfter_resolved sound
      refine ⟨pos, passed, rest, ?_, anchored, resolved⟩
      simp only [RawBTree.endPosition, searched, bind, Except.bind, placed]
  | excluded key =>
      obtain ⟨found, passed, rest, searched, anchored, resolved⟩ := standing.position_resolved sound
      refine ⟨RawBTree.position found, passed, rest, ?_, anchored, resolved⟩
      simp only [RawBTree.endPosition, searched, bind, Except.bind]
      rfl
  | unbounded =>
      exact ⟨(none, 0), _, [], rfl, rfl, .finish, fun _ _ => trivial, by simp⟩

theorem Standing.start_overlooked (standing : Standing layout tree root items) {start : Bound K}
    (overlooked : start.Overlooked tree) : tree.startPosition start = .ok (none, 0) := by
  cases start with
  | included key =>
      simp only [RawBTree.startPosition, standing.lowerBound_overlooks overlooked, bind, Except.bind]
      rfl
  | excluded key =>
      simp only [RawBTree.startPosition, standing.lowerBound_overlooks overlooked, bind, Except.bind]
      rfl
  | unbounded => exact overlooked.elim

theorem Standing.end_overlooked (standing : Standing layout tree root items) {stop : Bound K}
    (overlooked : stop.Overlooked tree) : tree.endPosition stop = .ok (none, 0) := by
  cases stop with
  | included key =>
      simp only [RawBTree.endPosition, standing.lowerBound_overlooks overlooked, bind, Except.bind]
      rfl
  | excluded key =>
      simp only [RawBTree.endPosition, standing.lowerBound_overlooks overlooked, bind, Except.bind]
      rfl
  | unbounded => exact overlooked.elim

/-- The range between two resolved positions. -/
theorem Standing.range_walk (standing : Standing layout tree root items) {start stop : Bound K}
    {first last : Position} {passed rest reached beyond : List (KeyObj K × V)}
    (started : tree.startPosition start = .ok first) (stopped : tree.endPosition stop = .ok last)
    (atStart : Splits tree (Item.nodes items) first passed rest)
    (atEnd : Splits tree (Item.nodes items) last reached beyond) :
    ∃ yielded, tree.range start stop = .ok (yielded.map fun entry => (entry.1.key, entry.2)) ∧
      (¬ Precedes (Item.nodes items) last.1 first.1 → yielded = reached.drop passed.length) ∧
      (Precedes (Item.nodes items) last.1 first.1 → yielded = rest ∧ reached.length ≤ passed.length) := by
  obtain ⟨cells, yielded, stands, fewer, forward, backward⟩ :=
    atStart.walk standing.nodes_nodup standing.row.linked.threads_next atEnd
  refine ⟨yielded, ?_, forward, backward⟩
  have counted : tree.len = (chainEntries tree (Item.nodes items)).length := by
    rw [standing.row.len, nodes_marks, chainEntries]
  have short : yielded.length ≤ tree.len := by
    by_cases order : Precedes (Item.nodes items) last.1 first.1
    · rw [(backward order).1, counted, atStart.whole, List.length_append]
      omega
    · rw [forward order, counted, atEnd.whole, List.length_append, List.length_drop]
      omega
  have collected := stands.collect_eq (fewer.trans standing.length_le) (Nat.lt_succ_of_le short)
  simp only [RawBTree.range, RawBTree.rangeIter, RawBTree.resolveRangeBounds, started, stopped, bind, Except.bind]
  exact collected

/-- The stored entries within both bounds. -/
def RawBTree.within (tree : RawBTree K V) (start stop : Bound K) : List (K × V) :=
  tree.toList.filter fun entry => decide (start.AdmitsStart entry.1) && decide (stop.AdmitsEnd entry.1)

/-- `range` and `range_mut` yield exactly the stored entries within the bounds, each
once and in ascending order. -/
def RangeExact (tree : RawBTree K V) (start stop : Bound K) : Prop :=
  tree.range start stop = .ok (tree.within start stop) ∧ tree.rangeMut start stop = .ok (tree.within start stop)

/-- No harm is done by a search that stops at an empty leaf, nor by a start behind
the leaf of the end. -/
structure RangeSound (tree : RawBTree K V) (start stop : Bound K) : Prop where
  /-- The range then yields nothing. -/
  start_found : start.Overlooked tree →
    ∀ entry ∈ tree.toList, start.AdmitsStart entry.1 → ¬ stop.AdmitsEnd entry.1
  /-- The range then has no end. -/
  end_found : ¬ start.Overlooked tree → stop.Overlooked tree →
    ∀ entry ∈ tree.toList, start.AdmitsStart entry.1 → stop.AdmitsEnd entry.1
  /-- The walk then never meets the leaf it should stop in. -/
  ordered : ¬ start.Overlooked tree → ¬ stop.Overlooked tree →
    Precedes tree.leaves (stop.endAnchor tree) (start.startAnchor tree) →
    ∀ entry ∈ tree.toList, ¬ start.AdmitsStart entry.1

theorem Standing.toList_eq (standing : Standing layout tree root items) :
    tree.toList = (chainEntries tree (Item.nodes items)).map fun entry => (entry.1.key, entry.2) := by
  rw [RawBTree.toList, standing.readable.root_eq]
  simp only [entriesUnder, standing.readable.level_eq]
  rfl

section Filters
variable {passed rest reached beyond : List (KeyObj K × V)} {start stop : Bound K}

/-- The entries within the bounds, seen from the start. -/
theorem Standing.within_eq (standing : Standing layout tree root items) {pos : Position}
    (resolved : Resolved tree (Item.nodes items) (fun key => ¬ start.AdmitsStart key) pos passed rest) :
    tree.within start stop =
      (rest.filter fun entry => decide (stop.AdmitsEnd entry.1.key)).map fun entry => (entry.1.key, entry.2) := by
  have none : passed.filter (fun entry => decide (start.AdmitsStart entry.1.key) &&
      decide (stop.AdmitsEnd entry.1.key)) = [] := by
    rw [List.filter_eq_nil_iff]
    intro entry member
    simp [resolved.passed_low entry member]
  have all : rest.filter (fun entry => decide (start.AdmitsStart entry.1.key) &&
      decide (stop.AdmitsEnd entry.1.key)) = rest.filter fun entry => decide (stop.AdmitsEnd entry.1.key) := by
    refine List.filter_congr fun entry member => ?_
    simp [not_not.mp (resolved.rest_high entry member)]
  rw [RawBTree.within, standing.toList_eq, List.filter_map, resolved.splits.whole]
  simp only [Function.comp_def, List.filter_append, none, all, List.nil_append]

theorem filter_beyond (whole : passed ++ rest = reached ++ beyond)
    (inner : ∀ entry ∈ reached, stop.AdmitsEnd entry.1.key)
    (outer : ∀ entry ∈ beyond, ¬ stop.AdmitsEnd entry.1.key) :
    (rest.filter fun entry => decide (stop.AdmitsEnd entry.1.key)) = reached.drop passed.length := by
  have restEq : rest = reached.drop passed.length ++ beyond.drop (passed.length - reached.length) := by
    rw [← List.drop_append, ← whole, List.drop_left]
  rw [restEq, List.filter_append, List.filter_eq_self.mpr, List.filter_eq_nil_iff.mpr, List.append_nil]
  · exact fun entry member => by simpa using outer entry (List.mem_of_mem_drop member)
  · exact fun entry member => by simpa using inner entry (List.mem_of_mem_drop member)

theorem Standing.mem_toList (standing : Standing layout tree root items) {pos : Position}
    (splits : Splits tree (Item.nodes items) pos passed rest) {entry : K × V} :
    entry ∈ tree.toList ↔ ∃ stored ∈ passed ++ rest, (stored.1.key, stored.2) = entry := by
  rw [standing.toList_eq, splits.whole, List.mem_map]

end Filters

theorem Standing.range_iff (standing : Standing layout tree root items) (start stop : Bound K) :
    tree.range start stop = .ok (tree.within start stop) ↔ RangeSound tree start stop := by
  by_cases startOver : start.Overlooked tree
  · -- the range is empty
    have started := standing.start_overlooked startOver
    obtain ⟨last, reached, beyond, stopped, atEnd⟩ : ∃ last reached beyond, tree.endPosition stop = .ok last ∧
        Splits tree (Item.nodes items) last reached beyond := by
      by_cases stopOver : stop.Overlooked tree
      · exact ⟨_, _, _, standing.end_overlooked stopOver, .finish⟩
      · obtain ⟨last, reached, beyond, stopped, _, resolved⟩ := standing.end_resolved stopOver
        exact ⟨last, reached, beyond, stopped, resolved.splits⟩
    obtain ⟨yielded, ranged, forward, _⟩ := standing.range_walk started stopped .finish atEnd
    have nothing : yielded = [] := by
      rw [forward]
      · rw [List.drop_eq_nil_of_le]
        rw [atEnd.whole, List.length_append]
        omega
      · rintro ⟨_, _, _, _, _, _, isNone, _⟩
        simp at isNone
    rw [ranged, nothing, List.map_nil, Except.ok.injEq, eq_comm, RawBTree.within, List.filter_eq_nil_iff]
    constructor
    · intro empty
      refine ⟨fun _ entry member admits past => empty entry member ?_, fun found => absurd startOver found,
        fun found => absurd startOver found⟩
      simp [admits, past]
    · intro sound entry member
      have outside := sound.start_found startOver entry member
      simpa using outside
  · obtain ⟨first, passed, rest, started, startAnchor, atStart⟩ := standing.start_resolved startOver
    have within := @Standing.within_eq _ _ _ _ _ _ _ passed rest start stop standing _ atStart
    have members := @Standing.mem_toList _ _ _ _ _ _ _ passed rest standing _ atStart.splits
    have startPassed := atStart.passed_low
    have startRest := atStart.rest_high
    have exactIff : ∀ yielded : List (KeyObj K × V), yielded = rest →
        (Except.ok (yielded.map fun entry => (entry.1.key, entry.2)) =
          (Except.ok (tree.within start stop) : Result _) ↔
            ∀ entry ∈ rest, stop.AdmitsEnd entry.1.key) := by
      rintro yielded rfl
      rw [Except.ok.injEq, within]
      constructor
      · intro same entry member
        have lengths := congrArg List.length same
        rw [List.length_map, List.length_map] at lengths
        simpa using List.length_filter_eq_length_iff.mp lengths.symm entry member
      · intro all
        rw [List.filter_eq_self.mpr fun entry member => by simpa using all entry member]
    by_cases stopOver : stop.Overlooked tree
    · -- the range has no end
      obtain ⟨yielded, ranged, forward, _⟩ :=
        standing.range_walk started (standing.end_overlooked stopOver) atStart.splits .finish
      have everything : yielded = rest := by
        rw [forward, atStart.splits.whole, List.drop_left]
        rintro ⟨_, _, _, _, _, isNone, _⟩
        simp at isNone
      rw [ranged, exactIff yielded everything]
      constructor
      · intro all
        refine ⟨fun found => absurd found startOver, fun _ _ entry member admits => ?_,
          fun _ found => absurd stopOver found⟩
        obtain ⟨stored, inChain, rfl⟩ := members.mp member
        rcases List.mem_append.mp inChain with before | after
        · exact absurd admits (startPassed stored before)
        · exact all stored after
      · intro sound entry member
        exact sound.end_found startOver stopOver (entry.1.key, entry.2)
          (members.mpr ⟨entry, List.mem_append_right _ member, rfl⟩) (not_not.mp (startRest entry member))
    · obtain ⟨last, reached, beyond, stopped, endAnchor, atEnd⟩ := standing.end_resolved stopOver
      obtain ⟨yielded, ranged, forward, backward⟩ :=
        standing.range_walk started stopped atStart.splits atEnd.splits
      have whole : passed ++ rest = reached ++ beyond := by rw [← atStart.splits.whole, atEnd.splits.whole]
      have filtered := filter_beyond whole atEnd.passed_low atEnd.rest_high
      rw [← standing.leaves_eq, endAnchor, startAnchor] at forward backward
      by_cases order : Precedes tree.leaves (stop.endAnchor tree) (start.startAnchor tree)
      · -- the end lies in an earlier leaf: everything from the start on
        obtain ⟨everything, shorter⟩ := backward order
        rw [List.drop_eq_nil_of_le shorter] at filtered
        rw [ranged, exactIff yielded everything]
        have noneAdmitted : ∀ entry ∈ rest, ¬ stop.AdmitsEnd entry.1.key := by
          intro entry member
          have out := List.filter_eq_nil_iff.mp filtered entry member
          simpa using out
        constructor
        · intro all
          refine ⟨fun found => absurd found startOver, fun _ found => absurd found stopOver,
            fun _ _ _ entry member admits => ?_⟩
          obtain ⟨stored, inChain, rfl⟩ := members.mp member
          rcases List.mem_append.mp inChain with before | after
          · exact startPassed stored before admits
          · exact noneAdmitted stored after (all stored after)
        · intro sound entry member
          exact absurd (not_not.mp (startRest entry member)) (sound.ordered startOver stopOver order
            (entry.1.key, entry.2) (members.mpr ⟨entry, List.mem_append_right _ member, rfl⟩))
      · rw [ranged, forward order, within, filtered]
        refine iff_of_true rfl ⟨fun found => absurd found startOver, fun _ found => absurd found stopOver,
          fun _ _ found => absurd found order⟩

end Law

section Reachable

/-- Trees that any sequence of operations leads to, from the empty tree or from
one that was built without a lone node. -/
inductive Tended (layout : NodeLayout) : RawBTree K V → Prop where
  | new : Tended layout .new
  | fromIter {pairs : List (K × V)} {tree : RawBTree K V} (loaded : RawBTree.fromIter layout pairs = .ok tree)
      (even : EvenLevels layout (RawBTree.sortPairs pairs).length) : Tended layout tree
  | apply {tree tree' : RawBTree K V} {op : MapOp K V} {reply : MapReply K V} (tended : Tended layout tree)
      (applied : tree.apply layout op = .ok (reply, tree')) : Tended layout tree'
  | retain {S : Type} {tree tree' : RawBTree K V} {visit : RawBTree.Visit S K V} {state state' : S}
      (tended : Tended layout tree) (retained : tree.retain visit state = .ok (state', tree')) :
      Tended layout tree'

/-- These, and every tree as it was built. -/
def Reached (layout : NodeLayout) (tree : RawBTree K V) : Prop :=
  Tended layout tree ∨ ∃ pairs, RawBTree.fromIter layout pairs = .ok tree

theorem Tended.holds (tended : Tended layout tree) : ∃ held, Holds layout tree held := by
  induction tended with
  | new => exact ⟨[], .vacant new_vacant⟩
  | @fromIter pairs tree loaded even =>
      rw [RawBTree.fromIter] at loaded
      rcases bulkLoad_cases layout (sortPairs_lookup pairs).1 with ⟨_, made⟩ | ⟨tree', root, items, made, packed⟩
      · rw [made] at loaded
        obtain rfl := Except.ok.inj loaded
        exact ⟨[], .vacant new_vacant⟩
      · rw [made] at loaded
        obtain rfl := Except.ok.inj loaded
        exact ⟨_, .rooted (packed.toRooted even)⟩
  | @apply tree tree' op reply _ applied ih =>
      obtain ⟨held, holds⟩ := ih
      obtain ⟨after, held', returned, holds', _⟩ :=
        @Holds.apply _ _ _ _ _ _ ⟨contents held, holds.sorted.ascending⟩ holds rfl op
      rw [returned] at applied
      obtain ⟨_, rfl⟩ := Prod.mk.inj (Except.ok.inj applied)
      exact ⟨held', holds'⟩
  | @retain S tree tree' visit state state' _ retained ih =>
      obtain ⟨held, holds⟩ := ih
      obtain ⟨after, held', returned, holds', _⟩ := holds.retain visit state
      rw [returned] at retained
      obtain ⟨_, rfl⟩ := Prod.mk.inj (Except.ok.inj retained)
      exact ⟨held', holds'⟩

theorem Tended.run (tended : Tended layout tree) {ops : List (MapOp K V)}
    {outcome : List (MapReply K V) × RawBTree K V} (ran : RawBTree.run layout ops tree = .ok outcome) :
    Tended layout outcome.2 := by
  induction ops generalizing tree outcome with
  | nil =>
      obtain rfl := Except.ok.inj ran
      exact tended
  | cons op ops ih =>
      cases applied : tree.apply layout op with
      | error fault => simp [RawBTree.run, applied, bind, Except.bind] at ran
      | ok step =>
          cases later : RawBTree.run layout ops step.2 with
          | error fault => simp [RawBTree.run, applied, later, bind, Except.bind] at ran
          | ok final =>
              simp only [RawBTree.run, applied, later, bind, Except.bind] at ran
              obtain rfl := Except.ok.inj ran
              have final := ih (tended.apply applied) later
              exact final

/-- A reachable tree is empty, well formed, or as it was packed. -/
theorem Reached.forms (reached : Reached layout tree) :
    Vacant tree ∨ (∃ root items, Rooted layout tree root items) ∨
      ∃ root items pairs, Packed layout tree root items pairs := by
  rcases reached with tended | ⟨pairs, loaded⟩
  · obtain ⟨held, holds⟩ := tended.holds
    cases holds with
    | vacant empty => exact .inl empty
    | @rooted root items rooted => exact .inr (.inl ⟨root, items, rooted⟩)
  · rw [RawBTree.fromIter] at loaded
    rcases bulkLoad_cases layout (sortPairs_lookup pairs).1 with ⟨_, made⟩ | ⟨tree', root, items, made, packed⟩
    · rw [made] at loaded
      obtain rfl := Except.ok.inj loaded
      exact .inl new_vacant
    · rw [made] at loaded
      obtain rfl := Except.ok.inj loaded
      exact .inr (.inr ⟨root, items, _, packed⟩)

/-- A reachable tree is empty or stands, with a separator in its root unless that is a
leaf. -/
theorem Reached.outline (reached : Reached layout tree) :
    Vacant tree ∨ ∃ root items, Standing layout tree root items ∧ (0 < tree.height → (tree.node root).keys ≠ []) := by
  rcases reached.forms with empty | ⟨root, items, rooted⟩ | ⟨root, items, pairs, packed⟩
  · exact .inl empty
  · refine .inr ⟨root, items, rooted.standing, fun positive => ?_⟩
    have onTop : root ∈ Item.nodes (level tree.node root 0) := by simp [level]
    exact List.length_pos_iff.mp (rooted.crownAt.crown.internal_at positive onTop).nonempty
  · exact .inr ⟨root, items, packed.standing, packed.rooted⟩

theorem Reached.cases (reached : Reached layout tree) :
    (tree.root = none ∧ tree.firstLeaf = none) ∨ ∃ root items, Standing layout tree root items := by
  cases reached.outline with
  | inl empty => exact .inl ⟨empty.root, empty.firstLeaf⟩
  | inr standing =>
      obtain ⟨root, items, standing, _⟩ := standing
      exact .inr ⟨root, items, standing⟩

theorem range_vacant (empty : tree.root = none) (noLeaf : tree.firstLeaf = none) (start stop : Bound K) :
    tree.range start stop = .ok [] := by
  have missing : ∀ key, tree.lowerBound key = .ok none := fun key => by rw [RawBTree.lowerBound, empty]
  have started : tree.startPosition start = .ok (none, 0) := by
    cases start with
    | unbounded => rw [RawBTree.startPosition, noLeaf]
    | _ key =>
        simp only [RawBTree.startPosition, missing, bind, Except.bind]
        rfl
  have stopped : tree.endPosition stop = .ok (none, 0) := by
    cases stop with
    | unbounded => rfl
    | _ key =>
        simp only [RawBTree.endPosition, missing, bind, Except.bind]
        rfl
  simp only [RawBTree.range, RawBTree.rangeIter, RawBTree.resolveRangeBounds, started, stopped, bind, Except.bind]
  rfl

end Reachable

end Optimap.FlatBTree
