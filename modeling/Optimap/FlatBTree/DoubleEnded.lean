import Optimap.FlatBTree.RangeLaw

/-!
# Iteration from both ends

The iterator of the map with its back cursor. The two cursors walk the chain of
leaves towards each other and share the count of what is still between them.
-/

set_option autoImplicit false
set_option linter.unusedSectionVars false

namespace Optimap.FlatBTree

open Lib

variable {K V : Type}

/-- `Iter` with both cursors; `backIdx` is one past the next entry from the back. -/
structure DoubleEnded extends Iter where
  backLeaf : Option NodeIdx
  backIdx : Nat

inductive End where
  | front
  | back
  deriving DecidableEq

namespace DoubleEnded

/-- `next` only moves the front cursor. -/
def next (tree : RawBTree K V) (iter : DoubleEnded) : Result (Option (K × V) × DoubleEnded) := do
  let (item, front) ← iter.toIter.next tree (tree.arena.len + 1)
  pure (item, { iter with toIter := front })

/-- The loop of `next_back`, which looks at `fuel` leaves at most. -/
def backLoop (tree : RawBTree K V) : Nat → DoubleEnded → Result (Option (K × V) × DoubleEnded)
  | 0, _ => .error .endless
  | fuel + 1, iter =>
      if iter.remaining = 0 then .ok (none, iter)
      else
        let start := if iter.backLeaf = iter.frontLeaf then iter.frontIdx else 0
        if start < iter.backIdx then do
          let leaf ← deref iter.backLeaf
          let entry ← readSlot (tree.node leaf).entries (iter.backIdx - 1)
          pure (some (entry.1.key, entry.2),
            { iter with backIdx := iter.backIdx - 1, remaining := iter.remaining - 1 })
        else do
          let leaf ← deref iter.backLeaf
          match (tree.node leaf).prev with
          | some prev =>
              backLoop tree fuel { iter with backLeaf := some prev, backIdx := (tree.node prev).entries.length }
          | none => pure (none, { iter with backLeaf := none, remaining := 0 })

def nextBack (tree : RawBTree K V) (iter : DoubleEnded) : Result (Option (K × V) × DoubleEnded) :=
  iter.backLoop tree (tree.arena.len + 1)

def step (tree : RawBTree K V) (iter : DoubleEnded) : End → Result (Option (K × V) × DoubleEnded)
  | .front => iter.next tree
  | .back => iter.nextBack tree

/-- A sequence of calls, with what each returned. -/
def run (tree : RawBTree K V) : List End → DoubleEnded → Result (List (End × Option (K × V)) × DoubleEnded)
  | [], iter => .ok ([], iter)
  | call :: calls, iter => do
      let (item, iter) ← iter.step tree call
      let (replies, iter) ← run tree calls iter
      pure ((call, item) :: replies, iter)

end DoubleEnded

/-- `iter()`. -/
def RawBTree.iterBoth (tree : RawBTree K V) : DoubleEnded where
  toIter := tree.iter
  backLeaf := tree.lastLeaf
  backIdx :=
    match tree.lastLeaf with
    | some leaf => (tree.node leaf).entries.length
    | none => 0

/-- What one end yielded, in the order of the calls. -/
def yieldedAt (side : End) (replies : List (End × Option (K × V))) : List (K × V) :=
  replies.filterMap fun reply => if reply.1 = side then reply.2 else none

/-! ## Cursors in the chain -/

section Cursors
variable [LinearOrder K] {tree : RawBTree K V} {leaves : List NodeIdx} {front middle back passed rest : List (KeyObj K × V)}
  {entry : KeyObj K × V}

theorem Splits.opened {leaf : NodeIdx} {idx : Nat} (splits : Splits tree leaves (some leaf, idx) passed rest) :
    ∃ before after, leaves = before ++ leaf :: after ∧ idx ≤ (tree.node leaf).entries.length ∧
      passed = chainEntries tree before ++ (tree.node leaf).entries.take idx ∧
      rest = (tree.node leaf).entries.drop idx ++ chainEntries tree after := by
  cases splits with
  | inside split bound => exact ⟨_, _, split, bound, rfl, rfl⟩

theorem Splits.ended {idx : Nat} (splits : Splits tree leaves (none, idx) passed rest) : rest = [] := by
  cases splits with
  | finish => rfl

/-- By induction on the leaves ahead of the cursor: empty ones are passed, and the first
entry behind the cursor is yielded. -/
theorem Iter.next_splits (linked : Linked (fun idx => (tree.node idx).prev) (fun idx => (tree.node idx).next) none
    leaves none) (fuel : Nat) :
    ∀ {iter : Iter} {before after : List NodeIdx} {leaf : NodeIdx}, iter.frontLeaf = some leaf →
      leaves = before ++ leaf :: after → iter.frontIdx ≤ (tree.node leaf).entries.length →
      (tree.node leaf).entries.drop iter.frontIdx ++ chainEntries tree after = entry :: rest →
      iter.remaining ≠ 0 → after.length < fuel →
      ∃ iter', iter.next tree fuel = .ok (some (entry.1.key, entry.2), iter') ∧
        Splits tree leaves (iter'.frontLeaf, iter'.frontIdx)
          (chainEntries tree before ++ (tree.node leaf).entries.take iter.frontIdx ++ [entry]) rest ∧
        iter'.remaining = iter.remaining - 1 := by
  induction fuel with
  | zero => intro iter before after leaf _ _ _ _ _ short; omega
  | succ fuel ih =>
      intro iter before after leaf atLeaf split inside ahead more short
      cases found : (tree.node leaf).entries[iter.frontIdx]? with
      | some head =>
          obtain ⟨bound, headEq⟩ := List.getElem?_eq_some_iff.mp found
          rw [List.drop_eq_getElem_cons bound, headEq, List.cons_append] at ahead
          obtain ⟨rfl, rfl⟩ := List.cons.inj ahead
          refine ⟨{ iter with frontIdx := iter.frontIdx + 1, remaining := iter.remaining - 1 }, ?_, ?_, rfl⟩
          · rw [Iter.next, if_neg more, atLeaf]
            simp only [deref, bind, Except.bind, found]
            rfl
          · have inner := @Splits.inside _ _ tree leaves before after leaf (iter.frontIdx + 1) split bound
            rw [List.take_add_one, found, Option.toList_some, ← List.append_assoc] at inner
            rw [atLeaf]
            exact inner
      | none =>
          have atEnd : (tree.node leaf).entries.length ≤ iter.frontIdx := List.getElem?_eq_none_iff.mp found
          rw [List.drop_eq_nil_of_le atEnd, List.nil_append] at ahead
          have around := linked
          rw [split] at around
          have forward := around.around.2
          cases after with
          | nil => cases ahead
          | cons other after =>
              have moved : (tree.node leaf).next = some other := forward
              obtain ⟨iter', yielded, splits, counted⟩ := @ih
                { iter with frontLeaf := some other, frontIdx := 0 } (before ++ [leaf]) after other rfl
                (by rw [split]; simp) (Nat.zero_le _) ahead more (by simp at short; omega)
              refine ⟨iter', ?_, ?_, counted⟩
              · rw [Iter.next, if_neg more, atLeaf]
                simp only [deref, bind, Except.bind, found, moved]
                exact yielded
              · rw [chainEntries_append, List.take_zero, List.append_nil] at splits
                rw [List.take_of_length_le atEnd]
                simpa [chainEntries] using splits

/-- By induction on the leaves behind the cursor: empty ones are passed, and the last entry
in front of it is yielded. The cursors cannot have crossed in one leaf while an entry is
left between them. -/
theorem DoubleEnded.backLoop_splits (linked : Linked (fun idx => (tree.node idx).prev)
      (fun idx => (tree.node idx).next) none leaves none) (unique : leaves.Nodup) (fuel : Nat) :
    ∀ {iter : DoubleEnded} {before after : List NodeIdx} {leaf : NodeIdx}, iter.backLeaf = some leaf →
      leaves = before ++ leaf :: after → iter.backIdx ≤ (tree.node leaf).entries.length →
      chainEntries tree before ++ (tree.node leaf).entries.take iter.backIdx = front ++ middle ++ [entry] →
      Splits tree leaves (iter.frontLeaf, iter.frontIdx) front rest → iter.remaining ≠ 0 → before.length < fuel →
      ∃ iter', iter.backLoop tree fuel = .ok (some (entry.1.key, entry.2), iter') ∧
        iter'.frontLeaf = iter.frontLeaf ∧ iter'.frontIdx = iter.frontIdx ∧ iter'.backLeaf ≠ none ∧
        Splits tree leaves (iter'.backLeaf, iter'.backIdx) (front ++ middle)
          (entry :: ((tree.node leaf).entries.drop iter.backIdx ++ chainEntries tree after)) ∧
        iter'.remaining = iter.remaining - 1 := by
  induction fuel with
  | zero => intro iter before after leaf _ _ _ _ _ _ short; omega
  | succ fuel ih =>
      intro iter before after leaf atLeaf split inside behind ahead more short
      by_cases inLeaf : (if iter.backLeaf = iter.frontLeaf then iter.frontIdx else 0) < iter.backIdx
      · obtain ⟨idx, backEq⟩ : ∃ idx, iter.backIdx = idx + 1 := ⟨iter.backIdx - 1, by omega⟩
        rw [backEq] at inside behind
        have stored : (tree.node leaf).entries[idx]? = some (tree.node leaf).entries[idx] :=
          List.getElem?_eq_getElem inside
        rw [List.take_add_one, stored, Option.toList_some, ← List.append_assoc] at behind
        obtain ⟨passedEq, lastEq⟩ := List.append_inj' behind rfl
        have entryEq : (tree.node leaf).entries[idx] = entry := List.singleton_inj.mp lastEq
        refine ⟨{ iter with backIdx := idx, remaining := iter.remaining - 1 }, ?_, rfl, rfl, by simp [atLeaf], ?_, rfl⟩
        · rw [DoubleEnded.backLoop, if_neg more, if_pos inLeaf, atLeaf, backEq, Nat.add_sub_cancel]
          simp only [deref, readSlot, bind, Except.bind, stored, entryEq]
          rfl
        · have inner := @Splits.inside _ _ tree leaves before after leaf idx split (Nat.le_of_succ_le inside)
          rw [passedEq, List.drop_eq_getElem_cons inside, entryEq, List.cons_append] at inner
          rw [atLeaf, backEq]
          exact inner
      · have apart : iter.backLeaf ≠ iter.frontLeaf := by
          intro same
          rw [if_pos same] at inLeaf
          rw [← same, atLeaf] at ahead
          obtain ⟨before', after', split', _, frontEq, _⟩ := ahead.opened
          rw [split'] at unique
          have fresh := (List.nodup_cons.mp (List.nodup_middle.mp unique)).1
          have sameBefore : before' = before :=
            ((List.append_cons_inj_of_notMem (fun member => fresh (List.mem_append_left _ member))
              fun member => fresh (List.mem_append_right _ member)).mp (split'.symm.trans split)).1
          have lengths := congrArg List.length behind
          rw [frontEq, sameBefore] at lengths
          simp only [List.length_append, List.length_take, List.length_singleton] at lengths
          omega
        rw [if_neg apart] at inLeaf
        have atStart : iter.backIdx = 0 := by omega
        rw [atStart, List.take_zero, List.append_nil] at behind
        have around := linked
        rw [split] at around
        have backward := around.around.1
        cases before using List.reverseRecOn with
        | nil => simp [chainEntries] at behind
        | append_singleton others prev =>
            have moved : (tree.node leaf).prev = some prev := by simpa using backward
            obtain ⟨iter', yielded, sameLeaf, sameIdx, some_leaf, splits, counted⟩ := @ih
              { iter with backLeaf := some prev, backIdx := (tree.node prev).entries.length } others (leaf :: after)
              prev rfl (by rw [split]; simp) le_rfl
              (by rw [← behind, chainEntries_append, List.take_length]; simp [chainEntries]) ahead more
              (by simp at short; omega)
            refine ⟨iter', ?_, sameLeaf, sameIdx, some_leaf, ?_, counted⟩
            · rw [DoubleEnded.backLoop, if_neg more, if_neg apart, if_neg inLeaf, atLeaf]
              simp only [deref, bind, Except.bind, moved]
              exact yielded
            · rw [List.drop_length, List.nil_append, chainEntries_cons] at splits
              rw [atStart, List.drop_zero]
              exact splits

/-! ## What is left between the cursors -/

/-- The chain holds what the front yielded, what is left, and what the back yielded. While
something is left, both cursors stand at its ends. -/
structure DoubleEnded.Spans (tree : RawBTree K V) (leaves : List NodeIdx) (iter : DoubleEnded)
    (front middle back : List (KeyObj K × V)) : Prop where
  whole : chainEntries tree leaves = front ++ middle ++ back
  counted : iter.remaining = middle.length
  ahead : middle ≠ [] → Splits tree leaves (iter.frontLeaf, iter.frontIdx) front (middle ++ back)
  some_back : middle ≠ [] → iter.backLeaf ≠ none
  behind : middle ≠ [] → Splits tree leaves (iter.backLeaf, iter.backIdx) (front ++ middle) back

variable {iter : DoubleEnded}

/-- Once nothing is left, both ends return `None` and stay as they are. -/
theorem DoubleEnded.Spans.exhausted (spans : iter.Spans tree leaves front [] back) (side : End) :
    iter.step tree side = .ok (none, iter) := by
  have none_left : iter.remaining = 0 := spans.counted
  cases side with
  | front =>
      rw [DoubleEnded.step, DoubleEnded.next, Iter.next, if_pos none_left]
      rfl
  | back => rw [DoubleEnded.step, DoubleEnded.nextBack, DoubleEnded.backLoop, if_pos none_left]

theorem DoubleEnded.Spans.next (spans : iter.Spans tree leaves front (entry :: middle) back)
    (linked : Linked (fun idx => (tree.node idx).prev) (fun idx => (tree.node idx).next) none leaves none)
    (enough : leaves.length ≤ tree.arena.len) :
    ∃ iter', iter.step tree .front = .ok (some (entry.1.key, entry.2), iter') ∧
      iter'.Spans tree leaves (front ++ [entry]) middle back := by
  have more : iter.remaining ≠ 0 := by
    rw [spans.counted]
    simp
  have ahead := spans.ahead (by simp)
  cases atFront : iter.frontLeaf with
  | none =>
      rw [atFront] at ahead
      cases ahead.ended
  | some leaf =>
      rw [atFront] at ahead
      obtain ⟨before, after, split, inside, frontEq, restEq⟩ := ahead.opened
      obtain ⟨iter', yielded, splits, counted⟩ := Iter.next_splits linked (tree.arena.len + 1) atFront split inside
        restEq.symm more (by rw [split] at enough; simp at enough; omega)
      rw [← frontEq] at splits
      refine ⟨{ iter with toIter := iter' }, ?_, ?_, ?_, fun _ => splits, fun _ => spans.some_back (by simp), ?_⟩
      · rw [DoubleEnded.step, DoubleEnded.next, yielded]
        rfl
      · rw [spans.whole]
        simp
      · rw [counted, spans.counted]
        rfl
      · intro _
        have behind := spans.behind (by simp)
        rw [List.append_assoc]
        exact behind

theorem DoubleEnded.Spans.nextBack (spans : iter.Spans tree leaves front (middle ++ [entry]) back)
    (linked : Linked (fun idx => (tree.node idx).prev) (fun idx => (tree.node idx).next) none leaves none)
    (unique : leaves.Nodup) (enough : leaves.length ≤ tree.arena.len) :
    ∃ iter', iter.step tree .back = .ok (some (entry.1.key, entry.2), iter') ∧
      iter'.Spans tree leaves front middle (entry :: back) := by
  have more : iter.remaining ≠ 0 := by
    rw [spans.counted]
    simp
  have ahead := spans.ahead (by simp)
  have behind := spans.behind (by simp)
  obtain ⟨leaf, atBack⟩ := Option.ne_none_iff_exists'.mp (spans.some_back (by simp))
  rw [atBack] at behind
  obtain ⟨before, after, split, inside, passedEq, backEq⟩ := behind.opened
  obtain ⟨iter', yielded, sameLeaf, sameIdx, some_leaf, splits, counted⟩ := DoubleEnded.backLoop_splits linked unique
    (tree.arena.len + 1) atBack split inside (passedEq.symm.trans (List.append_assoc _ _ _).symm) ahead more
    (by rw [split] at enough; simp at enough; omega)
  rw [← backEq] at splits
  refine ⟨iter', yielded, ?_, ?_, ?_, fun _ => some_leaf, fun _ => splits⟩
  · rw [spans.whole]
    simp
  · rw [counted, spans.counted]
    simp
  · intro _
    rw [sameLeaf, sameIdx]
    simpa using ahead

theorem yieldedAt_cons (side call : End) (item : Option (K × V)) (replies : List (End × Option (K × V))) :
    yieldedAt side ((call, item) :: replies) =
      (if call = side then item else none).toList ++ yieldedAt side replies := by
  unfold yieldedAt
  rw [List.filterMap_cons]
  cases (if call = side then item else none) with
  | none => rfl
  | some pair => rfl

/-- By induction on the calls: what they yield is taken from the ends. -/
theorem DoubleEnded.Spans.run (linked : Linked (fun idx => (tree.node idx).prev) (fun idx => (tree.node idx).next)
      none leaves none) (unique : leaves.Nodup) (enough : leaves.length ≤ tree.arena.len) (calls : List End) :
    ∀ {iter : DoubleEnded} {front middle back : List (KeyObj K × V)}, iter.Spans tree leaves front middle back →
      ∃ replies iter' taken left given, DoubleEnded.run tree calls iter = .ok (replies, iter') ∧
        replies.map Prod.fst = calls ∧ iter'.Spans tree leaves (front ++ taken) left (given ++ back) ∧
        yieldedAt .front replies = pairsOf taken ∧ (yieldedAt .back replies).reverse = pairsOf given := by
  induction calls with
  | nil =>
      intro iter front middle back spans
      exact ⟨[], iter, [], middle, [], rfl, rfl, by simpa using spans, rfl, rfl⟩
  | cons call calls ih =>
      intro iter front middle back spans
      by_cases done : middle = []
      · subst done
        obtain ⟨replies, iter', taken, left, given, ran, called, spans', fronts, backs⟩ := ih spans
        refine ⟨(call, none) :: replies, iter', taken, left, given, ?_, ?_, spans', ?_, ?_⟩
        · simp only [DoubleEnded.run, spans.exhausted call, ran, bind, Except.bind]
          rfl
        · rw [List.map_cons, called]
        · rw [yieldedAt_cons, ite_self]
          exact fronts
        · rw [yieldedAt_cons, ite_self]
          exact backs
      · cases call with
        | front =>
            obtain ⟨entry, rest, rfl⟩ := List.exists_cons_of_ne_nil done
            obtain ⟨next, yielded, spans'⟩ := spans.next linked enough
            obtain ⟨replies, iter', taken, left, given, ran, called, final, fronts, backs⟩ := ih spans'
            refine ⟨(.front, some (entry.1.key, entry.2)) :: replies, iter', entry :: taken, left, given, ?_, ?_, ?_,
              ?_, ?_⟩
            · simp only [DoubleEnded.run, yielded, ran, bind, Except.bind]
              rfl
            · rw [List.map_cons, called]
            · rw [List.append_assoc] at final
              exact final
            · rw [yieldedAt_cons, fronts]
              rfl
            · rw [yieldedAt_cons]
              exact backs
        | back =>
            obtain ⟨rest, entry, rfl⟩ := (List.eq_nil_or_concat middle).resolve_left done
            rw [List.concat_eq_append] at spans
            obtain ⟨next, yielded, spans'⟩ := spans.nextBack linked unique enough
            obtain ⟨replies, iter', taken, left, given, ran, called, final, fronts, backs⟩ := ih spans'
            refine ⟨(.back, some (entry.1.key, entry.2)) :: replies, iter', taken, left, given ++ [entry], ?_, ?_, ?_,
              ?_, ?_⟩
            · simp only [DoubleEnded.run, yielded, ran, bind, Except.bind]
              rfl
            · rw [List.map_cons, called]
            · rw [List.append_assoc]
              exact final
            · rw [yieldedAt_cons]
              exact fronts
            · rw [yieldedAt_cons, if_pos rfl, Option.toList_some, List.singleton_append, List.reverse_cons, backs]
              simp [pairsOf]

/-- The iterator as it is created, over a row with a first and a last leaf. -/
theorem LeafRow.spans {layout : NodeLayout} {items : List (LevelItem K)} (row : LeafRow layout tree items) :
    tree.iterBoth.Spans tree (Item.nodes items) [] (chainEntries tree (Item.nodes items)) [] := by
  have counted : tree.len = (chainEntries tree (Item.nodes items)).length := by
    rw [row.len, nodes_marks]
    rfl
  have first := row.first
  have last := row.last
  generalize Item.nodes items = leaves at counted first last
  cases leaves using List.reverseRecOn with
  | nil => exact ⟨by simp, counted, by simp [chainEntries], by simp [chainEntries], by simp [chainEntries]⟩
  | append_singleton others final =>
      rw [List.getLast?_concat] at last
      have opened : tree.iterBoth = ⟨tree.iter, some final, (tree.node final).entries.length⟩ := by
        rw [RawBTree.iterBoth, last]
      refine ⟨by simp, counted, fun _ => ?_, fun _ => by simp [opened], fun _ => ?_⟩
      · cases leavesEq : others ++ [final] with
        | nil => simp at leavesEq
        | cons initial rest =>
            rw [leavesEq] at first
            have atFirst : tree.iterBoth.frontLeaf = some initial := first
            have start := @Splits.inside _ _ tree (initial :: rest) [] rest initial 0 rfl (Nat.zero_le _)
            rw [atFirst, List.append_nil]
            exact start
      · have stop := @Splits.inside _ _ tree (others ++ [final]) others [] final _ rfl le_rfl
        rw [List.take_length, List.drop_length] at stop
        rw [opened, List.nil_append, chainEntries_append]
        simpa [chainEntries] using stop

end Cursors

/-! ## The law -/

variable [LinearOrder K] {layout : NodeLayout} {tree : RawBTree K V}

/-- What any sequence of calls leaves of a double-ended iteration. -/
structure ExactlyOnce (tree : RawBTree K V) (calls : List End) (replies : List (End × Option (K × V)))
    (iter : DoubleEnded) (middle : List (K × V)) : Prop where
  /-- The front yields a prefix, the back a reversed suffix, and the middle is left. -/
  whole : tree.toList = yieldedAt .front replies ++ middle ++ (yieldedAt .back replies).reverse
  ascending : Ascending tree.toList
  apart : ∀ first ∈ yieldedAt .front replies, ∀ second ∈ yieldedAt .back replies, first.1 < second.1
  called : replies.map Prod.fst = calls
  /-- The reported length. -/
  counted : iter.remaining = middle.length
  /-- While something is left, both ends yield. -/
  yields : middle ≠ [] → ∀ side, ∃ pair iter', iter.step tree side = .ok (some pair, iter')
  /-- Afterwards both return `None` for ever. -/
  fused : middle = [] → ∀ more, DoubleEnded.run tree more iter = .ok (more.map fun side => (side, none), iter)

theorem run_fused {iter : DoubleEnded} (silent : ∀ side, iter.step tree side = .ok (none, iter)) (more : List End) :
    DoubleEnded.run tree more iter = .ok (more.map fun side => (side, none), iter) := by
  induction more with
  | nil => rfl
  | cons side more ih =>
      simp only [DoubleEnded.run, silent side, ih, bind, Except.bind]
      rfl

theorem Standing.iterBoth_exact {root : NodeIdx} {items : List (LevelItem K)}
    (standing : Standing layout tree root items) (calls : List End) :
    ∃ replies iter middle, DoubleEnded.run tree calls tree.iterBoth = .ok (replies, iter) ∧
      ExactlyOnce tree calls replies iter middle := by
  have linked := standing.row.linked
  have unique := standing.nodes_nodup
  have enough := standing.length_le
  obtain ⟨replies, iter, taken, left, given, ran, called, spans, fronts, backs⟩ :=
    DoubleEnded.Spans.run linked unique enough calls standing.row.spans
  have stored : tree.toList = contents (marks tree.node items) := by
    rw [RawBTree.toList, standing.readable.root_eq, contents, nodes_marks]
    simp only [entriesUnder, standing.readable.level_eq]
  have whole : tree.toList = yieldedAt .front replies ++ pairsOf left ++ (yieldedAt .back replies).reverse := by
    rw [stored, contents, nodes_marks, fronts, backs]
    have chained := congrArg pairsOf spans.whole
    simpa [pairsOf, chainEntries] using chained
  have ascending : Ascending tree.toList := by
    rw [stored]
    exact standing.row.sorted.ascending
  refine ⟨replies, iter, pairsOf left, ran, ⟨whole, ascending, ?_, called, ?_, ?_, ?_⟩⟩
  · intro first isFirst second isSecond
    rw [whole] at ascending
    exact (List.pairwise_append.mp ascending).2.2 first (List.mem_append_left _ isFirst) second
      (List.mem_reverse.mpr isSecond)
  · rw [spans.counted, pairsOf, List.length_map]
  · intro some_left side
    have nonempty : left ≠ [] := fun none_left => some_left (by rw [none_left]; rfl)
    cases side with
    | front =>
        obtain ⟨entry, rest, rfl⟩ := List.exists_cons_of_ne_nil nonempty
        obtain ⟨iter', yielded, _⟩ := spans.next linked enough
        exact ⟨_, iter', yielded⟩
    | back =>
        obtain ⟨rest, entry, rfl⟩ := (List.eq_nil_or_concat left).resolve_left nonempty
        rw [List.concat_eq_append] at spans
        obtain ⟨iter', yielded, _⟩ := spans.nextBack linked unique enough
        exact ⟨_, iter', yielded⟩
  · intro none_left
    cases left with
    | nil => exact run_fused spans.exhausted
    | cons entry rest => cases none_left

/-- From every reachable tree, every interleaving of `next` and `next_back` yields each
entry once, from both ends inwards. -/
theorem double_ended_iteration_exact (tended : Tended layout tree) (calls : List End) :
    ∃ replies iter middle, DoubleEnded.run tree calls tree.iterBoth = .ok (replies, iter) ∧
      ExactlyOnce tree calls replies iter middle := by
  obtain ⟨held, holds⟩ := tended.holds
  cases holds with
  | vacant empty =>
      have stored : tree.toList = [] := by rw [RawBTree.toList, empty.root]
      have none_left : tree.iterBoth.remaining = 0 := empty.len
      have silent : ∀ side, tree.iterBoth.step tree side = .ok (none, tree.iterBoth) := by
        intro side
        cases side with
        | front =>
            rw [DoubleEnded.step, DoubleEnded.next, Iter.next, if_pos none_left]
            rfl
        | back => rw [DoubleEnded.step, DoubleEnded.nextBack, DoubleEnded.backLoop, if_pos none_left]
      have nothing : ∀ side, yieldedAt side (calls.map fun call => (call, (none : Option (K × V)))) = [] := by
        intro side
        simp [yieldedAt]
      refine ⟨_, _, [], run_fused silent calls, ?_, ?_, ?_, ?_, none_left, ?_, fun _ => run_fused silent⟩
      · rw [stored, nothing, nothing]
        rfl
      · rw [stored]
        exact List.Pairwise.nil
      · rw [nothing]
        simp
      · simp [Function.comp_def]
      · simp
  | rooted rooted => exact rooted.standing.iterBoth_exact calls

/-- Three calls on the eight keys without 2 and 3, whose leaf `retain` left empty. -/
theorem double_ended_iteration_across_empty_leaf :
    ∃ (tree : RawBTree Nat Unit) (replies : List (End × Option (Nat × Unit))) (iter : DoubleEnded)
      (middle : List (Nat × Unit)), Tended tinyLayout tree ∧
      DoubleEnded.run tree [.back, .front, .back] tree.iterBoth = .ok (replies, iter) ∧
      ExactlyOnce tree [.back, .front, .back] replies iter middle := by
  have start : Holds tinyLayout (RawBTree.new : RawBTree Nat Unit) [] := .vacant new_vacant
  obtain ⟨tree, held, returned, holds, _⟩ := @Holds.run _ _ _ _ _ _ .empty start rfl (ascendingInserts 8)
  obtain ⟨tree', held', retained, _⟩ :=
    holds.retain (fun state key value => (decide (key ≠ 2 ∧ key ≠ 3), value, state)) ()
  have tended : Tended tinyLayout tree' := (Tended.new.run returned).retain retained
  obtain ⟨replies, iter, middle, ran, exactly⟩ := double_ended_iteration_exact tended [.back, .front, .back]
  exact ⟨tree', replies, iter, middle, tended, ran, exactly⟩

end Optimap.FlatBTree
