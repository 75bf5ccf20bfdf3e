import Optimap.FlatBTree.SplitLaw
import Optimap.Lib.GuardedRuns

/-!
# Programs over several trees

A program holds trees under names, calls them, packs and clones them, cuts them, joins them and
drains them, in any order. It runs as if the trees were sorted maps wherever every cut is even
and sighted, every graft has entries at its seam and every packing leaves no node alone.
-/

set_option autoImplicit false
set_option linter.unusedSectionVars false

namespace Optimap.FlatBTree

open Lib

variable {K V S : Type} [LinearOrder K] {layout : NodeLayout} {tree other : RawBTree K V} {held : List (Mark K V)}
  {map otherMap : SortedMap K V}

section Commands

abbrev Store (K V : Type) := Nat → RawBTree K V

inductive Command (S K V : Type) where
  | call (name : Nat) (call : Call S K V)
  | fromIter (name : Nat) (pairs : List (K × V))
  | clone (source target : Nat) (unset : NodeIdx → Node K V)
  | append (target source : Nat)
  | splitOff (source target : Nat) (pivot : K) (moveLeft : Bool)
  /-- Take some entries from the draining iterator and drop it. -/
  | drain (name count : Nat)

inductive Reply (S K V : Type) where
  | answer (answer : Answer S K V)
  | entries (pairs : List (K × V))
  | done

def Command.step (layout : NodeLayout) : Command S K V → Store K V → Result (Reply S K V × Store K V)
  | .call name given, store => do
      let (answer, tree) ← (store name).call layout given
      pure (.answer answer, Function.update store name tree)
  | .fromIter name pairs, store => do
      let tree ← RawBTree.fromIter layout pairs
      pure (.done, Function.update store name tree)
  | .clone source target unset, store => do
      let copy ← (store source).cloneTree unset
      pure (.done, Function.update store target copy)
  | .append target source, store => do
      let (joined, left) ← (store target).append layout (store source)
      pure (.done, Function.update (Function.update store target joined) source left)
  | .splitOff source target pivot moveLeft, store => do
      let (l, r) ← (store source).splitOff pivot moveLeft
      pure (.done, Function.update (Function.update store source l) target r)
  | .drain name count, store => do
      let (items, left) ← (store name).drain.nextMany count
      let tree ← left.drop
      pure (.entries (items.map fun entry => (entry.1.key, entry.2)), Function.update store name tree)

end Commands

section Meaning

abbrev Maps (K V : Type) [LinearOrder K] := Nat → SortedMap K V

/-- What the commands mean. -/
def Command.mean : Command S K V → Maps K V → Reply S K V × Maps K V
  | .call name given, maps =>
      (.answer (callSorted (maps name) given).1, Function.update maps name (callSorted (maps name) given).2)
  | .fromIter name pairs, maps =>
      (.done, Function.update maps name (runSorted (pairs.map fun pair => .insert pair.1 pair.2) .empty).2)
  | .clone source target _, maps => (.done, Function.update maps target (maps source))
  | .append target source, maps =>
      (.done, Function.update (Function.update maps target ((maps target).union (maps source))) source .empty)
  | .splitOff source target pivot _, maps =>
      (.done, Function.update (Function.update maps source ((maps source).below pivot)) target
        ((maps source).upFrom pivot))
  | .drain name count, maps => (.entries ((maps name).entries.take count), Function.update maps name .empty)

end Meaning

section Guards

theorem parentCount_le_one {n : Nat} (few : n ≤ 1) : parentCount layout n ≤ 1 := by
  rw [parentCount]
  refine Nat.div_le_of_le_mul ?_
  omega

theorem numLeaves_le (layout : NodeLayout) (n : Nat) : RawBTree.numLeaves layout n ≤ n := by
  cases n with
  | zero => exact (numLeaves_zero layout).le
  | succ n =>
      have cap := layout.leafCap_pos
      rw [RawBTree.numLeaves]
      refine Nat.div_le_of_le_mul ?_
      have small : n + 1 + layout.leafCap - 1 = n + layout.leafCap := by omega
      rw [small]
      nlinarith

/-- Levels get smaller until there is one node. -/
theorem levelSize_add_row (layout : NodeLayout) (n row : Nat) :
    levelSize layout n row ≤ 1 ∨ row + levelSize layout n row ≤ n := by
  induction row with
  | zero =>
      rw [Nat.zero_add]
      exact .inr (numLeaves_le layout n)
  | succ row ih =>
      have step : levelSize layout n (row + 1) = parentCount layout (levelSize layout n row) :=
        Function.iterate_succ_apply' _ _ _
      rw [step]
      cases ih with
      | inl few => exact .inl (parentCount_le_one few)
      | inr bounded =>
          by_cases several : 1 < levelSize layout n row
          · have smaller := @parentCount_lt layout _ several
            exact .inr (by omega)
          · exact .inl (parentCount_le_one (Nat.not_lt.mp several))

theorem evenLevels_iff (layout : NodeLayout) (n : Nat) : EvenLevels layout n ↔
    ∀ row, row < n → 1 < levelSize layout n row → levelSize layout n row % (layout.internalCap + 1) ≠ 1 := by
  constructor
  · exact fun even row _ => even row
  · intro even row several
    refine even row ?_ several
    cases levelSize_add_row layout n row with
    | inl few => omega
    | inr bounded => omega

instance (layout : NodeLayout) (n : Nat) : Decidable (EvenLevels layout n) :=
  decidable_of_iff _ (evenLevels_iff layout n).symm

instance (tree other : RawBTree K V) : Decidable (KeysBelow tree other) :=
  inferInstanceAs (Decidable (∀ pair ∈ tree.toList, ∀ pair' ∈ other.toList, pair.1 < pair'.1))

instance (tree other : RawBTree K V) : Decidable (Grafts tree other) := inferInstanceAs (Decidable (_ ∨ _))

instance (tree : RawBTree K V) : Decidable (LastLeafStored tree) :=
  inferInstanceAs (Decidable (∀ last ∈ tree.lastLeaf, (tree.node last).entries ≠ []))

instance (tree : RawBTree K V) : Decidable (FirstLeafStored tree) :=
  inferInstanceAs (Decidable (∀ first ∈ tree.firstLeaf, (tree.node first).entries ≠ []))

instance (lower upper : RawBTree K V) : Decidable (Graftable lower upper) := inferInstanceAs (Decidable (_ ∧ _))

instance (tree other : RawBTree K V) : Decidable (GraftsStored tree other) :=
  decidable_of_iff ((KeysBelow tree other → other.height ≤ tree.height → Graftable tree other) ∧
      (KeysBelow other tree → tree.height ≤ other.height → Graftable other tree))
    ⟨fun both => ⟨both.1, both.2⟩, fun stored => ⟨stored.forward, stored.backward⟩⟩

/-- `append` needs entries at the seam of a graft, and no lone node where it packs. -/
structure Appends (layout : NodeLayout) (tree other : RawBTree K V) : Prop where
  seam : tree.len ≠ 0 → other.len ≠ 0 → GraftsStored tree other
  packs : ¬ Grafts tree other → EvenLevels layout (insertEntries tree.toList other.toList).length

instance (layout : NodeLayout) (tree other : RawBTree K V) : Decidable (Appends layout tree other) :=
  decidable_of_iff ((tree.len ≠ 0 → other.len ≠ 0 → GraftsStored tree other) ∧
      (¬ Grafts tree other → EvenLevels layout (insertEntries tree.toList other.toList).length))
    ⟨fun both => ⟨both.1, both.2⟩, fun appends => ⟨appends.seam, appends.packs⟩⟩

/-- The search for the key finds a slot, or there is nothing to find. -/
def RawBTree.sights (tree : RawBTree K V) (pivot : K) : Bool :=
  match tree.lowerBound pivot with
  | .ok (some _) => true
  | _ => tree.toList.all fun pair => pair.1 < pivot

theorem Holds.sights_spec {pivot : K} (holds : Holds layout tree held) (sights : tree.sights pivot = true) :
    Sighted tree pivot := by
  intro overlooks
  cases holds with
  | vacant empty =>
      obtain ⟨root, _, _, rootEq, _⟩ := overlooks
      rw [empty.root] at rootEq
      cases rootEq
  | rooted rooted =>
      rw [RawBTree.sights, rooted.standing.lowerBound_overlooks overlooks] at sights
      simpa using sights

/-- Where a command does what it means. -/
def Command.allows (layout : NodeLayout) : Command S K V → Store K V → Bool
  | .fromIter _ pairs, _ => decide (EvenLevels layout (RawBTree.sortPairs pairs).length)
  | .append target source, store => decide (target ≠ source ∧ Appends layout (store target) (store source))
  | .splitOff source _ pivot _, store => (store source).splitsEvenly pivot && (store source).sights pivot
  | .call _ _, _ | .clone _ _ _, _ | .drain _ _, _ => true

end Guards

section Refinement

/-- The tree holds the entries of the map. -/
def StandsFor (layout : NodeLayout) (tree : RawBTree K V) (map : SortedMap K V) : Prop :=
  ∃ held, Holds layout tree held ∧ contents held = map.entries

theorem StandsFor.reads (stands : StandsFor layout tree map) : Reads tree map.entries := by
  obtain ⟨held, holds, same⟩ := stands
  exact same ▸ holds.reads

theorem StandsFor.new : StandsFor layout (RawBTree.new : RawBTree K V) .empty := ⟨[], .vacant new_vacant, rfl⟩

theorem fromIter_stands (pairs : List (K × V)) (even : EvenLevels layout (RawBTree.sortPairs pairs).length) :
    ∃ tree, RawBTree.fromIter layout pairs = .ok tree ∧
      StandsFor layout tree (runSorted (pairs.map fun pair => .insert pair.1 pair.2) .empty).2 := by
  have sorted := sortPairs_eq pairs
  cases bulkLoad_cases layout (sortPairs_lookup pairs).1 with
  | inl vacant =>
      obtain ⟨empty, made⟩ := vacant
      exact ⟨.new, made, [], .vacant new_vacant, by rw [← sorted, empty]; rfl⟩
  | inr packed =>
      obtain ⟨tree, root, items, made, packed⟩ := packed
      exact ⟨tree, made, _, .rooted (packed.toRooted even), packed.contents_eq.trans sorted⟩

theorem StandsFor.append (stands : StandsFor layout tree map) (stands' : StandsFor layout other otherMap)
    (appends : Appends layout tree other) :
    ∃ joined left, tree.append layout other = .ok (joined, left) ∧ StandsFor layout joined (map.union otherMap) ∧
      StandsFor layout left .empty := by
  obtain ⟨held, holds, same⟩ := stands
  obtain ⟨otherHeld, holds', same'⟩ := stands'
  have packs := appends.packs
  rw [holds.toList_eq, holds'.toList_eq] at packs
  obtain ⟨joined, left, made, _, leftStands, fits⟩ := holds.append holds' appends.seam
  rw [same, same'] at fits packs
  exact ⟨joined, left, made, fits packs, leftStands⟩

theorem StandsFor.splitOff {pivot : K} (stands : StandsFor layout tree map) (even : tree.splitsEvenly pivot = true)
    (sights : tree.sights pivot = true) (moveLeft : Bool) :
    ∃ l r, tree.splitOff pivot moveLeft = .ok (l, r) ∧ StandsFor layout l (map.below pivot) ∧
      StandsFor layout r (map.upFrom pivot) := by
  obtain ⟨held, holds, same⟩ := stands
  obtain ⟨l, r, made, lower, upper, gone, halved, lowerEq, upperEq⟩ :=
    holds.surgery (holds.sighted (holds.sights_spec sights)) even moveLeft
  rw [same] at lowerEq upperEq
  exact ⟨l, r, made, ⟨lower, halved.left, lowerEq⟩, ⟨upper, halved.right, upperEq⟩⟩

theorem StandsFor.drain (stands : StandsFor layout tree map) (count : Nat) :
    ∃ items left tree', tree.drain.nextMany count = .ok (items, left) ∧ left.drop = .ok tree' ∧
      items.map (fun entry => (entry.1.key, entry.2)) = map.entries.take count ∧ StandsFor layout tree' .empty := by
  obtain ⟨held, holds, same⟩ := stands
  obtain ⟨leaves, separators, visited⟩ := holds.visited
  obtain ⟨left, tree', yielded, _, _, dropped, vacant, _⟩ := visited.drainPart count
  refine ⟨_, left, tree', yielded, dropped, ?_, [], .vacant vacant, rfl⟩
  have entries : pairsOf tree.storedEntries = map.entries := by
    rw [← toList_eq_storedEntries, holds.toList_eq, same]
  rw [← entries, pairsOf, List.map_take]

theorem StandsFor.clone (stands : StandsFor layout tree map) (unset : NodeIdx → Node K V) :
    ∃ copy, tree.cloneTree unset = .ok copy ∧ StandsFor layout copy map := by
  obtain ⟨held, holds, same⟩ := stands
  obtain ⟨copy, held', cloned, holds', sameContents, _⟩ := holds.cloneTree unset
  exact ⟨copy, cloned, held', holds', sameContents.trans same⟩

theorem StandsFor.call (stands : StandsFor layout tree map) (given : Call S K V) :
    ∃ tree', tree.call layout given = .ok ((callSorted map given).1, tree') ∧
      StandsFor layout tree' (callSorted map given).2 := by
  obtain ⟨held, holds, same⟩ := stands
  obtain ⟨tree', held', returned, holds', contentsEq⟩ := holds.call same given
  exact ⟨tree', returned, held', holds', contentsEq⟩

/-- Each command does on the trees what it means for the maps. -/
theorem commands_simulate (layout : NodeLayout) :
    Simulates (Command.step layout) (Command.mean : Command S K V → Maps K V → Reply S K V × Maps K V)
      (Command.allows layout) (EachStands (StandsFor layout)) := by
  refine ⟨fun command store maps stands allowed => ?_⟩
  cases command with
  | call name given =>
      obtain ⟨tree, returned, after⟩ := (stands name).call given
      refine ⟨_, ?_, stands.update after⟩
      simp only [Command.step, returned, bind, Except.bind]
      rfl
  | fromIter name pairs =>
      obtain ⟨tree, made, after⟩ := fromIter_stands pairs (of_decide_eq_true allowed)
      refine ⟨_, ?_, stands.update after⟩
      simp only [Command.step, made, bind, Except.bind]
      rfl
  | clone source target unset =>
      obtain ⟨copy, cloned, after⟩ := (stands source).clone unset
      refine ⟨_, ?_, stands.update after⟩
      simp only [Command.step, cloned, bind, Except.bind]
      rfl
  | append target source =>
      obtain ⟨_, appends⟩ := of_decide_eq_true allowed
      obtain ⟨joined, left, made, after, empty⟩ := (stands target).append (stands source) appends
      refine ⟨_, ?_, (stands.update after).update empty⟩
      simp only [Command.step, made, bind, Except.bind]
      rfl
  | splitOff source target pivot moveLeft =>
      rw [Command.allows, Bool.and_eq_true] at allowed
      obtain ⟨l, r, made, lower, upper⟩ := (stands source).splitOff allowed.1 allowed.2 moveLeft
      refine ⟨_, ?_, (stands.update lower).update upper⟩
      simp only [Command.step, made, bind, Except.bind]
      rfl
  | drain name count =>
      obtain ⟨items, left, tree, yielded, dropped, taken, empty⟩ := (stands name).drain count
      refine ⟨_, ?_, stands.update empty⟩
      simp only [Command.step, yielded, dropped, taken, bind, Except.bind]
      rfl

end Refinement

section Law

/-- A program that starts with empty trees and stays within the guards runs to its end and replies
as on sorted maps, and then every tree reads like its map. -/
theorem programs_refine (program : List (Command S K V))
    (allowed : allowsAll (Command.allows layout) (Command.step layout) program (fun _ => .new) = true) :
    ∃ store, runAll (Command.step layout) program (fun _ => .new) =
        .ok ((meanAll Command.mean program fun _ => .empty).1, store) ∧
      ∀ name, Reads (store name) ((meanAll Command.mean program fun _ => .empty).2 name).entries := by
  have start : EachStands (StandsFor layout) (fun _ : Nat => (RawBTree.new : RawBTree K V)) fun _ => .empty :=
    fun _ => .new
  obtain ⟨store, ran, stands⟩ := (commands_simulate layout).runAll program start allowed
  exact ⟨store, ran, fun name => (stands name).reads⟩

/-- Nine keys are cut in front of the fifth, a clone of the right part loses a key, and the left
part is appended to the right one and drained of two entries. -/
def cutAndJoin : List (Command Unit Nat Unit) :=
  (ascendingInserts 9).map (fun op => .call 0 (.point op)) ++
    [.splitOff 0 1 4 true, .clone 1 2 (fun _ => .zeroed), .call 2 (.point (.remove 5)), .append 1 0, .drain 1 2]

theorem programs_refine_cut :
    ∃ store, runAll (Command.step tinyLayout) cutAndJoin (fun _ => .new) =
        .ok ((meanAll Command.mean cutAndJoin fun _ => .empty).1, store) ∧
      ∀ name, Reads (store name) ((meanAll Command.mean cutAndJoin fun _ => .empty).2 name).entries :=
  programs_refine cutAndJoin (by decide +kernel)

end Law

end Optimap.FlatBTree
