import Optimap.FlatBTree.Refinement

/-!
# How trees grow

An insertion adds at most one level and one block for each level. A tree of a given
height holds at most as many entries as its capacities allow, so ascending insertions
pass through every height.
-/

set_option autoImplicit false
set_option linter.unusedSectionVars false

namespace Optimap.FlatBTree

open Lib

variable {K V : Type} {layout : NodeLayout} {tree tree' : RawBTree K V}

theorem Result.bind_eq_ok {α β : Type} {first : Result α} {next : α → Result β} {final : β}
    (returned : (first >>= next) = .ok final) : ∃ value, first = .ok value ∧ next value = .ok final := by
  cases first with
  | error fault => cases returned
  | ok value => exact ⟨value, rfl, returned⟩

/-! ## One insertion -/

/-- From one tree to the next: at most so many levels and so many blocks more. -/
structure GrownBy (levels blocks : Nat) (tree tree' : RawBTree K V) : Prop where
  height : tree'.height ≤ tree.height + levels
  arenaLen : tree'.arena.len ≤ tree.arena.len + blocks

theorem GrownBy.trans {levels levels' blocks blocks' : Nat} {first second third : RawBTree K V}
    (left : GrownBy levels blocks first second) (right : GrownBy levels' blocks' second third) :
    GrownBy (levels + levels') (blocks + blocks') first third := by
  have leftHeight := left.height
  have leftLen := left.arenaLen
  have rightHeight := right.height
  have rightLen := right.arenaLen
  constructor <;> omega

theorem GrownBy.mono {levels more blocks others : Nat} (grown : GrownBy levels blocks tree tree')
    (moreLevels : levels ≤ more) (moreBlocks : blocks ≤ others) : GrownBy more others tree tree' := by
  constructor
  · exact grown.height.trans (Nat.add_le_add_left moreLevels _)
  · exact grown.arenaLen.trans (Nat.add_le_add_left moreBlocks _)

/-- Writing nodes adds nothing. -/
theorem GrownBy.of_frame {levels blocks : Nat} {last : RawBTree K V} (grown : GrownBy levels blocks tree tree')
    (height : last.height = tree'.height) (arenaLen : last.arena.len = tree'.arena.len) :
    GrownBy levels blocks tree last := by
  constructor
  · exact height.le.trans grown.height
  · exact arenaLen.le.trans grown.arenaLen

theorem allocNode_grownBy (tree : RawBTree K V) : GrownBy 0 1 tree tree.allocNode.2 := by
  constructor
  · exact Nat.le_refl _
  · unfold RawBTree.allocNode Arena.allocNode
    cases tree.arena.free with
    | nil => exact Nat.le_refl _
    | cons idx free => exact Nat.le_succ _

theorem linkAfter_frame (left right : NodeIdx) (oldNext : Option NodeIdx) :
    (tree.linkAfter left right oldNext).height = tree.height ∧
      (tree.linkAfter left right oldNext).arena.len = tree.arena.len := by
  cases oldNext <;> exact ⟨rfl, rfl⟩

theorem leafSplitAndInsert_grownBy {left right : NodeIdx} {pos : Nat} {key promoted : KeyObj K} {value : V}
    (returned : tree.leafSplitAndInsert layout left pos key value = .ok (promoted, right, tree')) :
    GrownBy 0 1 tree tree' := by
  unfold RawBTree.leafSplitAndInsert at returned
  obtain ⟨first, _, returned⟩ := Result.bind_eq_ok returned
  cases returned
  constructor
  · refine le_trans (le_of_eq (linkAfter_frame _ _ _).1) ?_
    split <;> exact (allocNode_grownBy tree).height
  · refine le_trans (le_of_eq (linkAfter_frame _ _ _).2) ?_
    split <;> exact (allocNode_grownBy tree).arenaLen

theorem internalSplitAndInsert_grownBy {left right child : NodeIdx} {pos : Nat} {key promoted : KeyObj K}
    (returned : tree.internalSplitAndInsert layout left pos key child = .ok (promoted, right, tree')) :
    GrownBy 0 1 tree tree' := by
  unfold RawBTree.internalSplitAndInsert at returned
  obtain ⟨middle, _, returned⟩ := Result.bind_eq_ok returned
  cases returned
  have frame := fun mid keys children => distribute_sameFrame tree.allocNode.2 left tree.allocNode.1 mid keys children
  exact (allocNode_grownBy tree).of_frame (frame _ _ _).height (frame _ _ _).arenaLen

theorem installRoot_grownBy (key : KeyObj K) (left right : NodeIdx) :
    GrownBy 1 1 tree (tree.installRoot key left right) := by
  constructor
  · exact Nat.succ_le_succ (allocNode_grownBy tree).height
  · exact (allocNode_grownBy tree).arenaLen

theorem propagateSplit_grownBy {path : PathBuf} {key : KeyObj K} {newChild : NodeIdx}
    (returned : RawBTree.propagateSplit layout path key newChild tree = .ok tree') :
    GrownBy 1 (path.length + 1) tree tree' := by
  induction path generalizing key newChild tree with
  | nil =>
      unfold RawBTree.propagateSplit at returned
      obtain ⟨root, _, returned⟩ := Result.bind_eq_ok returned
      cases returned
      exact installRoot_grownBy key root newChild
  | cons step path ih =>
      unfold RawBTree.propagateSplit at returned
      split at returned
      · cases returned
        exact ⟨Nat.le_succ _, Nat.le_add_right _ _⟩
      · obtain ⟨⟨promoted, newInternal, middle⟩, split, returned⟩ := Result.bind_eq_ok returned
        have here := internalSplitAndInsert_grownBy split
        have upper := ih returned
        exact (here.trans upper).mono (by omega) (by rw [List.length_cons]; omega)

theorem insertInLeaf_grownBy {leaf : NodeIdx} {pos bound : Nat} {key : KeyObj K} {value : V} {path : Result PathBuf}
    (short : ∀ found, path = .ok found → found.length ≤ bound)
    (returned : tree.insertInLeaf layout leaf pos key value path = .ok tree') :
    GrownBy 1 (bound + 2) tree tree' := by
  unfold RawBTree.insertInLeaf at returned
  split at returned
  · cases returned
    exact ⟨Nat.le_succ _, Nat.le_add_right _ _⟩
  · obtain ⟨found, isPath, returned⟩ := Result.bind_eq_ok returned
    obtain ⟨⟨promoted, newLeaf, middle⟩, split, returned⟩ := Result.bind_eq_ok returned
    have here := leafSplitAndInsert_grownBy split
    have counted : GrownBy 0 1 tree { middle with len := middle.len + 1 } := here.of_frame rfl rfl
    have upper := propagateSplit_grownBy returned
    have length := short found isPath
    exact (counted.trans upper).mono (by omega) (by omega)

theorem pathToNode_length {fuel : Nat} {idx : NodeIdx} {path : PathBuf}
    (returned : tree.pathToNode fuel idx = .ok path) : path.length ≤ fuel := by
  induction fuel generalizing idx path with
  | zero =>
      unfold RawBTree.pathToNode at returned
      split at returned
      · cases returned
        exact Nat.le_refl _
      · cases returned
  | succ fuel ih =>
      unfold RawBTree.pathToNode at returned
      split at returned
      · cases returned
        exact Nat.zero_le _
      · obtain ⟨upper, climbed, returned⟩ := Result.bind_eq_ok returned
        cases returned
        exact Nat.succ_le_succ (ih climbed)

variable [LinearOrder K]

theorem descendPath_length {key : K} {steps : Nat} {idx leaf : NodeIdx} {path found : PathBuf}
    (returned : tree.descendPath key steps idx path = .ok (leaf, found)) :
    found.length = path.length + steps := by
  induction steps generalizing idx path with
  | zero =>
      cases returned
      rfl
  | succ steps ih =>
      unfold RawBTree.descendPath at returned
      obtain ⟨child, _, returned⟩ := Result.bind_eq_ok returned
      rw [ih returned, List.length_cons]
      omega

theorem insertFirst_grownBy (key : KeyObj K) (value : V) : GrownBy 0 1 tree (tree.insertFirst key value) :=
  (allocNode_grownBy tree).of_frame rfl rfl

theorem searchForInsert_length {key : K} {root leaf : NodeIdx} {pos : Nat} {path : PathBuf}
    (returned : tree.searchForInsert key root = .ok (leaf, pos, path)) : path.length = tree.height := by
  obtain ⟨⟨reached, found⟩, descended, returned⟩ := Result.bind_eq_ok returned
  cases returned
  exact (descendPath_length descended).trans (Nat.zero_add _)

/-- An insertion adds a level at most, and a block for each level, a leaf and a root. -/
theorem insert_grownBy {key : K} {value : V} {old : Option V}
    (returned : tree.insert layout key value = .ok (old, tree')) : GrownBy 1 (tree.height + 2) tree tree' := by
  unfold RawBTree.insert at returned
  cases owned : tree.own key with
  | mk object owning =>
      rw [owned] at returned
      have own : GrownBy 0 0 tree owning := by cases owned; exact ⟨le_rfl, le_rfl⟩
      have inserts : ∀ {leaf : NodeIdx} {pos : Nat} {path : Result PathBuf} {after : RawBTree K V},
          (∀ found, path = .ok found → found.length ≤ owning.height) →
          owning.insertInLeaf layout leaf pos object value path = .ok after → GrownBy 1 (tree.height + 2) tree after := by
        intro leaf pos path after short inserted
        have height := own.height
        exact (own.trans (insertInLeaf_grownBy short inserted)).mono (by omega) (by omega)
      have replaced : ∀ {leaf : NodeIdx} {entries : List (KeyObj K × V)},
          GrownBy 1 (tree.height + 2) tree ((owning.setEntries entries leaf).drop object) :=
        (own.mono (Nat.zero_le _) (Nat.zero_le _)).of_frame rfl rfl
      have placed := (own.trans (insertFirst_grownBy object value)).mono (Nat.zero_le 1)
        (show 0 + 1 ≤ tree.height + 2 by omega)
      dsimp only at returned
      cases rootEq : owning.root with
      | none =>
          rw [rootEq] at returned
          cases returned
          exact placed
      | some root =>
          rw [rootEq] at returned
          obtain ⟨last, _, returned⟩ := Result.bind_eq_ok returned
          split at returned
          · obtain ⟨after, inserted, returned⟩ := Result.bind_eq_ok returned
            cases returned
            exact inserts (fun found => pathToNode_length) inserted
          · obtain ⟨first, _, returned⟩ := Result.bind_eq_ok returned
            split at returned
            · obtain ⟨after, inserted, returned⟩ := Result.bind_eq_ok returned
              cases returned
              exact inserts (fun found => pathToNode_length) inserted
            · obtain ⟨⟨leaf, pos, path⟩, searched, returned⟩ := Result.bind_eq_ok returned
              have short : ∀ found : PathBuf, (.ok path : Result PathBuf) = .ok found → found.length ≤ owning.height := by
                intro found same
                cases same
                exact (searchForInsert_length searched).le
              split at returned
              · split at returned
                · cases returned
                  exact replaced
                · obtain ⟨after, inserted, returned⟩ := Result.bind_eq_ok returned
                  cases returned
                  exact inserts short inserted
              · obtain ⟨after, inserted, returned⟩ := Result.bind_eq_ok returned
                cases returned
                exact inserts short inserted

/-! ## The capacity of a height -/

theorem length_flatMap_le {α β : Type} {f : α → List β} {bound : Nat} {values : List α}
    (short : ∀ value ∈ values, (f value).length ≤ bound) : (values.flatMap f).length ≤ bound * values.length := by
  rw [List.length_flatMap, Nat.mul_comm]
  have total := List.sum_le_card_nsmul (values.map fun value => (f value).length) bound (by simpa using short)
  simpa using total

theorem Crown.level_length_le {heap : Heap K V} {root : NodeIdx} {depth : Nat} (crown : Crown heap root layout depth) :
    (Item.nodes (level heap root depth)).length ≤ (layout.internalCap + 1) ^ depth := by
  induction depth with
  | zero => simp [level]
  | succ depth ih =>
      rw [crown.nodes_level_succ, pow_succ']
      refine (length_flatMap_le fun idx onLevel => ?_).trans (Nat.mul_le_mul_left _ (ih crown.1))
      have internal := crown.2 idx onLevel
      rw [internal.paired]
      exact Nat.succ_le_succ internal.fits

theorem Holds.length_le {held : List (Mark K V)} (holds : Holds layout tree held) :
    (contents held).length ≤ layout.leafCap * (layout.internalCap + 1) ^ tree.height := by
  cases holds with
  | vacant empty => exact Nat.zero_le _
  | @rooted root items rooted =>
      rw [contents, List.length_map, nodes_marks]
      refine (length_flatMap_le rooted.row.fits).trans (Nat.mul_le_mul_left _ ?_)
      have row := rooted.crownAt.crown.level_length_le
      rw [rooted.crownAt.level_eq] at row
      exact row

/-! ## Ascending insertions -/

def insertions (keys : List K) (value : V) : List (MapOp K V) := keys.map fun key => .insert key value

/-- The insertions of the keys before the last one of `keys` leave trees of at most this
height. -/
def LowUntil (layout : NodeLayout) (tree : RawBTree K V) (top : Nat) (keys : List K) (value : V) : Prop :=
  ∀ earlier, earlier <+: keys → earlier ≠ keys → ∃ replies tree',
    RawBTree.run layout (insertions earlier value) tree = .ok (replies, tree') ∧ tree'.height ≤ top

/-- Enough ascending insertions pass through the height above `top`. -/
theorem Holds.insertions_cross {held : List (Mark K V)} (holds : Holds layout tree held) (value : V) (top : Nat)
    (short : tree.height ≤ top) {keys : List K} (ascending : keys.Pairwise (· < ·))
    (above : ∀ entry ∈ contents held, ∀ key ∈ keys, entry.1 < key)
    (long : layout.leafCap * (layout.internalCap + 1) ^ top < (contents held).length + keys.length) :
    ∃ before after replies tree', keys = before ++ after ∧
      RawBTree.run layout (insertions before value) tree = .ok (replies, tree') ∧ tree'.height = top + 1 ∧
      tree'.arena.len ≤ tree.arena.len + (top + 2) * before.length ∧ LowUntil layout tree top before value := by
  induction keys generalizing tree held with
  | nil =>
      have most := holds.length_le
      have wider := Nat.pow_le_pow_right (show 0 < layout.internalCap + 1 by omega) short
      have larger := Nat.mul_le_mul_left layout.leafCap wider
      rw [List.length_nil] at long
      omega
  | cons key keys ih =>
      obtain ⟨smallest, ascending⟩ := List.pairwise_cons.mp ascending
      obtain ⟨middle, between, inserted, holds', contentsEq, _⟩ := holds.insert key value
      have appended : contents between = contents held ++ [(key, value)] := by
        have behind := @insertEntry_of_below _ _ _ _ _ value [] fun entry member =>
          above entry member key List.mem_cons_self
        rw [List.append_nil] at behind
        rw [contentsEq, behind]
        rfl
      have grown := insert_grownBy inserted
      have first : RawBTree.run layout (insertions [key] value) tree =
          .ok ([.value (lookupEntry key (contents held))], middle) := by
        simp only [insertions, List.map_cons, List.map_nil, RawBTree.run, RawBTree.apply, inserted, bind, Except.bind,
          pure, Except.pure]
      have start : ∃ replies tree', RawBTree.run layout (insertions [] value) tree = .ok (replies, tree') ∧
          tree'.height ≤ top := ⟨[], tree, rfl, short⟩
      by_cases low : middle.height ≤ top
      · have above' : ∀ entry ∈ contents between, ∀ later ∈ keys, entry.1 < later := by
          intro entry member later isLater
          rw [appended, List.mem_append] at member
          cases member with
          | inl old => exact above entry old later (List.mem_cons_of_mem _ isLater)
          | inr new =>
              obtain rfl := List.mem_singleton.mp new
              exact smallest later isLater
        have long' : layout.leafCap * (layout.internalCap + 1) ^ top < (contents between).length + keys.length := by
          rw [appended, List.length_append, List.length_singleton]
          rw [List.length_cons] at long
          omega
        have chained : ∀ {rest : List K} {replies : List (MapReply K V)} {last : RawBTree K V},
            RawBTree.run layout (insertions rest value) middle = .ok (replies, last) →
            RawBTree.run layout (insertions (key :: rest) value) tree =
              .ok (.value (lookupEntry key (contents held)) :: replies, last) := by
          intro rest replies last ran
          simp only [insertions] at ran
          simp only [insertions, List.map_cons, RawBTree.run, RawBTree.apply, inserted, ran, bind, Except.bind, pure,
            Except.pure]
        obtain ⟨before, after, replies, tree', rfl, ran, height, arenaLen, lowUntil⟩ :=
          ih holds' low ascending above' long'
        refine ⟨key :: before, after, _, tree', rfl, chained ran, height, ?_, ?_⟩
        · have step := grown.arenaLen
          have expanded : (top + 2) * (key :: before).length = (top + 2) * before.length + (top + 2) := by
            rw [List.length_cons, Nat.mul_succ]
          omega
        · intro earlier isPrefix different
          cases earlier with
          | nil => exact start
          | cons other earlier =>
              obtain ⟨rfl, shorter⟩ := List.cons_prefix_cons.mp isPrefix
              obtain ⟨replies, tree', ran, bounded⟩ := lowUntil earlier shorter fun same => different (by rw [same])
              exact ⟨_, tree', chained ran, bounded⟩
      · refine ⟨[key], keys, _, middle, rfl, first, ?_, ?_, ?_⟩
        · have height := grown.height
          omega
        · have step := grown.arenaLen
          rw [List.length_singleton]
          omega
        · intro earlier isPrefix different
          cases earlier with
          | nil => exact start
          | cons other earlier =>
              obtain ⟨rfl, shorter⟩ := List.cons_prefix_cons.mp isPrefix
              obtain rfl := List.prefix_nil.mp shorter
              exact absurd rfl different

end Optimap.FlatBTree
