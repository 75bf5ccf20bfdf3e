import Optimap.FlatBTree.Grafts

/-!
# `append` is the union

Whichever way `append` goes, the result holds the entries of both trees, of equal keys those
of the second one, and the second tree is left empty. A graft needs entries in the leaves
that come to lie next to each other, packing needs a number of entries that leaves no node
alone.
-/

set_option autoImplicit false
set_option linter.unusedSectionVars false

namespace Optimap.FlatBTree

open Lib

variable {K V S : Type} [LinearOrder K] {layout : NodeLayout} {tree other : RawBTree K V}
  {held otherHeld : List (Mark K V)} {map otherMap : SortedMap K V}

section Merging

theorem mem_mergeEntries {left right : List (K × V)} {entry : K × V}
    (member : entry ∈ RawBTree.mergeEntries left right) : entry ∈ left ∨ entry ∈ right := by
  fun_induction RawBTree.mergeEntries left right with
  | case1 right => exact .inr member
  | case2 left _ => exact .inl member
  | case3 a left b right _ ih =>
      rcases List.mem_cons.mp member with rfl | member
      · exact .inl List.mem_cons_self
      · exact (ih member).imp (List.mem_cons_of_mem _) id
  | case4 a left b right _ _ ih =>
      rcases List.mem_cons.mp member with rfl | member
      · exact .inr List.mem_cons_self
      · exact (ih member).imp id (List.mem_cons_of_mem _)
  | case5 a left b right _ _ ih =>
      rcases List.mem_cons.mp member with rfl | member
      · exact .inr List.mem_cons_self
      · exact (ih member).imp (List.mem_cons_of_mem _) (List.mem_cons_of_mem _)

/-- An entry below everything is found first. -/
theorem lookupEntry_cons (key : K) (entry : K × V) (entries : List (K × V)) :
    lookupEntry key (entry :: entries) = if entry.1 = key then some entry.2 else lookupEntry key entries := by
  by_cases same : entry.1 = key <;> simp [lookupEntry, same]

theorem lookupEntry_of_lt {key : K} {entries : List (K × V)} (larger : ∀ entry ∈ entries, key < entry.1) :
    lookupEntry key entries = none := by
  have absent : entries.find? (fun entry => entry.1 = key) = none :=
    List.find?_eq_none.mpr fun entry member => by simpa using (larger entry member).ne'
  rw [lookupEntry, absent]
  rfl

theorem mergeEntries_spec {left right : List (K × V)} (leftAscending : Ascending left)
    (rightAscending : Ascending right) :
    Ascending (RawBTree.mergeEntries left right) ∧ ∀ key, lookupEntry key (RawBTree.mergeEntries left right) =
      (lookupEntry key right).or (lookupEntry key left) := by
  fun_induction RawBTree.mergeEntries left right with
  | case1 right => exact ⟨rightAscending, fun key => (Option.or_none).symm⟩
  | case2 left _ => exact ⟨leftAscending, fun key => rfl⟩
  | case3 a left b right smaller ih =>
      obtain ⟨least, rest⟩ := List.pairwise_cons.mp leftAscending
      obtain ⟨ascending, lookups⟩ := ih rest rightAscending
      have least' : ∀ entry ∈ b :: right, a.1 < entry.1 := by
        intro entry member
        rcases List.mem_cons.mp member with rfl | member
        · exact smaller
        · exact smaller.trans ((List.pairwise_cons.mp rightAscending).1 entry member)
      refine ⟨List.pairwise_cons.mpr ⟨fun entry member => ?_, ascending⟩, fun key => ?_⟩
      · exact (mem_mergeEntries member).elim (least entry) (least' entry)
      · rw [lookupEntry_cons, lookups, lookupEntry_cons key a left]
        split
        · next same => rw [← same, lookupEntry_of_lt least', Option.none_or]
        · rfl
  | case4 a left b right _ smaller ih =>
      obtain ⟨least, rest⟩ := List.pairwise_cons.mp rightAscending
      obtain ⟨ascending, lookups⟩ := ih leftAscending rest
      have least' : ∀ entry ∈ a :: left, b.1 < entry.1 := by
        intro entry member
        rcases List.mem_cons.mp member with rfl | member
        · exact smaller
        · exact smaller.trans ((List.pairwise_cons.mp leftAscending).1 entry member)
      refine ⟨List.pairwise_cons.mpr ⟨fun entry member => ?_, ascending⟩, fun key => ?_⟩
      · exact (mem_mergeEntries member).elim (least' entry) (least entry)
      · rw [lookupEntry_cons, lookups, lookupEntry_cons key b right]
        split <;> rfl
  | case5 a left b right notBelow notAbove ih =>
      have same : a.1 = b.1 := le_antisymm (not_lt.mp notAbove) (not_lt.mp notBelow)
      obtain ⟨least, rest⟩ := List.pairwise_cons.mp leftAscending
      obtain ⟨least', rest'⟩ := List.pairwise_cons.mp rightAscending
      obtain ⟨ascending, lookups⟩ := ih rest rest'
      refine ⟨List.pairwise_cons.mpr ⟨fun entry member => ?_, ascending⟩, fun key => ?_⟩
      · exact (mem_mergeEntries member).elim (fun inLeft => same ▸ least entry inLeft) (least' entry)
      · rw [lookupEntry_cons, lookups, lookupEntry_cons key b right, lookupEntry_cons key a left, same]
        split <;> rfl

theorem mergeEntries_eq {left right : List (K × V)} (leftAscending : Ascending left)
    (rightAscending : Ascending right) : RawBTree.mergeEntries left right = insertEntries left right :=
  eq_insertEntries leftAscending rightAscending (mergeEntries_spec leftAscending rightAscending).1
    (mergeEntries_spec leftAscending rightAscending).2

end Merging

section Outcomes

/-- The tree reads like the map. -/
structure Reads (tree : RawBTree K V) (entries : List (K × V)) : Prop where
  toList : tree.toList = entries
  get : ∀ key, tree.get key = .ok (lookupEntry key entries)
  iterate : tree.iterate = .ok entries
  len : tree.len = entries.length

theorem Holds.reads (holds : Holds layout tree held) : Reads tree (contents held) :=
  ⟨holds.toList_eq, holds.get_eq, holds.iterate_eq, holds.len_eq⟩

theorem Packed.reads {root : NodeIdx} {items : List (LevelItem K)} {pairs : List (K × V)}
    (packed : Packed layout tree root items pairs) : Reads tree pairs := by
  obtain rfl := packed.contents_eq
  refine ⟨packed.standing.toList_eq.trans ?_, packed.readable.get_eq, packed.row.iterate_eq packed.length_le, ?_⟩
  · rw [contents, nodes_marks]
    rfl
  · rw [packed.row.len, contents, List.length_map]

/-- What is left of two trees that have been appended: one that reads like the entries, fit for
any further calls under a condition, and an empty one. -/
def Appended (layout : NodeLayout) (entries : List (K × V)) (fit : Prop)
    (outcome : Result (RawBTree K V × RawBTree K V)) : Prop :=
  ∃ joined left, outcome = .ok (joined, left) ∧ Reads joined entries ∧
    (∃ leftHeld, Holds layout left leftHeld ∧ contents leftHeld = []) ∧
    (fit → ∃ held, Holds layout joined held ∧ contents held = entries)

theorem Holds.visited (holds : Holds layout tree held) : ∃ leaves separators, Visited tree leaves separators := by
  cases holds with
  | vacant empty => exact ⟨_, _, empty.visited⟩
  | rooted rooted =>
      obtain ⟨separators, visited⟩ := rooted.standing.visited fun depth lower idx member =>
        (rooted.crownAt.crown.internal_at lower member).internal
      exact ⟨_, _, visited⟩

theorem Holds.drainAll (holds : Holds layout tree held) :
    ∃ tree', tree.drainAll = .ok (contents held, tree') ∧ Vacant tree' := by
  obtain ⟨leaves, separators, visited⟩ := holds.visited
  obtain ⟨tree', drained, vacant⟩ := visited.drainAll
  exact ⟨tree', holds.toList_eq ▸ drained, vacant⟩

theorem bulkLoad_appended {pairs : List (K × V)} {left : RawBTree K V} (ascending : Ascending pairs)
    (vacant : Vacant left) :
    Appended layout pairs (EvenLevels layout pairs.length)
      ((RawBTree.bulkLoad layout pairs).map fun packed => (packed, left)) := by
  rcases bulkLoad_cases layout ascending with ⟨rfl, made⟩ | ⟨packed, root, items, made, shape⟩
  · rw [made]
    have empty : Holds layout (RawBTree.new : RawBTree K V) [] := .vacant new_vacant
    exact ⟨.new, left, rfl, empty.reads, ⟨[], .vacant vacant, rfl⟩, fun _ => ⟨[], empty, rfl⟩⟩
  · rw [made]
    exact ⟨packed, left, rfl, shape.reads, ⟨[], .vacant vacant, rfl⟩,
      fun even => ⟨_, .rooted (shape.toRooted even), shape.contents_eq⟩⟩

theorem Holds.nonempty (holds : Holds layout tree held) (stored : tree.len ≠ 0) : contents held ≠ [] := by
  intro empty
  rw [holds.len_eq, empty] at stored
  exact stored rfl

theorem Holds.of_empty (holds : Holds layout tree held) (none_stored : tree.len = 0) : contents held = [] := by
  rw [holds.len_eq] at none_stored
  exact List.length_eq_zero_iff.mp none_stored

end Outcomes

section Strategies

/-- Nothing to append, or nothing to append to. -/
theorem appended_empty {fit : Prop} (holds : Holds layout tree held) (holds' : Holds layout other otherHeld) :
    (other.len = 0 → Appended layout (insertEntries (contents held) (contents otherHeld)) fit (.ok (tree, other))) ∧
      (tree.len = 0 → Appended layout (insertEntries (contents held) (contents otherHeld)) fit (.ok (other, tree))) := by
  refine ⟨fun empty => ?_, fun empty => ?_⟩
  · have nothing := holds'.of_empty empty
    rw [nothing]
    exact ⟨tree, other, rfl, holds.reads, ⟨_, holds', nothing⟩, fun _ => ⟨held, holds, rfl⟩⟩
  · have nothing := holds.of_empty empty
    have same : insertEntries (contents held) (contents otherHeld) = contents otherHeld := by
      rw [nothing, ← (append_eq_insertEntries (List.Pairwise.nil) holds'.sorted.ascending (by simp)).1]
      rfl
    rw [same]
    exact ⟨other, tree, rfl, holds'.reads, ⟨_, holds, nothing⟩, fun _ => ⟨otherHeld, holds', rfl⟩⟩

/-- Draining both and packing what comes out in some way as their union. -/
theorem Holds.packs (holds : Holds layout tree held) (holds' : Holds layout other otherHeld)
    {merge : List (K × V) → List (K × V) → List (K × V)}
    (merged : merge (contents held) (contents otherHeld) = insertEntries (contents held) (contents otherHeld)) :
    Appended layout (insertEntries (contents held) (contents otherHeld))
      (tree.len ≠ 0 → other.len ≠ 0 → EvenLevels layout (insertEntries (contents held) (contents otherHeld)).length)
      (if other.len = 0 then .ok (tree, other)
      else if tree.len = 0 then .ok (other, tree)
      else do
        let (left, _) ← tree.drainAll
        let (right, other) ← other.drainAll
        let packed ← RawBTree.bulkLoad layout (merge left right)
        pure (packed, other)) := by
  split
  · next empty => exact (appended_empty holds holds').1 empty
  · next stored' =>
      split
      · next empty => exact (appended_empty holds holds').2 empty
      · next stored =>
          obtain ⟨_, drained, _⟩ := holds.drainAll
          obtain ⟨left, drained', vacant⟩ := holds'.drainAll
          obtain ⟨joined, left', made, reads, empty, even⟩ := @bulkLoad_appended _ _ _ layout _ _
            (holds.sorted.ascending.insertEntries (contents otherHeld)) vacant
          refine ⟨joined, left', ?_, reads, empty, fun fit => even (fit stored stored')⟩
          simp only [drained, drained', bind, Except.bind, merged]
          exact made

theorem Holds.appendDrain (holds : Holds layout tree held) (holds' : Holds layout other otherHeld) :
    Appended layout (insertEntries (contents held) (contents otherHeld))
      (tree.len ≠ 0 → other.len ≠ 0 → EvenLevels layout (insertEntries (contents held) (contents otherHeld)).length)
      (tree.appendDrain layout other) :=
  holds.packs holds' (mergeEntries_eq holds.sorted.ascending holds'.sorted.ascending)

/-- Where the ranges are disjoint, the merge can be left out. -/
theorem Holds.appendConcat (holds : Holds layout tree held) (holds' : Holds layout other otherHeld)
    (apart : ∀ pair ∈ contents held, ∀ pair' ∈ contents otherHeld, pair.1 < pair'.1) :
    Appended layout (insertEntries (contents held) (contents otherHeld))
      (tree.len ≠ 0 → other.len ≠ 0 → EvenLevels layout (insertEntries (contents held) (contents otherHeld)).length)
      (tree.appendConcat layout other) :=
  @Holds.packs _ _ _ _ _ _ _ _ holds holds' (· ++ ·)
    (append_eq_insertEntries holds.sorted.ascending holds'.sorted.ascending apart).1

theorem Holds.insertEach (holds : Holds layout tree held) (pairs : List (K × V)) :
    ∃ tree' held', RawBTree.insertEach layout pairs tree = .ok tree' ∧ Holds layout tree' held' ∧
      contents held' = insertEntries (contents held) pairs := by
  induction pairs generalizing tree held with
  | nil => exact ⟨tree, held, rfl, holds, rfl⟩
  | cons pair pairs ih =>
      obtain ⟨key, value⟩ := pair
      obtain ⟨middle, between, inserted, holds₁, contentsEq, _⟩ :=
        @Holds.apply _ _ _ _ _ _ ⟨contents held, holds.sorted.ascending⟩ holds rfl (.insert key value)
      obtain ⟨tree', held', later, holds₂, contentsEq'⟩ := ih holds₁
      have step : ∃ old, tree.insert layout key value = .ok (old, middle) := by
        simp only [RawBTree.apply] at inserted
        cases made : tree.insert layout key value with
        | error fault => simp [made, bind, Except.bind] at inserted
        | ok outcome =>
            simp only [made, bind, Except.bind] at inserted
            obtain ⟨_, rfl⟩ := Prod.mk.inj (Except.ok.inj inserted)
            exact ⟨outcome.1, rfl⟩
      obtain ⟨old, made⟩ := step
      refine ⟨tree', held', ?_, holds₂, ?_⟩
      · simp only [RawBTree.insertEach, made, later, bind, Except.bind]
      · rw [contentsEq', contentsEq]
        rfl

/-- One insertion for each entry is always right. -/
theorem Holds.appendExtend (holds : Holds layout tree held) (holds' : Holds layout other otherHeld) :
    Appended layout (insertEntries (contents held) (contents otherHeld)) True (tree.appendExtend layout other) := by
  rw [RawBTree.appendExtend]
  split
  · next empty => exact (appended_empty holds holds').1 empty
  · split
    · next empty => exact (appended_empty holds holds').2 empty
    · obtain ⟨left, drained, vacant⟩ := holds'.drainAll
      obtain ⟨joined, joinedHeld, inserted, joinedHolds, contentsEq⟩ := holds.insertEach (contents otherHeld)
      refine ⟨joined, left, ?_, contentsEq ▸ joinedHolds.reads, ⟨[], .vacant vacant, rfl⟩,
        fun _ => ⟨joinedHeld, joinedHolds, contentsEq⟩⟩
      simp only [drained, inserted, bind, Except.bind]
      rfl

/-- Every key of the one tree is below every key of the other. -/
def KeysBelow (tree other : RawBTree K V) : Prop :=
  ∀ pair ∈ tree.toList, ∀ pair' ∈ other.toList, pair.1 < pair'.1

/-- The leaves that come to lie next to each other are not empty. -/
def Graftable (lower upper : RawBTree K V) : Prop := LastLeafStored lower ∧ FirstLeafStored upper

/-- The graft itself, or packing where the upper tree is the higher one. -/
theorem Holds.appendGraft (holds : Holds layout tree held) (holds' : Holds layout other otherHeld)
    (apart : KeysBelow tree other)
    (graftable : tree.len ≠ 0 → other.len ≠ 0 → other.height ≤ tree.height → Graftable tree other) :
    Appended layout (insertEntries (contents held) (contents otherHeld))
      (tree.len ≠ 0 → other.len ≠ 0 → tree.height < other.height →
        EvenLevels layout (insertEntries (contents held) (contents otherHeld)).length)
      (tree.appendGraft layout other) := by
  rw [KeysBelow, holds.toList_eq, holds'.toList_eq] at apart
  rw [RawBTree.appendGraft]
  split
  · next empty => exact (appended_empty holds holds').1 empty
  · next stored' =>
      split
      · next empty => exact (appended_empty holds holds').2 empty
      · next stored =>
          have nonempty := holds.nonempty stored
          have nonempty' := holds'.nonempty stored'
          by_cases higher : tree.height < other.height
          · have refused : tree.appendGraftDisjoint layout other = .ok none := by
              rw [RawBTree.appendGraftDisjoint, if_pos higher]
            obtain ⟨joined, left, made, reads, empty, even⟩ := holds.appendDrain holds'
            refine ⟨joined, left, ?_, reads, empty,
              fun fit => even fun stored stored' => fit stored stored' higher⟩
            simp only [refused, bind, Except.bind]
            exact made
          · cases holds with
            | vacant => exact absurd rfl nonempty
            | @rooted root items rooted =>
                cases holds' with
                | vacant => exact absurd rfl nonempty'
                | @rooted otherRoot otherItems rooted' =>
                    have enough := Nat.not_lt.mp higher
                    obtain ⟨storedLast, storedFirst⟩ := graftable stored stored' enough
                    obtain ⟨grafted, left, separator, made, joined, vacant, _⟩ :=
                      rooted.appendGraftDisjoint rooted' enough storedLast storedFirst apart
                    have union := (append_eq_insertEntries rooted.row.sorted.ascending rooted'.row.sorted.ascending
                      apart).1
                    rw [← union]
                    have contentsEq : contents (marks tree.node items ++ .sep separator :: marks other.node otherItems) =
                        contents (marks tree.node items) ++ contents (marks other.node otherItems) :=
                      contents_append _ _
                    refine ⟨grafted, left, ?_, contentsEq ▸ joined.reads, ⟨[], .vacant vacant, rfl⟩,
                      fun _ => ⟨_, joined, contentsEq⟩⟩
                    simp only [made, bind, Except.bind]
                    rfl

end Strategies

section Law

/-- `append` grafts one of the trees onto the other. -/
def Grafts (tree other : RawBTree K V) : Prop :=
  (KeysBelow tree other ∧ other.height ≤ tree.height) ∨ (KeysBelow other tree ∧ tree.height ≤ other.height)

/-- Where it grafts, the leaves that come to lie next to each other are not empty. -/
structure GraftsStored (tree other : RawBTree K V) : Prop where
  forward : KeysBelow tree other → other.height ≤ tree.height → Graftable tree other
  backward : KeysBelow other tree → tree.height ≤ other.height → Graftable other tree

/-- The check of the last key of one list against the first key of another. -/
theorem ends_apart {left right : List (K × V)} (leftAscending : Ascending left) (rightAscending : Ascending right)
    {last first : K × V} (isLast : left.getLast? = some last) (isFirst : right.head? = some first) :
    last.1 < first.1 ↔ ∀ pair ∈ left, ∀ pair' ∈ right, pair.1 < pair'.1 := by
  obtain ⟨front, rfl⟩ := List.getLast?_eq_some_iff.mp isLast
  obtain ⟨back, rfl⟩ : ∃ back, right = first :: back := by
    cases right with
    | nil => cases isFirst
    | cons head back => exact ⟨back, by rw [Option.some.inj isFirst]⟩
  constructor
  · intro apart pair member pair' member'
    have low : pair.1 ≤ last.1 := by
      rcases List.mem_append.mp member with inFront | isLast
      · exact le_of_lt ((List.pairwise_append.mp leftAscending).2.2 pair inFront last List.mem_cons_self)
      · rw [List.mem_singleton.mp isLast]
    have high : first.1 ≤ pair'.1 := by
      rcases List.mem_cons.mp member' with rfl | inBack
      · exact le_rfl
      · exact le_of_lt ((List.pairwise_cons.mp rightAscending).1 pair' inBack)
    exact lt_of_le_of_lt low (lt_of_lt_of_le apart high)
  · exact fun apart => apart last (by simp) first List.mem_cons_self

theorem Holds.append (holds : Holds layout tree held) (holds' : Holds layout other otherHeld)
    (graftable : tree.len ≠ 0 → other.len ≠ 0 → GraftsStored tree other) :
    Appended layout (insertEntries (contents held) (contents otherHeld))
      (¬ Grafts tree other → EvenLevels layout (insertEntries (contents held) (contents otherHeld)).length)
      (tree.append layout other) := by
  rw [RawBTree.append]
  split
  · next empty => exact (appended_empty holds holds').1 empty
  · next stored' =>
      split
      · next empty => exact (appended_empty holds holds').2 empty
      · next stored =>
          obtain ⟨forward, backward⟩ := graftable stored stored'
          have ascending := holds.sorted.ascending
          have ascending' := holds'.sorted.ascending
          obtain ⟨first, isFirst⟩ := Option.isSome_iff_exists.mp (List.isSome_head?.mpr (holds.nonempty stored))
          obtain ⟨first', isFirst'⟩ := Option.isSome_iff_exists.mp (List.isSome_head?.mpr (holds'.nonempty stored'))
          have isLast := List.getLast?_eq_some_getLast (holds.nonempty stored)
          have isLast' := List.getLast?_eq_some_getLast (holds'.nonempty stored')
          have below := ends_apart ascending ascending' isLast isFirst'
          have above := ends_apart ascending' ascending isLast' isFirst
          have sameBelow : KeysBelow tree other ↔ ∀ pair ∈ contents held, ∀ pair' ∈ contents otherHeld, pair.1 < pair'.1 := by
            rw [KeysBelow, holds.toList_eq, holds'.toList_eq]
          have sameAbove : KeysBelow other tree ↔ ∀ pair ∈ contents otherHeld, ∀ pair' ∈ contents held, pair.1 < pair'.1 := by
            rw [KeysBelow, holds.toList_eq, holds'.toList_eq]
          have notBoth : KeysBelow tree other → ¬ KeysBelow other tree := by
            rw [sameBelow, sameAbove]
            intro apart apart'
            have up := apart first (List.mem_of_head? isFirst) first' (List.mem_of_head? isFirst')
            exact lt_asymm up (apart' first' (List.mem_of_head? isFirst') first (List.mem_of_head? isFirst))
          simp only [holds.lastKeyValue_eq, holds'.lastKeyValue_eq, holds.firstKeyValue_eq, holds'.firstKeyValue_eq,
            isFirst, isFirst', isLast, isLast', RawBTree.unwrapEntry, bind, Except.bind]
          split
          · next isBelow =>
              have apart := sameBelow.mpr (below.mp isBelow)
              obtain ⟨joined, left, made, reads, empty, fits⟩ := holds.appendGraft holds' apart
                fun _ _ enough => forward apart enough
              refine ⟨joined, left, made, reads, empty, fun fit => fits fun _ _ higher => fit ?_⟩
              rintro (⟨_, enough⟩ | ⟨apart', _⟩)
              · omega
              · exact notBoth apart apart'
          · next notBelow =>
              split
              · next isAbove =>
                  have apart := sameAbove.mpr (above.mp isAbove)
                  have union := append_eq_insertEntries ascending' ascending (above.mp isAbove)
                  obtain ⟨joined, left, made, reads, empty, fits⟩ := holds'.appendGraft holds apart
                    fun _ _ enough => backward apart enough
                  rw [← union.1, union.2] at reads fits
                  refine ⟨joined, left, made, reads, empty, fun fit => fits fun _ _ higher => fit ?_⟩
                  rintro (⟨apart', _⟩ | ⟨_, enough⟩)
                  · exact notBoth apart' apart
                  · omega
              · next notAbove =>
                  obtain ⟨joined, left, made, reads, empty, fits⟩ := holds.appendDrain holds'
                  refine ⟨joined, left, made, reads, empty, fun fit => fits fun _ _ => fit ?_⟩
                  rintro (⟨apart, _⟩ | ⟨apart, _⟩)
                  · exact notBelow (below.mpr (sameBelow.mp apart))
                  · exact notAbove (above.mpr (sameAbove.mp apart))

/-- The first and the last leaf of a tree have entries. -/
theorem ends_stored (tree : RawBTree K V)
    (stored : (tree.firstLeaf.map fun leaf => (tree.node leaf).entries.isEmpty,
      tree.lastLeaf.map fun leaf => (tree.node leaf).entries.isEmpty) = (some false, some false)) :
    FirstLeafStored tree ∧ LastLeafStored tree := by
  obtain ⟨first, last⟩ := Prod.mk.inj stored
  refine ⟨fun leaf isFirst empty => ?_, fun leaf isLast empty => ?_⟩
  · rw [show tree.firstLeaf = some leaf from isFirst] at first
    simp [empty] at first
  · rw [show tree.lastLeaf = some leaf from isLast] at last
    simp [empty] at last

/-- One of the ways to append has made the union and has left an empty tree. -/
def MakesUnion (layout : NodeLayout) (tree other : RawBTree K V)
    (outcome : Result (RawBTree K V × RawBTree K V)) : Prop :=
  ∃ joined left, outcome = .ok (joined, left) ∧ Reads joined (insertEntries tree.toList other.toList) ∧
    left.iterate = .ok [] ∧ ∀ ops : List (MapOp K V), ∃ left',
      RawBTree.run layout ops left = .ok ((runSorted ops .empty).1, left')

theorem Appended.makesUnion {fit : Prop} {outcome : Result (RawBTree K V × RawBTree K V)}
    (holds : Holds layout tree held) (holds' : Holds layout other otherHeld)
    (appended : Appended layout (insertEntries (contents held) (contents otherHeld)) fit outcome) :
    MakesUnion layout tree other outcome := by
  obtain ⟨joined, left, made, reads, ⟨leftHeld, leftHolds, empty⟩, _⟩ := appended
  rw [← holds.toList_eq, ← holds'.toList_eq] at reads
  refine ⟨joined, left, made, reads, empty ▸ leftHolds.iterate_eq, fun ops => ?_⟩
  obtain ⟨left', _, ran, _⟩ := @Holds.run _ _ _ _ _ _ .empty leftHolds empty ops
  exact ⟨left', ran⟩

end Law

end Optimap.FlatBTree
