import Optimap.FlatBTree.AppendLaw
import Optimap.FlatBTree.SplitHalves

/-!
# `split_off` parts a tree at a key

Both parts are whole trees again unless the cut leaves a node without keys under one that has
some. The two ways to cut move different halves and draining builds both anew, with the same
contents.
-/

set_option autoImplicit false
set_option linter.unusedSectionVars false

namespace Optimap.FlatBTree

open Lib

variable {K V S : Type} [LinearOrder K] {layout : NodeLayout} {tree l r : RawBTree K V} {root : NodeIdx}
  {items : List (LevelItem K)} {held : List (Mark K V)} {pivot : K}

/-- Neither side of the cut gets a node without keys under one with keys. -/
def RawBTree.splitsEvenly (tree : RawBTree K V) (pivot : K) : Bool :=
  match tree.lowerBound pivot with
  | .ok (some (leaf, slot)) =>
      match tree.pathToNode tree.height leaf with
      | .ok path => decide (Tapers (leftCounts (decide (0 < slot)) path) ∧ Tapers (rightCounts tree.node path))
      | .error _ => false
  | _ => true

section Parting

/-- Of ascending entries, the partition point separates the two. -/
theorem partitionPoint_parts {entries : List (K × V)} (ascending : Ascending entries) :
    entries.take (RawBTree.partitionPoint (fun entry => entry.1 < pivot) entries) = belowKey pivot entries ∧
      entries.drop (RawBTree.partitionPoint (fun entry => entry.1 < pivot) entries) = fromKey pivot entries := by
  set small := entries.takeWhile fun entry => decide (entry.1 < pivot) with smallDef
  set large := entries.dropWhile fun entry => decide (entry.1 < pivot) with largeDef
  have split : entries = small ++ large := List.takeWhile_append_dropWhile.symm
  have point : RawBTree.partitionPoint (fun entry => decide (entry.1 < pivot)) entries = small.length := rfl
  have allSmall : ∀ entry ∈ small, entry.1 < pivot := fun entry member => by
    simpa using List.all_eq_true.mp List.all_takeWhile entry member
  have allLarge : ∀ entry ∈ large, pivot ≤ entry.1 := by
    rw [split] at ascending
    have later := (List.pairwise_append.mp ascending).2.1
    have head := List.head?_dropWhile_not (fun entry : K × V => decide (entry.1 < pivot)) entries
    rw [← largeDef] at head
    cases largeEq : large with
    | nil => simp
    | cons first rest =>
        rw [largeEq] at head later
        have least : pivot ≤ first.1 := by simpa using head
        intro entry member
        rcases List.mem_cons.mp member with rfl | member
        · exact least
        · exact least.trans ((List.pairwise_cons.mp later).1 entry member).le
  obtain ⟨lower, upper⟩ := parts_of_append allSmall allLarge
  rw [← split] at lower upper
  rw [point, lower, upper]
  exact ⟨by rw [split, List.take_left], by rw [split, List.drop_left]⟩

/-- The entries on the right of the cut. -/
theorem LowerHit.all_upper {left right : List (LevelItem K)} {leaf : NodeIdx} {below above : List (KeyObj K × V)}
    {entry : KeyObj K × V} (standing : Standing layout tree root items)
    (lowerHit : LowerHit tree items pivot left leaf right below entry above) :
    ∀ other ∈ entry :: above ++ Item.nodes (marks tree.node right), pivot ≤ other.1.key := by
  intro other member
  rcases List.mem_cons.mp member with rfl | later
  · exact lowerHit.upper
  · rw [nodes_marks] at later
    exact lowerHit.upper.trans (lowerHit.upper_lt standing other later).le

/-- A search that gives up finds no place to cut. -/
theorem Holds.splitOffBy_overlooks (holds : Holds layout tree held) (overlooks : Overlooks tree pivot)
    (cut : NodeIdx → Nat → Result (RawBTree K V × RawBTree K V)) :
    tree.splitOffBy pivot cut = .ok (tree, tree.fresh) := by
  cases holds with
  | vacant empty => rw [RawBTree.splitOffBy, empty.root]
  | rooted rooted =>
      rw [RawBTree.splitOffBy, rooted.crownAt.root_eq, rooted.standing.lowerBound_overlooks overlooks]
      rfl

/-- Where the cut falls. -/
theorem Holds.splitOffBy_cases (holds : Holds layout tree held)
    (sound : Overlooks tree pivot → ∀ pair ∈ contents held, pair.1 < pivot)
    (cut : NodeIdx → Nat → Result (RawBTree K V × RawBTree K V)) :
    (tree.splitOffBy pivot cut = .ok (tree, tree.fresh) ∧ ∀ pair ∈ contents held, pair.1 < pivot) ∨
    (tree.splitOffBy pivot cut = .ok (tree.fresh, tree) ∧ ∀ pair ∈ contents held, pivot ≤ pair.1) ∨
    ∃ root items left leaf right below entry above, Rooted layout tree root items ∧ held = marks tree.node items ∧
      LowerHit tree items pivot left leaf right below entry above ∧
      tree.lowerBound pivot = .ok (some (leaf, below.length)) ∧
      ¬ (tree.firstLeaf = some leaf ∧ below.length = 0) ∧ tree.splitOffBy pivot cut = cut leaf below.length := by
  cases holds with
  | vacant empty =>
      refine .inl ⟨?_, by simp⟩
      rw [RawBTree.splitOffBy, empty.root]
  | @rooted root items rooted =>
      rcases rooted.standing.lowerBound_cases pivot with
        ⟨left, leaf, right, below, entry, above, lowerHit, found, _⟩ | ⟨found, _, small⟩ | ⟨found, overlooks⟩
      · have step : tree.splitOffBy pivot cut = if tree.firstLeaf = some leaf ∧ below.length = 0 then
            .ok (tree.fresh, tree) else cut leaf below.length := by
          rw [RawBTree.splitOffBy, rooted.crownAt.root_eq]
          simp only [found, bind, Except.bind]
          rfl
        by_cases first : tree.firstLeaf = some leaf ∧ below.length = 0
        · refine .inr (.inl ⟨by rw [step, if_pos first], fun pair member => ?_⟩)
          obtain ⟨other, isOther, rfl⟩ := List.mem_map.mp member
          obtain rfl : below = [] := List.length_eq_zero_iff.mp first.2
          have leftmost : Item.nodes left = [] := by
            have unique := rooted.nodes_nodup
            have isFirst := rooted.row.first.symm.trans first.1
            rw [lowerHit.hit.split, Item.nodes_append, Item.nodes_node] at unique isFirst
            cases front : Item.nodes left with
            | nil => rfl
            | cons head rest =>
                rw [front] at unique isFirst
                obtain rfl := Option.some.inj isFirst
                exact absurd (List.mem_append_right rest List.mem_cons_self) (List.nodup_cons.mp unique).1
          refine lowerHit.all_upper rooted.standing other ?_
          rw [nodes_marks, lowerHit.hit.split, Item.nodes_append, Item.nodes_node, leftmost, List.nil_append,
            List.flatMap_cons, lowerHit.hit.entries, ← nodes_marks] at isOther
          exact isOther
        · exact .inr (.inr ⟨root, items, left, leaf, right, below, entry, above, rooted, rfl, lowerHit, found, first,
            by rw [step, if_neg first]⟩)
      · have step : tree.splitOffBy pivot cut = .ok (tree, tree.fresh) := by
          rw [RawBTree.splitOffBy, rooted.crownAt.root_eq]
          simp only [found, bind, Except.bind]
          rfl
        refine .inl ⟨step, fun pair member => ?_⟩
        obtain ⟨entry, isEntry, rfl⟩ := List.mem_map.mp member
        exact small entry isEntry
      · exact .inl ⟨(Holds.rooted rooted).splitOffBy_overlooks overlooks cut, sound overlooks⟩

end Parting

section Surgery

theorem fresh_vacant (tree : RawBTree K V) : Vacant tree.fresh := ⟨rfl, rfl, rfl, rfl, rfl, new_vacant.owned⟩

/-- Nothing is cut where one part is empty. -/
theorem Holds.halved_whole (holds : Holds layout tree held) :
    Halved layout tree tree tree.fresh held held [] [] ∧ Halved layout tree tree.fresh tree held [] held [] := by
  refine ⟨⟨holds, .vacant (fresh_vacant tree), by simp, ?_, ⟨rfl, rfl⟩, Nat.zero_le _⟩,
    ⟨.vacant (fresh_vacant tree), holds, by simp, ?_, ⟨rfl, rfl⟩, Nat.zero_le _⟩⟩
  · change (tree.ledger.dropped ++ []).Perm ([] ++ tree.ledger.dropped)
    rw [List.append_nil, List.nil_append]
  · change ([] ++ tree.ledger.dropped).Perm ([] ++ tree.ledger.dropped)
    exact List.Perm.refl _

/-- Two trees with the entries of one below and from a key on. -/
def HalvedAt (layout : NodeLayout) (tree : RawBTree K V) (held : List (Mark K V)) (pivot : K) (l r : RawBTree K V) : Prop :=
  ∃ lower upper gone, Halved layout tree l r held lower upper gone ∧
    contents lower = belowKey pivot (contents held) ∧ contents upper = fromKey pivot (contents held)

theorem Holds.halvedAt_whole (holds : Holds layout tree held) :
    ((∀ pair ∈ contents held, pair.1 < pivot) → HalvedAt layout tree held pivot tree tree.fresh) ∧
      ((∀ pair ∈ contents held, pivot ≤ pair.1) → HalvedAt layout tree held pivot tree.fresh tree) := by
  refine ⟨fun small => ⟨_, _, _, holds.halved_whole.1, ?_⟩, fun large => ⟨_, _, _, holds.halved_whole.2, ?_⟩⟩
  · have parts := @parts_of_append _ _ _ pivot _ [] small (by simp)
    rw [List.append_nil] at parts
    exact ⟨parts.1.symm, parts.2.symm⟩
  · have parts := @parts_of_append _ _ _ pivot [] _ (by simp) large
    exact ⟨parts.1.symm, parts.2.symm⟩

/-- Either way to cut, where both sides keep their shape. -/
theorem Holds.surgery (holds : Holds layout tree held)
    (sound : Overlooks tree pivot → ∀ pair ∈ contents held, pair.1 < pivot)
    (even : tree.splitsEvenly pivot = true) (moveLeft : Bool) :
    ∃ l r, tree.splitOff pivot moveLeft = .ok (l, r) ∧ HalvedAt layout tree held pivot l r := by
  have either : tree.splitOff pivot moveLeft =
      tree.splitOffBy pivot (if moveLeft then tree.surgeryLeft else tree.surgeryRight) := by
    cases moveLeft <;> rfl
  rw [either]
  rcases holds.splitOffBy_cases sound (if moveLeft then tree.surgeryLeft else tree.surgeryRight) with
    ⟨made, small⟩ | ⟨made, large⟩ |
    ⟨root, items, left, leaf, right, below, entry, above, rooted, rfl, lowerHit, found, inside, made⟩
  · exact ⟨_, _, made, holds.halvedAt_whole.1 small⟩
  · exact ⟨_, _, made, holds.halvedAt_whole.2 large⟩
  · have onRow : leaf ∈ Item.nodes items := by rw [lowerHit.hit.split]; simp
    obtain ⟨path, pathEq, leads⟩ := pathToNode_leads rooted.crownAt onRow le_rfl
    rw [RawBTree.splitsEvenly, found] at even
    simp only [pathEq, decide_eq_true_eq] at even
    have cuts : ∃ l r lower upper gone, (if moveLeft then tree.surgeryLeft else tree.surgeryRight) leaf below.length =
        .ok (l, r) ∧ Halved layout tree l r (marks tree.node items) lower upper gone ∧
        lower ++ gone.map .sep = marks tree.node left ++ below.map .node ∧
        upper = (entry :: above).map .node ++ marks tree.node right := by
      cases moveLeft with
      | true => exact rooted.surgeryLeft_halves lowerHit.hit.split lowerHit.hit.entries pathEq leads inside even.1 even.2
      | false => exact rooted.surgeryRight_halves lowerHit.hit.split lowerHit.hit.entries pathEq leads inside even.1 even.2
    obtain ⟨l, r, lower, upper, gone, cut, halved, lowerEq, upperEq⟩ := cuts
    refine ⟨l, r, made.trans cut, lower, upper, gone, halved, ?_⟩
    have noEntries : Item.nodes (gone.map .sep : List (Mark K V)) = [] := by simp [Item.nodes]
    have lowerNodes : Item.nodes lower = Item.nodes (marks tree.node left) ++ below := by
      have same := congrArg Item.nodes lowerEq
      rwa [Item.nodes_append, Item.nodes_append, noEntries, List.append_nil, nodes_map_node] at same
    have parts := @parts_of_append _ _ _ pivot (contents lower) (contents upper)
      (fun pair member => by
        obtain ⟨other, isOther, rfl⟩ := List.mem_map.mp member
        exact lowerHit.lower other (lowerNodes ▸ isOther))
      (fun pair member => by
        obtain ⟨other, isOther, rfl⟩ := List.mem_map.mp member
        rw [upperEq, Item.nodes_append, nodes_map_node] at isOther
        exact lowerHit.all_upper rooted.standing other isOther)
    have contentsEq : contents (marks tree.node items) = contents lower ++ contents upper := by
      rw [halved.marks, contents_append, contents_append]
      have nothing : contents (gone.map .sep : List (Mark K V)) = [] := by rw [contents, noEntries]; rfl
      rw [nothing, List.nil_append]
    rw [contentsEq]
    exact ⟨parts.1.symm, parts.2.symm⟩

end Surgery

section Law

/-- The outcome is two maps, of what is below the key and of the rest, fit for any further
calls. -/
def PartsAt (S : Type) (layout : NodeLayout) (tree : RawBTree K V) (pivot : K)
    (outcome : Result (RawBTree K V × RawBTree K V)) : Prop :=
  ∃ l r, ∃ lower upper : SortedMap K V, outcome = .ok (l, r) ∧ lower.entries = belowKey pivot tree.toList ∧
    upper.entries = fromKey pivot tree.toList ∧
    ∀ later : List (Call S K V), Follows layout l lower later ∧ Follows layout r upper later

theorem length_leftCounts (present : Bool) (path : PathBuf) : (leftCounts present path).length ≤ path.length := by
  induction path generalizing present with
  | nil => cases present <;> exact Nat.le_refl 0
  | cons entry path ih =>
      obtain ⟨parent, childPos⟩ := entry
      cases present with
      | true => exact Nat.succ_le_succ (ih true)
      | false =>
          cases childPos with
          | zero => exact (ih false).trans (Nat.le_succ _)
          | succ pos => exact Nat.succ_le_succ (ih true)

theorem tapers_of_short {counts : List Nat} (short : counts.length ≤ 1) : Tapers counts := by
  match counts, short with
  | [], _ => exact List.Pairwise.nil
  | [count], _ => exact List.pairwise_singleton _ _

/-- With one level of internal nodes at most, every cut is even. -/
theorem splitsEvenly_low (tended : Tended layout tree) (low : tree.height ≤ 1) (pivot : K) :
    tree.splitsEvenly pivot = true := by
  obtain ⟨held, holds⟩ := tended.holds
  cases holds with
  | vacant empty => rw [RawBTree.splitsEvenly, RawBTree.lowerBound, empty.root]
  | @rooted root items rooted =>
      rcases rooted.standing.lowerBound_cases pivot with ⟨left, leaf, right, below, _, _, lowerHit, found, _⟩ | ⟨found, _⟩ |
        ⟨found, _⟩
      · have onRow : leaf ∈ Item.nodes items := by rw [lowerHit.hit.split]; simp
        obtain ⟨path, pathEq, leads⟩ := pathToNode_leads rooted.crownAt onRow le_rfl
        have short : path.length ≤ 1 := leads.length_eq.le.trans low
        rw [RawBTree.splitsEvenly, found]
        simp only [pathEq, decide_eq_true_eq]
        exact ⟨tapers_of_short ((length_leftCounts _ path).trans short),
          tapers_of_short (by rw [rightCounts, List.length_map]; exact short)⟩
      · rw [RawBTree.splitsEvenly, found]
      · rw [RawBTree.splitsEvenly, found]

/-- The search for the key does not give up while there are entries from it on. -/
def Sighted (tree : RawBTree K V) (pivot : K) : Prop := Overlooks tree pivot → ∀ pair ∈ tree.toList, pair.1 < pivot

theorem Holds.sighted (holds : Holds layout tree held) (sighted : Sighted tree pivot) :
    Overlooks tree pivot → ∀ pair ∈ contents held, pair.1 < pivot := by
  rw [Sighted, holds.toList_eq] at sighted
  exact sighted

/-- A search that finds a slot has not given up. -/
theorem Tended.sighted (tended : Tended layout tree) {position : NodeIdx × Nat}
    (found : tree.lowerBound pivot = .ok (some position)) : Sighted tree pivot := by
  intro overlooks
  obtain ⟨held, holds⟩ := tended.holds
  cases holds with
  | vacant empty => rw [RawBTree.lowerBound, empty.root] at found; cases found
  | rooted rooted => rw [rooted.standing.lowerBound_overlooks overlooks] at found; cases found

/-- Nine keys on four levels, cut evenly at a slot that begins a leaf. -/
theorem nine_keys : ∃ tree : RawBTree Nat Unit, Tended tinyLayout tree ∧ tree.height = 3 ∧
    tree.splitsEvenly 4 = true ∧ Sighted tree 4 := by
  have observed : (RawBTree.run tinyLayout (ascendingInserts 9) .new).map (fun outcome =>
      (outcome.2.height, outcome.2.splitsEvenly 4, (outcome.2.lowerBound 4).toOption)) =
      .ok (3, true, some (some (7, 0))) := by decide +kernel
  cases ran : RawBTree.run tinyLayout (ascendingInserts 9) .new with
  | error fault => simp [ran, Except.map] at observed
  | ok outcome =>
      rw [ran] at observed
      obtain ⟨height, rest⟩ := Prod.mk.inj (Except.ok.inj observed)
      obtain ⟨even, found⟩ := Prod.mk.inj rest
      have tended := Tended.new.run ran
      refine ⟨outcome.2, tended, height, even, @Tended.sighted _ _ _ _ _ _ tended (7, 0) ?_⟩
      cases search : outcome.2.lowerBound 4 with
      | error fault => rw [search] at found; cases found
      | ok position =>
          rw [search] at found
          rw [Option.some.inj found]

/-- A cut of five keys in front of the second one leaves a bare node under one with keys, and the
right half loses its last key from sight. -/
example : ((RawBTree.run tinyLayout (ascendingInserts 5) .new).bind fun outcome =>
    (outcome.2.splitOff 1 true).map fun parts => (outcome.2.splitsEvenly 1, (parts.2.get 4).toOption)) =
      .ok (false, some none) := by decide +kernel

/-- A cut drops one key object at most, the separator at the cut. Every other one is in one of the
two trees afterwards. -/
theorem split_off_keeps_objects (tended : Tended layout tree) (sighted : Sighted tree pivot)
    (even : tree.splitsEvenly pivot = true) (moveLeft : Bool) :
    ∃ l r, ∃ gone : List (KeyObj K), tree.splitOff pivot moveLeft = .ok (l, r) ∧ gone.length ≤ 1 ∧
      ((l.liveObjects ++ (gone ++ r.liveObjects)).map KeyObj.id).Perm (tree.liveObjects.map KeyObj.id) ∧
      (l.ledger.dropped ++ r.ledger.dropped).Perm (gone.map KeyObj.id ++ tree.ledger.dropped) ∧
      l.ledger.nextId = tree.ledger.nextId ∧ r.ledger.nextId = tree.ledger.nextId := by
  obtain ⟨held, holds⟩ := tended.holds
  obtain ⟨l, r, made, lower, upper, gone, halved, _⟩ := holds.surgery (holds.sighted sighted) even moveLeft
  refine ⟨l, r, gone, made, halved.few, ?_, halved.dropped, halved.nextId⟩
  have sepIds : objectIds (gone.map .sep : List (Mark K V)) = gone.map KeyObj.id := by simp [objectIds]
  refine List.Perm.trans ?_ holds.liveObjects_perm.symm
  rw [halved.marks, objectIds_append, objectIds_append, sepIds, List.map_append, List.map_append]
  exact halved.left.liveObjects_perm.append (halved.right.liveObjects_perm.append_left _)

theorem split_off_keeps_objects_nine :
    ∃ tree l r : RawBTree Nat Unit, ∃ gone : List (KeyObj Nat), Tended tinyLayout tree ∧ tree.height = 3 ∧
      tree.splitOff 4 false = .ok (l, r) ∧ gone.length ≤ 1 ∧
      ((l.liveObjects ++ (gone ++ r.liveObjects)).map KeyObj.id).Perm (tree.liveObjects.map KeyObj.id) ∧
      (l.ledger.dropped ++ r.ledger.dropped).Perm (gone.map KeyObj.id ++ tree.ledger.dropped) ∧
      l.ledger.nextId = tree.ledger.nextId ∧ r.ledger.nextId = tree.ledger.nextId := by
  obtain ⟨tree, tended, height, even, sighted⟩ := nine_keys
  obtain ⟨l, r, gone, kept⟩ := split_off_keeps_objects tended sighted even false
  exact ⟨tree, l, r, gone, tended, height, kept⟩

/-- The outcome reads like the two parts. -/
def ReadsParts (tree : RawBTree K V) (pivot : K) (outcome : Result (RawBTree K V × RawBTree K V)) : Prop :=
  ∃ l r, outcome = .ok (l, r) ∧ Reads l (belowKey pivot tree.toList) ∧ Reads r (fromKey pivot tree.toList)

theorem HalvedAt.readsParts (holds : Holds layout tree held) (halved : HalvedAt layout tree held pivot l r) :
    Reads l (belowKey pivot tree.toList) ∧ Reads r (fromKey pivot tree.toList) := by
  obtain ⟨lower, upper, gone, halved, lowerEq, upperEq⟩ := halved
  rw [holds.toList_eq, ← lowerEq, ← upperEq]
  exact ⟨halved.left.reads, halved.right.reads⟩

/-- Packing one part, if there is anything in it. -/
theorem packs_part {pairs : List (K × V)} {empty : RawBTree K V} (ascending : Ascending pairs) (vacant : Vacant empty) :
    ∃ packed, ((pairs.isEmpty = true ∧ packed = empty) ∨
      (pairs.isEmpty = false ∧ RawBTree.bulkLoad layout pairs = .ok packed)) ∧ Reads packed pairs := by
  have nothing : Reads empty [] := (Holds.vacant vacant : Holds layout empty []).reads
  rcases bulkLoad_cases layout ascending with ⟨rfl, _⟩ | ⟨packed, root, items, made, shape⟩
  · exact ⟨empty, .inl ⟨rfl, rfl⟩, nothing⟩
  · cases pairs with
    | nil => exact ⟨empty, .inl ⟨rfl, rfl⟩, nothing⟩
    | cons pair pairs => exact ⟨packed, .inr ⟨rfl, made⟩, shape.reads⟩

/-- Draining and packing makes the two parts of any tree. -/
theorem Holds.splitOffDrain (holds : Holds layout tree held) (sighted : Sighted tree pivot) :
    ReadsParts tree pivot (tree.splitOffDrain layout pivot) := by
  rw [RawBTree.splitOffDrain]
  split
  · next empty =>
      have small : ∀ pair ∈ contents held, pair.1 < pivot := by simp [holds.of_empty empty]
      exact ⟨_, _, rfl, (holds.halvedAt_whole.1 small).readsParts holds⟩
  · rcases holds.splitOffBy_cases (holds.sighted sighted) _ with ⟨made, small⟩ | ⟨made, large⟩ |
      ⟨_, _, _, _, _, _, _, _, _, _, _, _, _, made⟩
    · exact ⟨_, _, made, (holds.halvedAt_whole.1 small).readsParts holds⟩
    · exact ⟨_, _, made, (holds.halvedAt_whole.2 large).readsParts holds⟩
    · obtain ⟨drained, drainEq, vacant⟩ := holds.drainAll
      obtain ⟨lower, upper⟩ := @partitionPoint_parts _ _ _ pivot _ holds.sorted.ascending
      obtain ⟨l, packedLeft, readsLeft⟩ := @packs_part _ _ _ layout (belowKey pivot (contents held)) drained
        (holds.sorted.ascending.filter _) vacant
      obtain ⟨r, packedRight, readsRight⟩ := @packs_part _ _ _ layout (fromKey pivot (contents held)) tree.fresh
        (holds.sorted.ascending.filter _) (fresh_vacant tree)
      refine ⟨l, r, made.trans ?_, ?_, ?_⟩
      · simp only [drainEq, bind, Except.bind, lower, upper]
        rcases packedLeft with ⟨stored, rfl⟩ | ⟨stored, packedLeft⟩
        · rcases packedRight with ⟨stored', rfl⟩ | ⟨stored', packedRight⟩
          · rw [if_pos stored]
            exact if_pos stored'
          · rw [if_pos stored]
            exact (if_neg (by simp [stored'])).trans (by rw [packedRight]; rfl)
        · rcases packedRight with ⟨stored', rfl⟩ | ⟨stored', packedRight⟩
          · rw [if_neg (by simp [stored]), packedLeft]
            exact if_pos stored'
          · rw [if_neg (by simp [stored]), packedLeft]
            exact (if_neg (by simp [stored'])).trans (by rw [packedRight]; rfl)
      · rw [holds.toList_eq]
        exact readsLeft
      · rw [holds.toList_eq]
        exact readsRight

end Law

end Optimap.FlatBTree
