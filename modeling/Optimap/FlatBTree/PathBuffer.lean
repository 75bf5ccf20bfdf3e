import Optimap.FlatBTree.RangeLaw
import Optimap.FlatBTree.TallTrees

/-!
# The path buffer

A descent records its path in an array of `MAX_PATH_HEIGHT` slots, which `push` does not
check in release builds. Every descent takes one slot for each level.
-/

set_option autoImplicit false
set_option linter.unusedSectionVars false

namespace Optimap.FlatBTree

open Lib

def maxPathHeight : Nat := 16

/-- `PathBuf` with its array: the live items, the latest first. -/
structure PathArray where
  items : PathBuf
  fits : items.length ≤ maxPathHeight

namespace PathArray

def new : PathArray := ⟨[], Nat.zero_le _⟩

/-- A path of this length, if the array holds it. -/
def ofItems (items : PathBuf) : Option PathArray :=
  if fits : items.length ≤ maxPathHeight then some ⟨items, fits⟩ else none

/-- `none` is the write behind the last slot. -/
def push (path : PathArray) (item : NodeIdx × Nat) : Option PathArray :=
  if room : path.items.length < maxPathHeight then some ⟨item :: path.items, room⟩ else none

def reverse (path : PathArray) : PathArray :=
  ⟨path.items.reverse, by rw [List.length_reverse]; exact path.fits⟩

theorem push_length {path longer : PathArray} {item : NodeIdx × Nat} (pushed : path.push item = some longer) :
    longer.items.length = path.items.length + 1 := by
  rw [push] at pushed
  split at pushed
  · obtain rfl := Option.some.inj pushed
    rfl
  · cases pushed

theorem full_of_push {path : PathArray} {item : NodeIdx × Nat} (pushed : path.push item = none) :
    maxPathHeight ≤ path.items.length := by
  by_contra room
  rw [push, dif_pos (not_le.mp room)] at pushed
  cases pushed

theorem ofItems_items (path : PathArray) : ofItems path.items = some path := dif_pos path.fits

theorem ofItems_isSome {items : PathBuf} : (∃ path, ofItems items = some path) ↔ items.length ≤ maxPathHeight := by
  unfold ofItems
  by_cases fits : items.length ≤ maxPathHeight
  · simp [fits]
  · simp [fits]

theorem ofItems_eq_none {items : PathBuf} (long : maxPathHeight < items.length) : ofItems items = none :=
  dif_neg (not_le.mpr long)

theorem ofItems_reverse (items : PathBuf) : (ofItems items).map reverse = ofItems items.reverse := by
  unfold ofItems
  by_cases fits : items.length ≤ maxPathHeight
  · simp [fits, reverse]
  · simp [fits]

end PathArray

namespace RawBTree

variable {K V : Type}

/-- The loop of a descent that records its path: `search_for_insert` chooses the slot by
its key, `graft_combine_roots` takes the last one. -/
def descendInto (tree : RawBTree K V) (choose : List (KeyObj K) → Nat) :
    Nat → NodeIdx → PathArray → Result (Option (NodeIdx × PathArray))
  | 0, idx, path => .ok (some (idx, path))
  | height + 1, idx, path => do
      let slot := choose (tree.node idx).keys
      match path.push (idx, slot) with
      | none => pure none
      | some path => do
          let child ← readSlot (tree.node idx).children slot
          descendInto tree choose height child path

/-- The loop of `path_to_node`, which leads up at most `fuel` levels. -/
def climbInto (tree : RawBTree K V) : Nat → NodeIdx → PathArray → Result (Option PathArray)
  | fuel, idx, path =>
      match (tree.node idx).parent with
      | none => .ok (some path)
      | some parent =>
          match fuel with
          | 0 => .error .endless
          | fuel + 1 =>
              match path.push (parent, tree.childSlot parent idx (tree.node parent).keys.length) with
              | none => .ok none
              | some path => climbInto tree fuel parent path

def pathToNodeInto (tree : RawBTree K V) (target : NodeIdx) : Result (Option PathArray) := do
  let path ← tree.climbInto tree.height target .new
  pure (path.map PathArray.reverse)

/-- The right spine `graft_combine_roots` walks, down to one level above a tree of height
`otherHeight` that it hangs there. -/
def graftPath (tree : RawBTree K V) (otherHeight : Nat) : Result (Option PathArray) := do
  let root ← deref tree.root
  let found ← tree.descendInto List.length (tree.height - otherHeight - 1) root .new
  pure (found.map Prod.snd)

variable [LinearOrder K]

/-- The path `insert` records for `key`. An append or a prepend to a leaf with room, and
a first insertion, record none. -/
def insertPath (layout : NodeLayout) (tree : RawBTree K V) (key : K) : Result (Option PathArray) :=
  match tree.root with
  | none => .ok (some .new)
  | some root => do
      let last ← deref tree.lastLeaf
      let lastEntries := (tree.node last).entries
      if lastEntries.getLast?.any (fun entry => entry.1.key < key) then
        if lastEntries.length < layout.leafCap then pure (some .new) else tree.pathToNodeInto last
      else do
        let first ← deref tree.firstLeaf
        let firstEntries := (tree.node first).entries
        if firstEntries.head?.any (fun entry => key < entry.1.key) then
          if firstEntries.length < layout.leafCap then pure (some .new) else tree.pathToNodeInto first
        else do
          let found ← tree.descendInto (scanAbove key) tree.height root .new
          pure (found.map Prod.snd)

/-- The spine `split_off` records for the pivot `key`, when it cuts the tree. -/
def splitPath (tree : RawBTree K V) (key : K) : Result (Option PathArray) := do
  match ← tree.lowerBound key with
  | none => pure (some .new)
  | some (leaf, slot) =>
      if tree.firstLeaf = some leaf ∧ slot = 0 then pure (some .new) else tree.pathToNodeInto leaf

end RawBTree

/-- No operation on the tree writes behind its path buffer: neither an insertion, nor a
cut, nor hanging a lower tree under its right spine. -/
structure PathsFit {K V : Type} [LinearOrder K] (layout : NodeLayout) (tree : RawBTree K V) : Prop where
  insert : ∀ key, ∃ path, tree.insertPath layout key = .ok (some path)
  splitOff : ∀ key, ∃ path, tree.splitPath key = .ok (some path)
  append : ∀ otherHeight < tree.height, ∃ path, tree.graftPath otherHeight = .ok (some path)

variable {K V : Type} {layout : NodeLayout} {tree : RawBTree K V} {root : NodeIdx}

section Descents

/-- A descent that keeps to the live slots reaches a node of the level it leads to. -/
theorem descend_reaches {choose : List (KeyObj K) → Nat} (live : ∀ keys, choose keys ≤ keys.length) {depth : Nat}
    {idx : NodeIdx} (steps : Nat)
    (paired : ∀ upper < depth + steps, ∀ idx ∈ Item.nodes (level tree.node root upper),
      (tree.node idx).children.length = (tree.node idx).keys.length + 1)
    (onLevel : idx ∈ Item.nodes (level tree.node root depth)) :
    ∃ reached, tree.descend choose steps idx = .ok reached ∧
      reached ∈ Item.nodes (level tree.node root (depth + steps)) := by
  induction steps generalizing depth idx with
  | zero => exact ⟨idx, rfl, onLevel⟩
  | succ steps ih =>
      have shift : depth + (steps + 1) = depth + 1 + steps := by omega
      rw [shift] at paired ⊢
      have here := paired depth (by omega)
      have inside : choose (tree.node idx).keys < (tree.node idx).children.length := by
        have bound := live (tree.node idx).keys
        rw [here idx onLevel]
        omega
      have onNext : (tree.node idx).children[choose (tree.node idx).keys] ∈
          Item.nodes (level tree.node root (depth + 1)) := by
        rw [level, nodes_expand here]
        exact List.mem_flatMap.mpr ⟨idx, onLevel, List.getElem_mem inside⟩
      obtain ⟨reached, returned, onEnd⟩ := ih paired onNext
      refine ⟨reached, ?_, onEnd⟩
      rw [RawBTree.descend]
      simp only [readSlot, List.getElem?_eq_getElem inside, bind, Except.bind]
      exact returned

/-- Recording the path of a descent takes one slot of the array for each step. -/
theorem descendInto_eq {choose : List (KeyObj K) → Nat} {reached : NodeIdx} (steps : Nat) (idx : NodeIdx)
    (path : PathArray) (returned : tree.descend choose steps idx = .ok reached) :
    ∃ found : PathBuf, found.length = path.items.length + steps ∧
      tree.descendInto choose steps idx path = .ok ((PathArray.ofItems found).map fun path => (reached, path)) := by
  induction steps generalizing idx path with
  | zero =>
      obtain rfl := Except.ok.inj returned
      refine ⟨path.items, rfl, ?_⟩
      rw [PathArray.ofItems_items]
      rfl
  | succ steps ih =>
      rw [RawBTree.descend] at returned
      rw [RawBTree.descendInto]
      cases read : readSlot (tree.node idx).children (choose (tree.node idx).keys) with
      | error fault => rw [read] at returned; cases returned
      | ok child =>
          rw [read] at returned
          have lower : tree.descend choose steps child = .ok reached := returned
          cases pushed : path.push (idx, choose (tree.node idx).keys) with
          | none =>
              have full := PathArray.full_of_push pushed
              refine ⟨List.replicate (path.items.length + (steps + 1)) (idx, 0), List.length_replicate, ?_⟩
              rw [PathArray.ofItems_eq_none (by rw [List.length_replicate]; omega)]
              rfl
          | some longer =>
              obtain ⟨found, length, stored⟩ := ih child longer lower
              have one := PathArray.push_length pushed
              exact ⟨found, by omega, stored⟩

end Descents

section Climbs

/-- Parent pointers lead back up the levels. -/
structure Hung (tree : RawBTree K V) (root : NodeIdx) : Prop where
  orphan : (tree.node root).parent = none
  paired : ∀ depth < tree.height, ∀ idx ∈ Item.nodes (level tree.node root depth),
    (tree.node idx).children.length = (tree.node idx).keys.length + 1
  adopted : ∀ depth < tree.height, ∀ idx ∈ Item.nodes (level tree.node root depth),
    ∀ child ∈ (tree.node idx).children, (tree.node child).parent = some idx

/-- Climbing from a level takes one slot of the array for each level above it. -/
theorem Hung.climbInto_eq (hung : Hung tree root) {depth fuel : Nat} {idx : NodeIdx} (path : PathArray)
    (inside : depth ≤ tree.height) (enough : depth ≤ fuel) (onLevel : idx ∈ Item.nodes (level tree.node root depth)) :
    ∃ found : PathBuf, found.length = path.items.length + depth ∧
      tree.climbInto fuel idx path = .ok (PathArray.ofItems found) := by
  induction depth generalizing idx fuel path with
  | zero =>
      obtain rfl : idx = root := by simpa [level] using onLevel
      refine ⟨path.items, rfl, ?_⟩
      unfold RawBTree.climbInto
      rw [hung.orphan, PathArray.ofItems_items]
  | succ depth ih =>
      obtain ⟨fuel, rfl⟩ : ∃ less, fuel = less + 1 := ⟨fuel - 1, by omega⟩
      rw [level, nodes_expand (hung.paired depth (by omega))] at onLevel
      obtain ⟨parent, onUpper, isChild⟩ := List.mem_flatMap.mp onLevel
      have parentEq := hung.adopted depth (by omega) parent onUpper idx isChild
      unfold RawBTree.climbInto
      rw [parentEq]
      cases pushed : path.push (parent, tree.childSlot parent idx (tree.node parent).keys.length) with
      | none =>
          have full := PathArray.full_of_push pushed
          refine ⟨List.replicate (path.items.length + (depth + 1)) (idx, 0), List.length_replicate, ?_⟩
          rw [PathArray.ofItems_eq_none (by rw [List.length_replicate]; omega)]
          simp only [pushed]
      | some longer =>
          have one := PathArray.push_length pushed
          obtain ⟨found, length, stored⟩ := @ih fuel parent longer (by omega) (by omega) onUpper
          refine ⟨found, by omega, ?_⟩
          simp only [pushed]
          exact stored

theorem Hung.pathToNodeInto_eq (hung : Hung tree root) {leaf : NodeIdx}
    (onRow : leaf ∈ Item.nodes (level tree.node root tree.height)) :
    ∃ found : PathBuf, found.length = tree.height ∧ tree.pathToNodeInto leaf = .ok (PathArray.ofItems found) := by
  obtain ⟨found, length, stored⟩ := hung.climbInto_eq .new le_rfl le_rfl onRow
  refine ⟨found.reverse, ?_, ?_⟩
  · rw [List.length_reverse, length]
    exact Nat.zero_add _
  · rw [RawBTree.pathToNodeInto, stored, ← PathArray.ofItems_reverse]
    rfl

end Climbs

section Bound
variable [LinearOrder K] {items : List (LevelItem K)}

theorem Rooted.hung {items : List (LevelItem K)} (rooted : Rooted layout tree root items) : Hung tree root := by
  have crown := rooted.crownAt.crown
  exact ⟨crown.root_parent, rooted.readable.paired, fun depth lower idx onLevel =>
    (crown.internal_at lower onLevel).parents⟩

theorem Packed.hung {pairs : List (K × V)} (packed : Packed layout tree root items pairs) : Hung tree root :=
  ⟨packed.orphan, packed.readable.paired, fun depth lower idx onLevel => (packed.loose depth lower idx onLevel).parents⟩

/-- A reachable tree with a root, as far as its paths go. -/
structure Pathed (layout : NodeLayout) (tree : RawBTree K V) (root : NodeIdx) (items : List (LevelItem K)) :
    Prop where
  standing : Standing layout tree root items
  hung : Hung tree root
  parted : 0 < tree.height → (tree.node root).keys ≠ []

theorem Reached.pathed (reached : Reached layout tree) :
    Vacant tree ∨ ∃ root items, Pathed layout tree root items := by
  rcases reached.forms with empty | ⟨root, items, rooted⟩ | ⟨root, items, pairs, packed⟩
  · exact .inl empty
  · refine .inr ⟨root, items, rooted.standing, rooted.hung, fun positive => ?_⟩
    have onTop : root ∈ Item.nodes (level tree.node root 0) := by simp [level]
    exact List.length_pos_iff.mp (rooted.crownAt.crown.internal_at positive onTop).nonempty
  · exact .inr ⟨root, items, packed.standing, packed.hung, packed.rooted⟩

theorem scanAbove_le (key : K) (keys : List (KeyObj K)) : RawBTree.scanAbove key keys ≤ keys.length :=
  List.findIdx_le_length

namespace Pathed

/-- A descent from the root that keeps to the live slots. -/
theorem descends (pathed : Pathed layout tree root items) {choose : List (KeyObj K) → Nat}
    (live : ∀ keys, choose keys ≤ keys.length) {steps : Nat} (inside : steps ≤ tree.height) :
    ∃ reached, reached ∈ Item.nodes (level tree.node root steps) ∧ ∃ found : PathBuf, found.length = steps ∧
      tree.descendInto choose steps root .new = .ok ((PathArray.ofItems found).map fun path => (reached, path)) := by
  have onTop : root ∈ Item.nodes (level tree.node root 0) := by simp [level]
  obtain ⟨reached, returned, onLevel⟩ := descend_reaches live steps
    (fun upper lower => pathed.hung.paired upper (by omega)) onTop
  rw [Nat.zero_add] at onLevel
  obtain ⟨found, length, stored⟩ := descendInto_eq steps root .new returned
  exact ⟨reached, onLevel, found, length.trans (Nat.zero_add _), stored⟩

/-- The leaf at one end of the row. -/
theorem ends (pathed : Pathed layout tree root items) :
    (∃ first, tree.firstLeaf = some first ∧ first ∈ Item.nodes items) ∧
      ∃ last, tree.lastLeaf = some last ∧ last ∈ Item.nodes items := by
  obtain ⟨reached, onRow, _⟩ := pathed.descends (fun keys => le_refl keys.length) (le_refl tree.height)
  rw [pathed.standing.readable.level_eq] at onRow
  have nonempty : Item.nodes items ≠ [] := List.ne_nil_of_mem onRow
  refine ⟨⟨_, pathed.standing.row.first.trans (List.head?_eq_some_head nonempty), List.head_mem nonempty⟩,
    _, pathed.standing.row.last.trans (List.getLast?_eq_some_getLast nonempty), List.getLast_mem nonempty⟩

theorem pathToNodeInto_fits (pathed : Pathed layout tree root items) (short : tree.height ≤ maxPathHeight)
    {leaf : NodeIdx} (onRow : leaf ∈ Item.nodes items) : ∃ path, tree.pathToNodeInto leaf = .ok (some path) := by
  rw [← pathed.standing.readable.level_eq] at onRow
  obtain ⟨found, length, stored⟩ := pathed.hung.pathToNodeInto_eq onRow
  obtain ⟨path, fits⟩ := PathArray.ofItems_isSome.mpr (length.trans_le short)
  exact ⟨path, by rw [stored, fits]⟩

/-- In a low tree the array holds every path. -/
theorem pathsFit (pathed : Pathed layout tree root items) (short : tree.height ≤ maxPathHeight) :
    PathsFit layout tree := by
  have rootEq := pathed.standing.readable.root_eq
  obtain ⟨⟨first, firstEq, firstOn⟩, last, lastEq, lastOn⟩ := pathed.ends
  constructor
  · intro key
    obtain ⟨reached, _, found, length, stored⟩ := pathed.descends (scanAbove_le key) (le_refl tree.height)
    obtain ⟨path, fits⟩ := PathArray.ofItems_isSome.mpr (length.trans_le short)
    simp only [RawBTree.insertPath, rootEq, lastEq, firstEq, deref, bind, Except.bind]
    split
    · split
      · exact ⟨_, rfl⟩
      · exact pathed.pathToNodeInto_fits short lastOn
    · split
      · split
        · exact ⟨_, rfl⟩
        · exact pathed.pathToNodeInto_fits short firstOn
      · rw [stored, fits]
        exact ⟨_, rfl⟩
  · intro key
    have spine : ∀ leaf ∈ Item.nodes items, ∀ slot, tree.lowerBound key = .ok (some (leaf, slot)) →
        ∃ path, tree.splitPath key = .ok (some path) := by
      intro leaf onRow slot bound
      simp only [RawBTree.splitPath, bound, bind, Except.bind]
      split
      · exact ⟨_, rfl⟩
      · exact pathed.pathToNodeInto_fits short onRow
    have whole : tree.lowerBound key = .ok none → ∃ path, tree.splitPath key = .ok (some path) := by
      intro bound
      simp only [RawBTree.splitPath, bound, bind, Except.bind]
      exact ⟨_, rfl⟩
    rcases pathed.standing.lowerBound_cases key with ⟨left, leaf, right, _, _, _, hit, bound, _⟩ | ⟨bound, _⟩ | ⟨bound, _⟩
    · refine spine leaf ?_ _ bound
      rw [hit.hit.split]
      simp
    · exact whole bound
    · exact whole bound
  · intro otherHeight lower
    obtain ⟨reached, _, found, length, stored⟩ := pathed.descends (fun keys => le_refl keys.length)
      (show tree.height - otherHeight - 1 ≤ tree.height by omega)
    obtain ⟨path, fits⟩ := PathArray.ofItems_isSome.mpr (show found.length ≤ maxPathHeight by omega)
    simp only [RawBTree.graftPath, rootEq, deref, bind, Except.bind, stored, fits]
    exact ⟨path, rfl⟩

/-- The keys of the first leaf are not above those of the last one. -/
theorem first_le_last (pathed : Pathed layout tree root items) {first last : NodeIdx} {lower upper : KeyObj K × V}
    (firstEq : tree.firstLeaf = some first) (lastOn : last ∈ Item.nodes items)
    (isFirst : (tree.node first).entries.head? = some lower) (inLast : upper ∈ (tree.node last).entries) :
    lower.1.key ≤ upper.1.key := by
  obtain ⟨others, nodesEq⟩ := List.head?_eq_some_iff.mp (pathed.standing.row.first.symm.trans firstEq)
  obtain ⟨back, entriesEq⟩ := List.head?_eq_some_iff.mp isFirst
  have stored : upper ∈ (Item.nodes items).flatMap fun idx => (tree.node idx).entries :=
    List.mem_flatMap.mpr ⟨last, lastOn, inLast⟩
  have ascending := pathed.standing.row.sorted.ascending
  rw [contents, nodes_marks, nodesEq, List.flatMap_cons, entriesEq, List.cons_append, List.map_cons] at ascending
  rw [nodesEq, List.flatMap_cons, entriesEq, List.cons_append] at stored
  cases List.mem_cons.mp stored with
  | inl same => rw [same]
  | inr behind =>
      have above := (List.pairwise_cons.mp ascending).1 _ (List.mem_map_of_mem behind)
      exact le_of_lt above

/-- Some key is neither appended nor prepended. -/
theorem searched (pathed : Pathed layout tree root items) (positive : 0 < tree.height) {first last : NodeIdx}
    (firstEq : tree.firstLeaf = some first) (lastOn : last ∈ Item.nodes items) :
    ∃ key, ((tree.node last).entries.getLast?.any fun entry => entry.1.key < key) = false ∧
      ((tree.node first).entries.head?.any fun entry => key < entry.1.key) = false := by
  cases isLast : (tree.node last).entries.getLast? with
  | some upper =>
      refine ⟨upper.1.key, by simp, ?_⟩
      cases isFirst : (tree.node first).entries.head? with
      | none => rfl
      | some lower =>
          have ordered := pathed.first_le_last firstEq lastOn isFirst (List.mem_of_getLast? isLast)
          simpa using ordered
  | none =>
      cases isFirst : (tree.node first).entries.head? with
      | some lower => exact ⟨lower.1.key, rfl, by simp⟩
      | none =>
          obtain ⟨separator, _, _⟩ := List.exists_cons_of_ne_nil (pathed.parted positive)
          exact ⟨separator.key, rfl, rfl⟩

/-- In a tall tree some insertion writes behind its path buffer. -/
theorem overruns (pathed : Pathed layout tree root items) (tall : maxPathHeight < tree.height) :
    ∃ key, tree.insertPath layout key = .ok none := by
  have rootEq := pathed.standing.readable.root_eq
  obtain ⟨⟨first, firstEq, _⟩, last, lastEq, lastOn⟩ := pathed.ends
  obtain ⟨key, notAbove, notBelow⟩ := pathed.searched (by omega) firstEq lastOn
  obtain ⟨reached, _, found, length, stored⟩ := pathed.descends (scanAbove_le key) (le_refl tree.height)
  refine ⟨key, ?_⟩
  simp only [RawBTree.insertPath, rootEq, lastEq, firstEq, deref, bind, Except.bind, notAbove, notBelow,
    Bool.false_eq_true, if_false, stored, PathArray.ofItems_eq_none (tall.trans_eq length.symm)]
  rfl

end Pathed

end Bound

section Wide

/-- Bytes of a 256-byte node behind its header. -/
def payload : Nat := 256 - 8

/-- `LEAF_CAP` for keys and values of these sizes in bytes. -/
def leafCapOf (keySize valueSize : Nat) : Nat :=
  if keySize + valueSize = 0 then 128 else (payload - 8) / (keySize + valueSize)

/-- `INTERNAL_CAP`. -/
def internalCapOf (keySize : Nat) : Nat := if keySize + 4 = 0 then 128 else (payload - 4) / (keySize + 4)

def NodeLayout.ofSizes (keySize valueSize : Nat) (leaf : 1 ≤ leafCapOf keySize valueSize)
    (internal : 2 ≤ internalCapOf keySize) : NodeLayout :=
  ⟨leafCapOf keySize valueSize, internalCapOf keySize, leaf, internal⟩

/-- A key of 100 bytes. -/
abbrev WideKey : Type := Fin (256 ^ 100)

def wideLayout : NodeLayout := .ofSizes 100 0 (by decide) (by decide)

def wideKey (number : Nat) : WideKey := ⟨number % 256 ^ 100, Nat.mod_lt _ (by positivity)⟩

theorem wideKeys_ascending : ((List.range 86093443).map wideKey).Pairwise (· < ·) := by
  rw [List.pairwise_map]
  refine List.pairwise_lt_range.imp_of_mem fun {lower upper} lowerIn upperIn less => ?_
  have wide : 86093443 ≤ 256 ^ 100 := by norm_num
  rw [List.mem_range] at lowerIn upperIn
  change lower % 256 ^ 100 < upper % 256 ^ 100
  rw [Nat.mod_eq_of_lt (lowerIn.trans_le wide), Nat.mod_eq_of_lt (upperIn.trans_le wide)]
  exact less

end Wide

end Optimap.FlatBTree
