import Optimap.FlatBTree.Moving
import Optimap.FlatBTree.Spine

/-!
# The half that moves

In the arena of its own, the part moved so far hangs under one node. Each level of the path
adds the copies of the children on its side and a new node over all of them.
-/

set_option autoImplicit false
set_option linter.unusedSectionVars false

namespace Optimap.FlatBTree

open Lib

variable {K V : Type}

/-- Entries of leaves and separators in order. -/
abbrev Fillings (K V : Type) := List (Item (List (KeyObj K × V)) (KeyObj K))

section Copied
variable {layout : NodeLayout} {dst dst' : RawBTree K V} {steps top : Nat} {fillings : Fillings K V} {counts : List Nat}

/-- All nodes in use are under `top`, and the leaves hold the fillings. -/
structure Copied (layout : NodeLayout) (dst : RawBTree K V) (steps : Nat) (top : NodeIdx) (fillings : Fillings K V)
    (counts : List Nat) : Prop where
  sub : Subtree layout dst.node steps top
  hollowed : Hollowed dst.node counts steps top
  filled : (level dst.node top steps).map (filled dst.node) = fillings
  leaf : ∀ leaf ∈ leavesUnder dst.node steps top, (dst.node leaf).isLeaf = true
  owned : Owned dst.arena (under dst.node steps top)

/-- Only links and the parent of the topmost node differ. -/
theorem Copied.relink (copied : Copied layout dst steps top fillings counts)
    (same : ∀ other ∈ under dst.node steps top, SameShape dst.node dst'.node other ∧
      (dst'.node other).entries = (dst.node other).entries)
    (parents : ∀ other ∈ below dst.node steps top, (dst'.node other).parent = (dst.node other).parent)
    (free : dst'.arena.free = dst.arena.free) (arenaLen : dst'.arena.len = dst.arena.len) :
    Copied layout dst' steps top fillings counts ∧ leavesUnder dst'.node steps top = leavesUnder dst.node steps top := by
  have shapes : ∀ other ∈ under dst.node steps top, SameShape dst.node dst'.node other := fun other member => (same other member).1
  obtain ⟨sameLevel, sameUnder⟩ := copied.sub.level_congr shapes
  have leaves : leavesUnder dst'.node steps top = leavesUnder dst.node steps top := by
    rw [leavesUnder, leavesUnder, sameLevel]
  refine ⟨⟨copied.sub.congr copied.owned.nodup_idxs shapes parents, copied.hollowed.congr shapes, ?_, ?_, ?_⟩, leaves⟩
  · rw [sameLevel, ← copied.filled]
    exact filled_congr fun leaf member => (same leaf (copied.sub.leaves_subset leaf member)).2
  · rw [leaves]
    intro leaf member
    rw [(shapes leaf (copied.sub.leaves_subset leaf member)).isLeaf]
    exact copied.leaf leaf member
  · rw [sameUnder]
    exact copied.owned.of_same free arenaLen

end Copied

section Building
variable {layout : NodeLayout} {s : Surgery K V} {steps : Nat} {tops : List NodeIdx} {keys : List (KeyObj K)}

/-- A node built over others. -/
structure Built (layout : NodeLayout) (s s' : Surgery K V) (steps : Nat) (tops : List NodeIdx) (keys : List (KeyObj K))
    (built : NodeIdx) : Prop where
  frame : s' = { s with dst := { s.dst with arena := s'.dst.arena } }
  sub : Subtree layout s'.dst.node (steps + 1) built
  children : (s'.dst.node built).children = tops
  keys : (s'.dst.node built).keys = keys
  levels : ∀ top ∈ tops, level s'.dst.node top steps = level s.dst.node top steps
  payload : ∀ other ∈ tops.flatMap (under s.dst.node steps), (s'.dst.node other).payload = (s.dst.node other).payload
  owned : Owned s'.dst.arena (under s'.dst.node (steps + 1) built)

theorem buildInternal_builds (owned : Owned s.dst.arena (tops.flatMap (under s.dst.node steps)))
    (subs : ∀ top ∈ tops, Subtree layout s.dst.node steps top) (paired : tops.length = keys.length + 1)
    (fits : keys.length ≤ layout.internalCap) :
    ∃ built s', s.buildInternal keys tops = (built, s') ∧ Built layout s s' steps tops keys built := by
  obtain ⟨allocated, unchanged⟩ := owned.alloc
  set built := s.dst.arena.allocNode.1 with builtDef
  set base := s.dst.allocNode.2.modify built fun node =>
    { node with isLeaf := false, parent := none, keys := keys, children := tops } with baseDef
  have fresh : built ∉ tops.flatMap (under s.dst.node steps) := (List.nodup_cons.mp allocated.nodup_idxs).1
  have topsInside : ∀ top ∈ tops, top ∈ tops.flatMap (under s.dst.node steps) := fun top isTop =>
    List.mem_flatMap.mpr ⟨top, isTop, mem_under_self _ _ _⟩
  have baseOther : ∀ other ∈ tops.flatMap (under s.dst.node steps), base.node other = s.dst.node other := by
    intro other member
    have different : other ≠ built := fun same => fresh (same ▸ member)
    rw [baseDef, RawBTree.node_modify_of_ne _ different]
    exact unchanged other different
  set dst := base.setParents (some built) tops with dstDef
  have frame := RawBTree.setParents_sameFrame (some built) tops base
  have node : ∀ other ∈ tops.flatMap (under s.dst.node steps), dst.node other =
      if other ∈ tops then { s.dst.node other with parent := some built } else s.dst.node other := by
    intro other member
    rw [dstDef, RawBTree.node_setParents, baseOther other member]
  have payload : ∀ other ∈ tops.flatMap (under s.dst.node steps), (dst.node other).payload = (s.dst.node other).payload := by
    intro other member
    rw [node other member]
    split <;> rfl
  have topNode : dst.node built = { s.dst.allocNode.2.node built with
      isLeaf := false, parent := none, keys := keys, children := tops } := by
    rw [dstDef, RawBTree.node_setParents, if_neg fun isTop => fresh (topsInside built isTop), baseDef,
      RawBTree.node_modify_self]
  have forest := fun top isTop => @Subtree.forest_congr _ _ layout s.dst.node dst.node steps tops owned.nodup_idxs subs
    (fun other member => ⟨.of_payload (payload other member), fun notTop => by rw [node other member, if_neg notTop]⟩)
    top isTop
  refine ⟨built, { s with dst := dst }, rfl, ?_, ⟨⟨by rw [topNode], ?_, ?_, ?_⟩, ?_⟩, by rw [topNode], by rw [topNode],
    fun top isTop => (forest top isTop).2.1, payload, ?_⟩
  · have arena := frame.eq_arena
    exact congrArg (fun tree => ({ s with dst := tree } : Surgery K V)) arena
  · rw [topNode]
    exact paired
  · rw [topNode]
    exact fits
  · rw [topNode]
    intro top isTop
    rw [node top (topsInside top isTop), if_pos isTop]
  · rw [topNode]
    exact fun top isTop => (forest top isTop).1
  · have sameUnder : tops.flatMap (under dst.node steps) = tops.flatMap (under s.dst.node steps) :=
      List.flatMap_congr fun top isTop => (forest top isTop).2.2
    rw [under_succ, topNode]
    change Owned dst.arena (built :: tops.flatMap (under dst.node steps))
    rw [sameUnder]
    exact allocated.of_same frame.free frame.arenaLen

namespace Built

variable {s' : Surgery K V} {built : NodeIdx} (made : Built layout s s' steps tops keys built)
include made

theorem leaves_eq : leavesUnder s'.dst.node (steps + 1) built = tops.flatMap (leavesUnder s.dst.node steps) := by
  rw [leavesUnder, made.sub.nodes_level, made.children]
  exact List.flatMap_congr fun top isTop => congrArg Item.nodes (made.levels top isTop)

theorem leaf_payload (subs : ∀ top ∈ tops, Subtree layout s.dst.node steps top) {leaf : NodeIdx}
    (member : leaf ∈ tops.flatMap (leavesUnder s.dst.node steps)) :
    (s'.dst.node leaf).payload = (s.dst.node leaf).payload := by
  obtain ⟨top, isTop, inside⟩ := List.mem_flatMap.mp member
  exact made.payload leaf (List.mem_flatMap.mpr ⟨top, isTop, (subs top isTop).leaves_subset leaf inside⟩)

/-- The node built over halves, one of which may be hollow. -/
theorem copied {below : NodeIdx} {counts : List Nat} (subs : ∀ top ∈ tops, Subtree layout s.dst.node steps top)
    (edge : below ∈ tops) (hollowed : Hollowed s.dst.node counts steps below)
    (others : ∀ top ∈ tops, top = below ∨ Keyed s.dst.node steps top)
    (leaf : ∀ leaf ∈ tops.flatMap (leavesUnder s.dst.node steps), (s.dst.node leaf).isLeaf = true) :
    Copied layout s'.dst (steps + 1) built
      (((Item.row tops keys).flatMap (sublevel s.dst.node steps)).map (filled s.dst.node)) (counts ++ [keys.length]) := by
  have shapes : ∀ top ∈ tops, ∀ other ∈ under s.dst.node steps top, SameShape s.dst.node s'.dst.node other :=
    fun top isTop other member => .of_payload (made.payload other (List.mem_flatMap.mpr ⟨top, isTop, member⟩))
  have rowNodes : Item.nodes (Item.row tops keys) = tops := by
    refine Item.nodes_row ?_
    have paired := made.sub.1.paired
    rwa [made.children, made.keys] at paired
  refine ⟨made.sub, ?_, ?_, ?_, made.owned⟩
  · have up := @Hollowed.up _ _ s'.dst.node steps built counts below (hollowed.congr (shapes below edge)) made.sub.1.paired
      (by rw [made.children]; exact edge) fun child isChild => ?_
    · rw [made.keys] at up
      exact up
    · rw [made.children] at isChild
      exact (others child isChild).imp id fun keyed => keyed.congr (shapes child isChild)
  · have rows : level s'.dst.node built (steps + 1) = (Item.row tops keys).flatMap (sublevel s.dst.node steps) := by
      rw [level_below, made.children, made.keys]
      refine List.flatMap_congr fun item member => ?_
      cases item with
      | sep key => rfl
      | node top =>
          have isTop := Item.mem_nodes.mpr member
          rw [rowNodes] at isTop
          exact made.levels top isTop
    rw [rows]
    refine filled_congr fun leaf member => Node.entries_of_payload (made.leaf_payload subs ?_)
    rw [nodes_sublevels, rowNodes] at member
    exact member
  · rw [made.leaves_eq]
    intro other member
    rw [Node.isLeaf_of_payload (made.leaf_payload subs member)]
    exact leaf other member

end Built

end Building

section Growing
variable [LinearOrder K] {layout : NodeLayout} {tree : RawBTree K V} {root : NodeIdx} {s s' : Surgery K V}
  {steps idx parent childPos : Nat} {outside outside' before after copies : List NodeIdx}
  {keysBefore keysAfter : List (KeyObj K)} {counts : List Nat} {below : NodeIdx} {fillings : Fillings K V}

/-- The leaves that have moved so far, in a chain of their own. -/
structure Chained (s : Surgery K V) (leaves : List NodeIdx) : Prop where
  linked : Linked (fun idx => (s.dst.node idx).prev) (fun idx => (s.dst.node idx).next) none leaves none
  ends : s.ends = ⟨leaves.head?, leaves.getLast?⟩

theorem Chained.matched {leaves : List NodeIdx} (chained : Chained s leaves) : s.ends.Matched := by
  rw [ChainEnds.Matched, chained.ends]
  cases leaves <;> simp

theorem Copied.leaves_nodup (copied : Copied layout s.dst steps below fillings counts) :
    (leavesUnder s.dst.node steps below).Nodup :=
  (copied.sub.under_perm.nodup_iff.mp copied.owned.nodup_idxs).sublist (List.sublist_append_right _ _)

/-- What the children beside the path have become. -/
theorem Surgery.MovedRow.copies_whole {children used : List NodeIdx} (moved : Surgery.MovedRow layout tree steps s s' children copies used)
    (keyed : ∀ child ∈ children, Keyed tree.node steps child) :
    (∀ copy ∈ copies, Subtree layout s'.dst.node steps copy ∧ Keyed s'.dst.node steps copy ∧
      ∀ leaf ∈ leavesUnder s'.dst.node steps copy, (s'.dst.node leaf).isLeaf = true) ∧
    List.Forall₂ (fun child copy => (level s'.dst.node copy steps).map (filled s'.dst.node) =
      (level tree.node child steps).map (filled tree.node)) children copies := by
  refine ⟨fun copy isCopy => ?_, moved.row.copied.imp fun _ _ copyOf => copyOf.replica.filled⟩
  obtain ⟨child, isChild, copyOf⟩ := exists_of_forall₂ moved.row.copied isCopy
  exact ⟨copyOf.sub, copyOf.replica.keyed (keyed child isChild), copyOf.replica.leaf copyOf.sub⟩

/-- One level up, with the copies of the children behind the path. -/
theorem Copied.growRight
    (rung : Rung layout tree root steps idx parent childPos outside before after keysBefore keysAfter outside')
    (copied : Copied layout s.dst steps below fillings counts) (chained : Chained s (leavesUnder s.dst.node steps below))
    (moved : Surgery.MovedRow layout tree steps s s' after copies (under s.dst.node steps below)) :
    ∃ built s'', s'.buildInternal keysAfter (below :: copies) = (built, s'') ∧
      s'' = { s' with dst := { s'.dst with arena := s''.dst.arena } } ∧
      Copied layout s''.dst (steps + 1) built
        (fillings ++ ((Item.trail keysAfter after).flatMap (sublevel tree.node steps)).map (FlatBTree.filled tree.node))
        (counts ++ [keysAfter.length]) ∧
      Chained s'' (leavesUnder s''.dst.node (steps + 1) built) := by
  have extended := moved.extended
  rw [chained.ends] at extended
  obtain ⟨whole, fillingsEq⟩ := moved.copies_whole fun child isChild =>
    rung.keyed.2 child (rung.beside_mem (List.mem_append_right _ isChild))
  have shapes : ∀ other ∈ under s.dst.node steps below, SameShape s.dst.node s'.dst.node other :=
    fun other member => (extended.alike member).1
  obtain ⟨sameLevel, sameUnder⟩ := copied.sub.level_congr shapes
  have subBelow : Subtree layout s'.dst.node steps below :=
    copied.sub.congr copied.owned.nodup_idxs shapes fun other member =>
      (extended.alike (List.mem_cons_of_mem _ member)).2.1
  have leavesBelow : leavesUnder s'.dst.node steps below = leavesUnder s.dst.node steps below := by
    rw [leavesUnder, leavesUnder, sameLevel]
  have filledBelow : (level s'.dst.node below steps).map (FlatBTree.filled s'.dst.node) = fillings := by
    rw [sameLevel, ← copied.filled]
    exact filled_congr fun leaf member => (extended.alike (copied.sub.leaves_subset leaf member)).2.2.1
  have owned := moved.row.owned
  rw [← sameUnder] at owned
  have paired : (below :: copies).length = keysAfter.length + 1 := by
    rw [List.length_cons, ← moved.row.copied.length_eq, rung.after_paired]
  have subs : ∀ top ∈ below :: copies, Subtree layout s'.dst.node steps top := by
    intro top isTop
    rcases List.mem_cons.mp isTop with rfl | isCopy
    · exact subBelow
    · exact (whole top isCopy).1
  obtain ⟨built, s'', building, made⟩ := @buildInternal_builds _ _ layout s' steps (below :: copies) keysAfter
    (owned.perm List.perm_append_comm) subs paired (by
      have fits := rung.sub.1.fits
      rw [rung.keys_length] at fits
      omega)
  refine ⟨built, s'', building, made.frame, ?_, ?_⟩
  · have result := made.copied subs List.mem_cons_self (copied.hollowed.congr shapes)
      (fun top isTop => (List.mem_cons.mp isTop).imp id fun isCopy => (whole top isCopy).2.1) ?_
    · rw [Item.row, List.flatMap_cons, List.map_append] at result
      rw [← filledBelow, ← filled_trail keysAfter fillingsEq]
      exact result
    · intro leaf member
      rw [List.flatMap_cons, leavesBelow] at member
      rcases List.mem_append.mp member with inside | isCopy
      · rw [(shapes leaf (copied.sub.leaves_subset leaf inside)).isLeaf]
        exact copied.leaf leaf inside
      · obtain ⟨copy, member, inside⟩ := List.mem_flatMap.mp isCopy
        exact (whole copy member).2.2 leaf inside
  · have linked : Linked (fun idx => (s'.dst.node idx).prev) (fun idx => (s'.dst.node idx).next) none
        (leavesUnder s.dst.node steps below ++ copies.flatMap (leavesUnder s'.dst.node steps)) none := by
      have rest := moved.row.linked
      rw [chained.ends] at rest
      rw [← Option.or_none (o := (leavesUnder s.dst.node steps below).getLast?)] at extended rest
      exact extended.linked chained.linked copied.leaves_nodup copied.sub.leaves_subset rest
    have leavesEq : leavesUnder s''.dst.node (steps + 1) built =
        leavesUnder s.dst.node steps below ++ copies.flatMap (leavesUnder s'.dst.node steps) := by
      rw [made.leaves_eq, List.flatMap_cons, leavesBelow]
    have payload : ∀ leaf ∈ leavesUnder s.dst.node steps below ++ copies.flatMap (leavesUnder s'.dst.node steps),
        (s''.dst.node leaf).payload = (s'.dst.node leaf).payload := by
      intro leaf member
      refine made.leaf_payload subs ?_
      rw [List.flatMap_cons, leavesBelow]
      exact member
    refine ⟨?_, ?_⟩
    · rw [leavesEq]
      exact linked.congr (fun leaf member => Node.prev_of_payload (payload leaf member))
        fun leaf member => Node.next_of_payload (payload leaf member)
    · have ends : s''.ends = s'.ends := by rw [made.frame]
      rw [ends, moved.row.ends_eq, chained.ends, leavesEq, ChainEnds.after, List.head?_append, List.getLast?_append]

/-- Two chains of one arena in one. -/
theorem prependChain_chains {temp : Surgery K V} {front back : List NodeIdx} {ends : ChainEnds} {count : Nat}
    (frontLinked : Linked (fun idx => (temp.dst.node idx).prev) (fun idx => (temp.dst.node idx).next) none front none)
    (backLinked : Linked (fun idx => (temp.dst.node idx).prev) (fun idx => (temp.dst.node idx).next) none back none)
    (unique : (front ++ back).Nodup) (frontEnds : temp.ends = ⟨front.head?, front.getLast?⟩)
    (backEnds : ends = ⟨back.head?, back.getLast?⟩) :
    ∃ s', temp.prependChain ends count = .ok s' ∧ Chained s' (front ++ back) ∧
      s'.count = (if front = [] then count else count + temp.count) ∧
      s' = { temp with dst := { temp.dst with arena := s'.dst.arena }, ends := s'.ends, count := s'.count } ∧
      (∀ other, ∃ prev next, s'.dst.node other = { temp.dst.node other with prev := prev, next := next }) ∧
      s'.dst.arena.free = temp.dst.arena.free ∧ s'.dst.arena.len = temp.dst.arena.len := by
  obtain ⟨frontUnique, backUnique, apart⟩ := List.nodup_append.mp unique
  rcases List.eq_nil_or_concat front with rfl | ⟨others, tail, rfl⟩
  · refine ⟨{ temp with ends := ends, count := count }, ?_, ⟨backLinked, backEnds⟩, rfl, rfl,
      fun other => ⟨_, _, rfl⟩, rfl, rfl⟩
    rw [Surgery.prependChain, frontEnds]
    rfl
  rw [List.concat_eq_append] at *
  obtain ⟨first, rest, frontEq⟩ := List.exists_cons_of_ne_nil (show others ++ [tail] ≠ [] by simp)
  have firstLeaf : temp.ends.firstLeaf = some first := by rw [frontEnds, frontEq]; rfl
  have chainTail : temp.ends.chainTail = some tail := by rw [frontEnds]; simp
  cases back with
  | nil =>
      refine ⟨{ temp with count := count + temp.count }, ?_, ⟨?_, ?_⟩, by simp, rfl, fun other => ⟨_, _, rfl⟩, rfl, rfl⟩
      · rw [Surgery.prependChain, firstLeaf, backEnds]
        rfl
      · rw [List.append_nil]
        exact frontLinked
      · rw [List.append_nil]
        exact frontEnds
  | cons main back =>
      have tailMem : tail ∈ others ++ [tail] := by simp
      have different : tail ≠ main := fun same => apart tail tailMem main List.mem_cons_self same
      set dst := (temp.dst.setNext (some main) tail).setPrev (some tail) main with dstDef
      have mainNode : dst.node main = { temp.dst.node main with prev := some tail } := by
        rw [dstDef, RawBTree.setPrev, RawBTree.node_modify_self, RawBTree.setNext,
          RawBTree.node_modify_of_ne _ different.symm]
      have tailNode : dst.node tail = { temp.dst.node tail with next := some main } := by
        rw [dstDef, RawBTree.setPrev, RawBTree.node_modify_of_ne _ different, RawBTree.setNext,
          RawBTree.node_modify_self]
      have otherNode : ∀ other, other ≠ main → other ≠ tail → dst.node other = temp.dst.node other := by
        intro other notMain notTail
        rw [dstDef, RawBTree.setPrev, RawBTree.node_modify_of_ne _ notMain, RawBTree.setNext,
          RawBTree.node_modify_of_ne _ notTail]
      have inFront : ∀ leaf ∈ others ++ [tail], leaf ≠ main := fun leaf member same =>
        apart leaf member main List.mem_cons_self same
      have inBack : ∀ leaf ∈ main :: back, leaf ≠ tail := fun leaf member same =>
        apart tail tailMem leaf member same.symm
      refine ⟨{ temp with dst := dst, ends := ⟨some first, ends.chainTail⟩, count := count + temp.count }, ?_, ⟨?_, ?_⟩,
        by simp, rfl, fun other => ?_, rfl, rfl⟩
      · rw [Surgery.prependChain, firstLeaf, backEnds, chainTail]
        rfl
      · rw [Linked.append_iff]
        refine ⟨frontLinked.retarget frontUnique ?_ ?_ ?_, ?_⟩
        · intro leaf isLast
          obtain rfl : leaf = tail := by simpa using isLast.symm
          simp [tailNode]
        · intro leaf member
          by_cases isTail : leaf = tail
          · rw [isTail, tailNode]
          · rw [otherNode leaf (inFront leaf member) isTail]
        · intro leaf member notLast
          rw [otherNode leaf (inFront leaf member) fun same => notLast (by simp [same])]
        · refine backLinked.reroot backUnique ?_ ?_ ?_
          · intro leaf isFirst
            obtain rfl : leaf = main := by simpa using isFirst.symm
            simp [mainNode]
          · intro leaf member notFirst
            rw [otherNode leaf (fun same => notFirst (by simp [same])) (inBack leaf member)]
          · intro leaf member
            by_cases isMain : leaf = main
            · rw [isMain, mainNode]
            · rw [otherNode leaf isMain (inBack leaf member)]
      · rw [List.head?_append, List.getLast?_append, frontEq, backEnds, List.getLast?_cons]
        rfl
      · by_cases isMain : other = main
        · exact ⟨_, _, by rw [isMain, mainNode]⟩
        · by_cases isTail : other = tail
          · exact ⟨_, _, by rw [isTail, tailNode]⟩
          · exact ⟨_, _, otherNode other isMain isTail⟩

/-- A new node over moved ones, whose leaves have been in two chains so far. -/
theorem Built.prepended {temp temp' : Surgery K V} {fronts backs : List NodeIdx} {keys : List (KeyObj K)} {built : NodeIdx}
    (made : Built layout temp temp' steps (fronts ++ backs) keys built) {ends : ChainEnds} (count : Nat)
    (subs : ∀ top ∈ fronts ++ backs, Subtree layout temp.dst.node steps top)
    (copied : Copied layout temp'.dst (steps + 1) built fillings counts)
    (frontLinked : Linked (fun idx => (temp.dst.node idx).prev) (fun idx => (temp.dst.node idx).next) none
      (fronts.flatMap (leavesUnder temp.dst.node steps)) none)
    (backLinked : Linked (fun idx => (temp.dst.node idx).prev) (fun idx => (temp.dst.node idx).next) none
      (backs.flatMap (leavesUnder temp.dst.node steps)) none)
    (frontEnds : temp.ends = ChainEnds.after ⟨none, none⟩ (fronts.flatMap (leavesUnder temp.dst.node steps)))
    (backEnds : ends = ⟨(backs.flatMap (leavesUnder temp.dst.node steps)).head?,
      (backs.flatMap (leavesUnder temp.dst.node steps)).getLast?⟩) :
    ∃ s', temp'.prependChain ends count = .ok s' ∧ Copied layout s'.dst (steps + 1) built fillings counts ∧
      Chained s' (leavesUnder s'.dst.node (steps + 1) built) ∧
      s'.count = (if fronts.flatMap (leavesUnder temp.dst.node steps) = [] then count else count + temp.count) ∧
      s'.tree = temp.tree ∧ s'.dst = { temp.dst with arena := s'.dst.arena } := by
  have leavesEq := made.leaves_eq
  rw [List.flatMap_append] at leavesEq
  have unique : (leavesUnder temp'.dst.node (steps + 1) built).Nodup := copied.leaves_nodup
  rw [leavesEq] at unique
  have payload : ∀ leaf ∈ fronts.flatMap (leavesUnder temp.dst.node steps) ++
      backs.flatMap (leavesUnder temp.dst.node steps), (temp'.dst.node leaf).payload = (temp.dst.node leaf).payload := by
    intro leaf member
    refine made.leaf_payload subs ?_
    rw [List.flatMap_append]
    exact member
  have frontLinked' := frontLinked.congr (fun leaf member => Node.prev_of_payload (payload leaf (List.mem_append_left _ member)))
    fun leaf member => Node.next_of_payload (payload leaf (List.mem_append_left _ member))
  have backLinked' := backLinked.congr (fun leaf member => Node.prev_of_payload (payload leaf (List.mem_append_right _ member)))
    fun leaf member => Node.next_of_payload (payload leaf (List.mem_append_right _ member))
  have tempEnds : temp'.ends = temp.ends := by rw [made.frame]
  have tempCount : temp'.count = temp.count := by rw [made.frame]
  obtain ⟨s', prepended, chained, counted, frame, nodes, free, arenaLen⟩ := @prependChain_chains _ _ _ temp' _ _ ends count
    frontLinked' backLinked' unique (by rw [tempEnds, frontEnds, ChainEnds.after, Option.none_or, Option.or_none]) backEnds
  obtain ⟨copied', leavesEq'⟩ := @Copied.relink _ _ layout temp'.dst s'.dst (steps + 1) built fillings counts copied
    (fun other _ => by
      obtain ⟨prev, next, node⟩ := nodes other
      exact ⟨⟨by rw [node], by rw [node], by rw [node]⟩, by rw [node]⟩)
    (fun other _ => by
      obtain ⟨prev, next, node⟩ := nodes other
      rw [node])
    free arenaLen
  refine ⟨s', prepended, copied', ?_, by rw [counted, tempCount], by rw [frame, made.frame], by rw [frame, made.frame]⟩
  rw [leavesEq', leavesEq]
  exact chained

/-- One level up, with the copies of the children in front of the path. -/
theorem Copied.growLeft {temp : Surgery K V}
    (rung : Rung layout tree root steps idx parent childPos outside before after keysBefore keysAfter outside')
    (copied : Copied layout s.dst steps below fillings counts) (chained : Chained s (leavesUnder s.dst.node steps below))
    (moved : Surgery.MovedRow layout tree steps { s with ends := ⟨none, none⟩, count := 0 } temp before copies
      (under s.dst.node steps below)) :
    ∃ built temp' s'', temp.buildInternal keysBefore (copies ++ [below]) = (built, temp') ∧
      temp'.prependChain s.ends s.count = .ok s'' ∧
      Copied layout s''.dst (steps + 1) built
        (((Item.lead before keysBefore).flatMap (sublevel tree.node steps)).map (FlatBTree.filled tree.node) ++ fillings)
        (counts ++ [keysBefore.length]) ∧
      Chained s'' (leavesUnder s''.dst.node (steps + 1) built) ∧
      s''.count = (if copies.flatMap (leavesUnder temp.dst.node steps) = [] then s.count else s.count + temp.count) ∧
      s''.tree = temp.tree ∧ s''.dst = { temp.dst with arena := s''.dst.arena } := by
  obtain ⟨whole, fillingsEq⟩ := moved.copies_whole fun child isChild =>
    rung.keyed.2 child (rung.beside_mem (List.mem_append_left _ isChild))
  have same : ∀ other ∈ under s.dst.node steps below, temp.dst.node other = s.dst.node other :=
    fun other member => moved.extended.others other member (Option.some_ne_none _).symm
  have owned : Owned temp.dst.arena (copies.flatMap (under temp.dst.node steps) ++ under s.dst.node steps below) :=
    moved.row.owned
  have shapes : ∀ other ∈ under s.dst.node steps below, SameShape s.dst.node temp.dst.node other :=
    fun other member => .of_eq (same other member)
  obtain ⟨sameLevel, sameUnder⟩ := copied.sub.level_congr shapes
  have subBelow : Subtree layout temp.dst.node steps below :=
    copied.sub.congr copied.owned.nodup_idxs shapes fun other member => by rw [same other (List.mem_cons_of_mem _ member)]
  have leavesBelow : leavesUnder temp.dst.node steps below = leavesUnder s.dst.node steps below := by
    rw [leavesUnder, leavesUnder, sameLevel]
  have filledBelow : (level temp.dst.node below steps).map (FlatBTree.filled temp.dst.node) = fillings := by
    rw [sameLevel, ← copied.filled]
    exact filled_congr fun leaf member => by rw [same leaf (copied.sub.leaves_subset leaf member)]
  have subs : ∀ top ∈ copies ++ [below], Subtree layout temp.dst.node steps top := by
    intro top isTop
    rcases List.mem_append.mp isTop with isCopy | isBelow
    · exact (whole top isCopy).1
    · exact List.mem_singleton.mp isBelow ▸ subBelow
  have backs : [below].flatMap (leavesUnder temp.dst.node steps) = leavesUnder s.dst.node steps below := by
    rw [List.flatMap_cons, List.flatMap_nil, List.append_nil, leavesBelow]
  obtain ⟨built, temp', building, made⟩ := @buildInternal_builds _ _ layout temp steps (copies ++ [below]) keysBefore
    (by
      rw [List.flatMap_append, List.flatMap_cons, List.flatMap_nil, List.append_nil, sameUnder]
      exact owned) subs
    (by rw [List.length_append, List.length_singleton, ← moved.row.copied.length_eq, rung.before_paired])
    (by
      have fits := rung.sub.1.fits
      rw [rung.keys_length, ← rung.before_length, rung.before_paired] at fits
      omega)
  have copied' := made.copied subs (List.mem_append_right _ (List.mem_singleton.mpr rfl)) (copied.hollowed.congr shapes)
    (fun top isTop => (List.mem_append.mp isTop).symm.imp List.mem_singleton.mp fun isCopy => (whole top isCopy).2.1)
    (by
      intro leaf member
      rw [List.flatMap_append, backs] at member
      rcases List.mem_append.mp member with isCopy | inside
      · obtain ⟨copy, isCopy, inside⟩ := List.mem_flatMap.mp isCopy
        exact (whole copy isCopy).2.2 leaf inside
      · rw [(shapes leaf (copied.sub.leaves_subset leaf inside)).isLeaf]
        exact copied.leaf leaf inside)
  have row := @Item.row_around _ _ copies [] keysBefore [] below (moved.row.copied.length_eq.symm.trans rung.before_paired)
  rw [List.append_nil] at row
  rw [row, List.flatMap_append, List.map_append, filled_lead keysBefore fillingsEq, List.flatMap_cons] at copied'
  simp only [Item.trail, List.flatMap_nil, List.append_nil, sublevel, filledBelow] at copied'
  obtain ⟨s'', prepended, result⟩ := made.prepended s.count subs copied' moved.row.linked
    (by
      rw [backs]
      exact chained.linked.congr (fun leaf member => by rw [same leaf (copied.sub.leaves_subset leaf member)])
        fun leaf member => by rw [same leaf (copied.sub.leaves_subset leaf member)])
    moved.row.ends_eq (show s.ends = _ by rw [backs, chained.ends])
  exact ⟨built, temp', s'', building, prepended, result⟩

/-- The first level with children in front of the path, whose copies are all that has moved. -/
theorem MovedRow.startLeft {temp : Surgery K V} {key : KeyObj K}
    (rung : Rung layout tree root steps idx parent (childPos + 1) outside before after (keysBefore ++ [key]) keysAfter
      outside')
    (moved : Surgery.MovedRow layout tree steps { s with ends := ⟨none, none⟩, count := 0 } temp before copies []) :
    ∃ built temp' s'', temp.buildInternal keysBefore copies = (built, temp') ∧
      temp'.prependChain ⟨none, none⟩ s.count = .ok s'' ∧
      Copied layout s''.dst (steps + 1) built
        (((Item.row before keysBefore).flatMap (sublevel tree.node steps)).map (filled tree.node))
        [keysBefore.length] ∧
      Chained s'' (leavesUnder s''.dst.node (steps + 1) built) ∧
      s''.count = (if copies.flatMap (leavesUnder temp.dst.node steps) = [] then s.count else s.count + temp.count) ∧
      s''.tree = temp.tree ∧ s''.dst = { temp.dst with arena := s''.dst.arena } := by
  obtain ⟨whole, fillingsEq⟩ := moved.copies_whole fun child isChild =>
    rung.keyed.2 child (rung.beside_mem (List.mem_append_left _ isChild))
  have owned : Owned temp.dst.arena (copies.flatMap (under temp.dst.node steps)) := by
    have owned := moved.row.owned
    rwa [List.append_nil] at owned
  have beforePaired := rung.before_paired
  rw [List.length_append, List.length_singleton, moved.row.copied.length_eq] at beforePaired
  have subs : ∀ top ∈ copies, Subtree layout temp.dst.node steps top := fun top isTop => (whole top isTop).1
  obtain ⟨built, temp', building, made⟩ := @buildInternal_builds _ _ layout temp steps copies keysBefore owned subs
    beforePaired (by
      have fits := rung.sub.1.fits
      have length := rung.before_length
      rw [moved.row.copied.length_eq] at length
      rw [rung.keys_length] at fits
      omega)
  obtain ⟨first, isFirst⟩ := List.exists_mem_of_length_pos (show 0 < copies.length by omega)
  have copied' := made.copied subs isFirst (show Hollowed temp.dst.node [] steps first from (whole first isFirst).2.1.hollowed)
    (fun top isTop => .inr (whole top isTop).2.1)
    (by
      intro leaf member
      obtain ⟨copy, isCopy, inside⟩ := List.mem_flatMap.mp member
      exact (whole copy isCopy).2.2 leaf inside)
  rw [filled_row keysBefore fillingsEq] at copied'
  have made' : Built layout temp temp' steps (copies ++ []) keysBefore built := by rwa [List.append_nil]
  obtain ⟨s'', prepended, result⟩ := made'.prepended s.count (by rwa [List.append_nil]) copied'
    moved.row.linked trivial moved.row.ends_eq rfl
  exact ⟨built, temp', s'', building, prepended, result⟩

end Growing

end Optimap.FlatBTree
