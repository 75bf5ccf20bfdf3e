import Mathlib.Tactic

/-!
# Doubly linked lists

The links are two partial functions on the cells. `Linked` says that they thread
a given list, between a cell before it and a cell after it.
-/

set_option autoImplicit false

namespace Optimap.Lib

variable {α : Type}

def Linked (prev next : α → Option α) : Option α → List α → Option α → Prop
  | _, [], _ => True
  | before, cell :: cells, after =>
      prev cell = before ∧ next cell = cells.head?.or after ∧ Linked prev next (some cell) cells after

namespace Linked

variable {prev next prev' next' : α → Option α} {before after : Option α} {cells left right : List α}

theorem append_iff :
    Linked prev next before (left ++ right) after ↔
      Linked prev next before left (right.head?.or after) ∧
        Linked prev next (left.getLast?.or before) right after := by
  induction left generalizing before with
  | nil => simp [Linked]
  | cons cell left ih =>
      simp only [List.cons_append, Linked, ih]
      cases left with
      | nil => simp [Linked, and_assoc]
      | cons second left => simp [and_assoc, List.getLast?_cons]

theorem congr (linked : Linked prev next before cells after)
    (samePrev : ∀ cell ∈ cells, prev' cell = prev cell)
    (sameNext : ∀ cell ∈ cells, next' cell = next cell) : Linked prev' next' before cells after := by
  induction cells generalizing before with
  | nil => trivial
  | cons cell cells ih =>
      obtain ⟨back, forward, rest⟩ := linked
      refine ⟨(samePrev cell List.mem_cons_self).trans back,
        (sameNext cell List.mem_cons_self).trans forward, ih rest ?_ ?_⟩
      · exact fun other member => samePrev other (List.mem_cons_of_mem _ member)
      · exact fun other member => sameNext other (List.mem_cons_of_mem _ member)

/-- The links around one cell. -/
theorem around {cell : α} (linked : Linked prev next before (left ++ cell :: right) after) :
    prev cell = left.getLast?.or before ∧ next cell = right.head?.or after := by
  rw [append_iff] at linked
  exact ⟨linked.2.1, linked.2.2.1⟩

/-- Pointing the first cell back somewhere else. -/
theorem reroot {start : Option α} (linked : Linked prev next before cells after)
    (unique : cells.Nodup)
    (first : ∀ cell, cells.head? = some cell → prev' cell = start)
    (samePrev : ∀ cell ∈ cells, cells.head? ≠ some cell → prev' cell = prev cell)
    (sameNext : ∀ cell ∈ cells, next' cell = next cell) :
    Linked prev' next' start cells after := by
  cases cells with
  | nil => trivial
  | cons cell cells =>
      obtain ⟨_, forward, rest⟩ := linked
      refine ⟨first cell rfl, (sameNext cell List.mem_cons_self).trans forward, rest.congr ?_ ?_⟩
      · intro other member
        refine samePrev other (List.mem_cons_of_mem _ member) fun same => ?_
        obtain rfl := Option.some.inj same
        exact (List.nodup_cons.mp unique).1 member
      · exact fun other member => sameNext other (List.mem_cons_of_mem _ member)

/-- Pointing the last cell somewhere else. -/
theorem retarget {final : Option α} (linked : Linked prev next before cells after)
    (unique : cells.Nodup)
    (last : ∀ cell, cells.getLast? = some cell → next' cell = final)
    (samePrev : ∀ cell ∈ cells, prev' cell = prev cell)
    (sameNext : ∀ cell ∈ cells, cells.getLast? ≠ some cell → next' cell = next cell) :
    Linked prev' next' before cells final := by
  induction cells generalizing before with
  | nil => trivial
  | cons cell cells ih =>
      obtain ⟨back, forward, rest⟩ := linked
      obtain ⟨fresh, unique⟩ := List.nodup_cons.mp unique
      have cellPrev := (samePrev cell List.mem_cons_self).trans back
      cases cells with
      | nil => exact ⟨cellPrev, last cell rfl, trivial⟩
      | cons second cells =>
          refine ⟨cellPrev, ?_, ih rest unique ?_ ?_ ?_⟩
          · rw [sameNext cell List.mem_cons_self, forward]
            · rfl
            · intro same
              rw [List.getLast?_cons_cons] at same
              exact fresh (List.mem_of_getLast? same)
          · exact fun other same => last other (by rw [List.getLast?_cons_cons]; exact same)
          · exact fun other member => samePrev other (List.mem_cons_of_mem _ member)
          · exact fun other member different => sameNext other (List.mem_cons_of_mem _ member)
              (by rw [List.getLast?_cons_cons]; exact different)

/-- Splicing a new cell in behind another one. -/
theorem insert_after {cell fresh : α} (linked : Linked prev next before (left ++ cell :: right) after)
    (unique : (left ++ cell :: fresh :: right).Nodup)
    (cellNext : next' cell = some fresh) (freshPrev : prev' fresh = some cell)
    (freshNext : next' fresh = next cell)
    (rightPrev : ∀ other, right.head? = some other → prev' other = some fresh)
    (samePrev : ∀ other, other ≠ fresh → right.head? ≠ some other → prev' other = prev other)
    (sameNext : ∀ other, other ≠ cell → other ≠ fresh → next' other = next other) :
    Linked prev' next' before (left ++ cell :: fresh :: right) after := by
  obtain ⟨leftLinked, cellPrev, oldNext, rightLinked⟩ := append_iff.mp linked
  obtain ⟨_, cellUnique, apart⟩ := List.nodup_append.mp unique
  obtain ⟨cellFresh, freshUnique⟩ := List.nodup_cons.mp cellUnique
  obtain ⟨freshApart, rightUnique⟩ := List.nodup_cons.mp freshUnique
  have headNot : ∀ other, other ∉ right → right.head? ≠ some other :=
    fun other outside same => outside (List.mem_of_head? same)
  have cellApart : cell ∉ right := fun member => cellFresh (List.mem_cons_of_mem _ member)
  have cellNe : cell ≠ fresh := fun same => cellFresh (same ▸ List.mem_cons_self)
  have leftNe : ∀ other ∈ left, other ≠ cell ∧ other ≠ fresh ∧ other ∉ right := by
    intro other member
    have differs := apart other member
    exact ⟨differs cell List.mem_cons_self,
      differs fresh (List.mem_cons_of_mem _ List.mem_cons_self),
      fun inside => differs other (List.mem_cons_of_mem _ (List.mem_cons_of_mem _ inside)) rfl⟩
  have rightNe : ∀ other ∈ right, other ≠ cell ∧ other ≠ fresh :=
    fun other member => ⟨fun same => cellApart (same ▸ member), fun same => freshApart (same ▸ member)⟩
  refine append_iff.mpr ⟨?_, ?_, ?_, freshPrev, ?_, ?_⟩
  · refine leftLinked.congr ?_ ?_
    · exact fun other member =>
        samePrev other (leftNe other member).2.1 (headNot _ (leftNe other member).2.2)
    · exact fun other member => sameNext other (leftNe other member).1 (leftNe other member).2.1
  · rw [samePrev cell cellNe (headNot _ cellApart)]
    exact cellPrev
  · simpa using cellNext
  · rw [freshNext, oldNext]
  · refine rightLinked.reroot rightUnique rightPrev ?_ ?_
    · exact fun other member different => samePrev other (rightNe other member).2 different
    · exact fun other member => sameNext other (rightNe other member).1 (rightNe other member).2

/-- Unlinking the cell behind another one. -/
theorem remove_after {cell gone : α}
    (linked : Linked prev next before (left ++ cell :: gone :: right) after)
    (unique : (left ++ cell :: gone :: right).Nodup)
    (cellNext : next' cell = next gone)
    (rightPrev : ∀ other, right.head? = some other → prev' other = some cell)
    (samePrev : ∀ other, other ≠ gone → right.head? ≠ some other → prev' other = prev other)
    (sameNext : ∀ other, other ≠ cell → other ≠ gone → next' other = next other) :
    Linked prev' next' before (left ++ cell :: right) after := by
  obtain ⟨leftLinked, cellPrev, _, _, goneNext, rightLinked⟩ := append_iff.mp linked
  obtain ⟨_, cellUnique, apart⟩ := List.nodup_append.mp unique
  obtain ⟨cellFresh, goneUnique⟩ := List.nodup_cons.mp cellUnique
  obtain ⟨goneApart, rightUnique⟩ := List.nodup_cons.mp goneUnique
  have headNot : ∀ other, other ∉ right → right.head? ≠ some other :=
    fun other outside same => outside (List.mem_of_head? same)
  have cellApart : cell ∉ right := fun member => cellFresh (List.mem_cons_of_mem _ member)
  have cellNe : cell ≠ gone := fun same => cellFresh (same ▸ List.mem_cons_self)
  have leftNe : ∀ other ∈ left, other ≠ cell ∧ other ≠ gone ∧ other ∉ right := by
    intro other member
    have differs := apart other member
    exact ⟨differs cell List.mem_cons_self,
      differs gone (List.mem_cons_of_mem _ List.mem_cons_self),
      fun inside => differs other (List.mem_cons_of_mem _ (List.mem_cons_of_mem _ inside)) rfl⟩
  have rightNe : ∀ other ∈ right, other ≠ cell ∧ other ≠ gone :=
    fun other member => ⟨fun same => cellApart (same ▸ member), fun same => goneApart (same ▸ member)⟩
  refine append_iff.mpr ⟨?_, ?_, ?_, ?_⟩
  · refine leftLinked.congr ?_ ?_
    · exact fun other member =>
        samePrev other (leftNe other member).2.1 (headNot _ (leftNe other member).2.2)
    · exact fun other member => sameNext other (leftNe other member).1 (leftNe other member).2.1
  · rw [samePrev cell cellNe (headNot _ cellApart)]
    exact cellPrev
  · rw [cellNext, goneNext]
  · refine rightLinked.reroot rightUnique rightPrev ?_ ?_
    · exact fun other member different => samePrev other (rightNe other member).2 different
    · exact fun other member => sameNext other (rightNe other member).1 (rightNe other member).2

end Linked

/-- Following one link leads through the whole list and out of it. -/
def Threads (link : α → Option α) : List α → Prop
  | [] => True
  | cell :: cells => link cell = cells.head? ∧ Threads link cells

theorem Threads.suffix {link : α → Option α} {left right : List α} (threads : Threads link (left ++ right)) :
    Threads link right := by
  induction left with
  | nil => exact threads
  | cons cell left ih => exact ih threads.2

theorem Linked.threads_next {prev next : α → Option α} {before : Option α} {cells : List α}
    (linked : Linked prev next before cells none) : Threads next cells := by
  induction cells generalizing before with
  | nil => trivial
  | cons cell cells ih =>
      obtain ⟨_, forward, rest⟩ := linked
      exact ⟨by rw [forward, Option.or_none], ih rest⟩

theorem Linked.threads_prev {prev next : α → Option α} {after : Option α} {cells : List α}
    (linked : Linked prev next none cells after) : Threads prev cells.reverse := by
  induction cells using List.reverseRecOn generalizing after with
  | nil => trivial
  | append_singleton front last ih =>
      obtain ⟨frontLinked, lastLinked⟩ := Linked.append_iff.mp linked
      rw [List.reverse_append, List.reverse_singleton, List.singleton_append]
      refine ⟨?_, ih frontLinked⟩
      rw [lastLinked.1, Option.or_none, List.head?_reverse]

/-- An element without repetition splits its list in one way. -/
theorem unique_split {left left' right right' : List α} {cell : α} (unique : (left ++ cell :: right).Nodup)
    (same : left ++ cell :: right = left' ++ cell :: right') : left = left' ∧ right = right' := by
  induction left generalizing left' with
  | nil =>
      cases left' with
      | nil => exact ⟨rfl, by simpa using same⟩
      | cons head left' =>
          simp only [List.nil_append, List.cons_append, List.cons.injEq] at same
          obtain ⟨rfl, rfl⟩ := same
          simp at unique
  | cons head left ih =>
      obtain ⟨apart, rest⟩ := List.nodup_cons.mp unique
      cases left' with
      | nil =>
          simp only [List.nil_append, List.cons_append, List.cons.injEq] at same
          obtain ⟨rfl, rfl⟩ := same
          simp at apart
      | cons head' left' =>
          simp only [List.cons_append, List.cons.injEq] at same
          obtain ⟨rfl, same⟩ := same
          obtain ⟨rfl, rfl⟩ := ih rest same
          exact ⟨rfl, rfl⟩

end Optimap.Lib
