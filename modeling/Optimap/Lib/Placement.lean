import Mathlib.Data.List.Nodup
import Mathlib.Tactic

/-!
# Filling a memory at distinct positions

A memory that is written once at each of a list of distinct positions reads
back every write, and elsewhere what it held before.
-/

set_option autoImplicit false

namespace Optimap.Lib

/-- Cells of one memory that can be read and written one by one. A position
outside of the memory reads `none`. -/
structure Memory (M I β : Type) [DecidableEq I] where
  read : M → I → Option β
  write : M → I → β → M
  read_write : ∀ {memory : M} {position : I}, (read memory position).isSome → ∀ (item : β) (other : I),
    read (write memory position item) other = if other = position then some item else read memory other

namespace Memory

variable {M I β : Type} [DecidableEq I] (cells : Memory M I β)

/-- The writes in order. -/
def writeAll (memory : M) (writes : List (I × β)) : M :=
  writes.foldl (fun current entry => cells.write current entry.1 entry.2) memory

theorem read_writeAll {writes : List (I × β)} (memory : M) (nodup : (writes.map Prod.fst).Nodup)
    (inside : ∀ entry ∈ writes, (cells.read memory entry.1).isSome) (position : I) (item : β) :
    cells.read (cells.writeAll memory writes) position = some item ↔
      (position, item) ∈ writes ∨
        (cells.read memory position = some item ∧ position ∉ writes.map Prod.fst) := by
  induction writes generalizing memory with
  | nil => simp [writeAll]
  | cons entry writes ih =>
      obtain ⟨headFresh, tailNodup⟩ := List.nodup_cons.mp nodup
      have headInside := inside entry List.mem_cons_self
      have tailInside : ∀ other ∈ writes,
          (cells.read (cells.write memory entry.1 entry.2) other.1).isSome := by
        intro other member
        rw [cells.read_write headInside]
        split
        · rfl
        · exact inside other (List.mem_cons_of_mem _ member)
      have step := ih _ tailNodup tailInside
      simp only [writeAll, List.foldl_cons] at step ⊢
      rw [step, cells.read_write headInside, List.map_cons, List.mem_cons, List.mem_cons]
      by_cases here : position = entry.1
      · subst here
        rw [if_pos rfl]
        constructor
        · rintro (member | ⟨same, _⟩)
          · exact .inl (.inr member)
          · cases same
            exact .inl (.inl rfl)
        · rintro ((same | member) | ⟨_, outside⟩)
          · exact .inr ⟨by rw [← same], headFresh⟩
          · exact .inl member
          · exact absurd (.inl rfl) outside
      · rw [if_neg here]
        have notHead : (position, item) ≠ entry := fun same => here (congrArg Prod.fst same)
        simp [notHead, here]

end Memory

/-- A list as a memory. -/
def listMemory (β : Type) : Memory (List β) Nat β where
  read cells position := cells[position]?
  write cells position item := cells.set position item
  read_write := by
    intro cells position inside item other
    rw [List.getElem?_set]
    by_cases same : other = position
    · subst same
      rw [if_pos rfl, if_pos rfl, if_pos (by simpa using inside)]
    · rw [if_neg (fun equal => same equal.symm), if_neg same]

end Optimap.Lib
