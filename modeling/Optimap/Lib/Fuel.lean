import Mathlib.Tactic

/-!
# Computations with fuel

A loop without a counter is modelled with a number of rounds it may run. It
terminates when some number of rounds is enough, and then the result does not
depend on how many more are allowed.
-/

set_option autoImplicit false

namespace Optimap.Lib

/-- With enough fuel the computation returns `result`. -/
def Settles {α : Type} (compute : Nat → Option α) (result : α) : Prop :=
  ∃ enough, ∀ fuel, enough ≤ fuel → compute fuel = some result

namespace Settles

variable {α β : Type} {compute : Nat → Option α} {result : α}

theorem pure (result : α) : Settles (fun _ => some result) result := ⟨0, fun _ _ => rfl⟩

theorem returned (settles : Settles compute result) : ∃ fuel, compute fuel = some result := by
  obtain ⟨enough, returns⟩ := settles
  exact ⟨enough, returns enough le_rfl⟩

theorem of_bound {bound : Nat} (returns : ∀ fuel, bound ≤ fuel → compute fuel = some result) :
    Settles compute result :=
  ⟨bound, returns⟩

theorem bind {next : Nat → α → Option β} {final : β} (first : Settles compute result)
    (second : Settles (fun fuel => next fuel result) final) :
    Settles (fun fuel => compute fuel >>= next fuel) final := by
  obtain ⟨enoughFirst, firstReturns⟩ := first
  obtain ⟨enoughSecond, secondReturns⟩ := second
  refine ⟨max enoughFirst enoughSecond, fun fuel large => ?_⟩
  simp only [firstReturns fuel (le_trans (le_max_left _ _) large)]
  exact secondReturns fuel (le_trans (le_max_right _ _) large)

theorem map_iff {convert : α → β} (injective : Function.Injective convert) :
    Settles (fun fuel => (compute fuel).map convert) (convert result) ↔ Settles compute result := by
  unfold Settles
  simp only [Option.map_eq_some_iff, injective.eq_iff, exists_eq_right]

end Settles

/-- The computation settles on some result. -/
def Returns {α : Type} (compute : Nat → Option α) : Prop := ∃ result, Settles compute result

namespace Returns

variable {α β : Type} {compute : Nat → Option α}

theorem pure (result : α) : Returns fun _ => some result := ⟨result, .pure result⟩

/-- Sequencing: what follows has to return for the values that the first part
can return. -/
theorem bind {next : Nat → α → Option β} (first : Returns compute)
    (second : ∀ result fuel, compute fuel = some result → Returns fun fuel => next fuel result) :
    Returns fun fuel => compute fuel >>= next fuel := by
  obtain ⟨result, settles⟩ := first
  obtain ⟨fuel, returned⟩ := settles.returned
  obtain ⟨final, rest⟩ := second result fuel returned
  exact ⟨final, settles.bind rest⟩

theorem ite {condition : Prop} [Decidable condition] {left right : Nat → Option α}
    (whenTrue : condition → Returns left) (whenFalse : ¬ condition → Returns right) :
    Returns fun fuel => if condition then left fuel else right fuel := by
  by_cases holds : condition
  · simpa only [if_pos holds] using whenTrue holds
  · simpa only [if_neg holds] using whenFalse holds

/-- Two computations that agree on what they return with the same fuel settle on
corresponding results, when each returns. -/
theorem agree {other : Nat → Option β} {convert : α → β}
    (same : ∀ fuel result final, compute fuel = some result → other fuel = some final →
      final = convert result) (returns : Returns other) {result : α} (settles : Settles compute result) :
    Settles other (convert result) := by
  obtain ⟨final, enoughFinal, finalReturns⟩ := returns
  obtain ⟨enough, resultReturns⟩ := settles
  have equal := same (max enough enoughFinal) result final (resultReturns _ (le_max_left _ _))
    (finalReturns _ (le_max_right _ _))
  exact ⟨enoughFinal, equal ▸ finalReturns⟩

end Returns

/-- A loop whose rounds either return or lower the rank returns within `rank`
further rounds. -/
theorem loop_returns {State α : Type} (loop : Nat → State → Option α) (Good : State → Prop)
    (rank : State → Nat)
    (step : ∀ state, Good state → (∃ result, ∀ fuel, loop (fuel + 1) state = some result) ∨
      ∃ later, Good later ∧ rank later < rank state ∧ ∀ fuel, loop (fuel + 1) state = loop fuel later)
    {state : State} (good : Good state) :
    ∃ result, ∀ fuel, rank state < fuel → loop fuel state = some result := by
  induction bound : rank state using Nat.strong_induction_on generalizing state with
  | _ bound ih =>
      rcases step state good with ⟨result, returns⟩ | ⟨later, laterGood, lower, unfolds⟩
      · refine ⟨result, fun fuel large => ?_⟩
        obtain ⟨fuel, rfl⟩ := Nat.exists_eq_succ_of_ne_zero (show fuel ≠ 0 by omega)
        exact returns fuel
      · obtain ⟨result, returns⟩ := ih (rank later) (bound ▸ lower) laterGood rfl
        refine ⟨result, fun fuel large => ?_⟩
        obtain ⟨fuel, rfl⟩ := Nat.exists_eq_succ_of_ne_zero (show fuel ≠ 0 by omega)
        rw [Nat.succ_eq_add_one, unfolds]
        exact returns fuel (by omega)

end Optimap.Lib
