import Mathlib.Tactic

/-!
# Guarded runs

Commands that may fail, run one after the other, against a total model of what they mean. A
command is only simulated where its guard allows it in the state it finds.
-/

set_option autoImplicit false

namespace Optimap.Lib

variable {C S M R F : Type}

/-- Stop at the first failure. -/
def runAll (step : C → S → Except F (R × S)) : List C → S → Except F (List R × S)
  | [], state => .ok ([], state)
  | command :: commands, state => do
      let (reply, state) ← step command state
      let (replies, state) ← runAll step commands state
      pure (reply :: replies, state)

def meanAll (mean : C → M → R × M) : List C → M → List R × M
  | [], model => ([], model)
  | command :: commands, model =>
      ((mean command model).1 :: (meanAll mean commands (mean command model).2).1,
        (meanAll mean commands (mean command model).2).2)

/-- Every command is allowed where the run comes to it. -/
def allowsAll (allows : C → S → Bool) (step : C → S → Except F (R × S)) : List C → S → Bool
  | [], _ => true
  | command :: commands, state =>
      allows command state &&
        match step command state with
        | .ok (_, state) => allowsAll allows step commands state
        | .error _ => false

/-- Every allowed command does what it means. -/
structure Simulates (step : C → S → Except F (R × S)) (mean : C → M → R × M) (allows : C → S → Bool)
    (Stands : S → M → Prop) : Prop where
  each : ∀ command state model, Stands state model → allows command state = true →
    ∃ state', step command state = .ok ((mean command model).1, state') ∧ Stands state' (mean command model).2

variable {step : C → S → Except F (R × S)} {mean : C → M → R × M} {allows : C → S → Bool} {Stands : S → M → Prop}

theorem Simulates.runAll (simulates : Simulates step mean allows Stands) (commands : List C) {state : S} {model : M}
    (stands : Stands state model) (allowed : allowsAll allows step commands state = true) :
    ∃ state', runAll step commands state = .ok ((meanAll mean commands model).1, state') ∧
      Stands state' (meanAll mean commands model).2 := by
  induction commands generalizing state model with
  | nil => exact ⟨state, rfl, stands⟩
  | cons command commands ih =>
      rw [allowsAll, Bool.and_eq_true] at allowed
      obtain ⟨here, later⟩ := allowed
      obtain ⟨middle, stepped, between⟩ := simulates.each command state model stands here
      simp only [stepped] at later
      obtain ⟨state', ran, after⟩ := ih between later
      refine ⟨state', ?_, after⟩
      simp only [Lib.runAll, stepped, ran, bind, Except.bind]
      rfl

/-- A store of states under names, each standing for the model of that name. -/
def EachStands (Stands : S → M → Prop) {N : Type} (states : N → S) (models : N → M) : Prop :=
  ∀ name, Stands (states name) (models name)

theorem EachStands.update {N : Type} [DecidableEq N] {states : N → S} {models : N → M} {name : N} {state : S} {model : M}
    (each : EachStands Stands states models) (stands : Stands state model) :
    EachStands Stands (Function.update states name state) (Function.update models name model) := by
  intro other
  by_cases same : other = name
  · rw [same, Function.update_self, Function.update_self]
    exact stands
  · rw [Function.update_of_ne same, Function.update_of_ne same]
    exact each other

end Optimap.Lib
