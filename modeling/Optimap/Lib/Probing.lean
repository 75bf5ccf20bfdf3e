import Mathlib.Data.Nat.Bitwise
import Mathlib.Tactic

/-!
# Triangular probing

A probe sequence over `2 ^ k` groups that steps by 1, 2, 3, … and keeps the low
bits. The first `2 ^ k` positions visit every group once.
-/

set_option autoImplicit false

namespace Optimap.Lib

/-- The group a probe reaches after `steps` advances from `home`. -/
def probeGroup (mask home : Nat) : Nat → Nat
  | 0 => home
  | steps + 1 => (probeGroup mask home steps + (steps + 1)) &&& mask

theorem and_mask_eq_mod {mask bits : Nat} (power : mask + 1 = 2 ^ bits) (value : Nat) :
    value &&& mask = value % 2 ^ bits := by
  have masked : mask = 2 ^ bits - 1 := by omega
  rw [masked, Nat.and_two_pow_sub_one_eq_mod]

theorem probeGroup_le {mask home : Nat} (inside : home ≤ mask) (steps : Nat) :
    probeGroup mask home steps ≤ mask := by
  cases steps with
  | zero => exact inside
  | succ steps => exact Nat.and_le_right

/-- In closed form the offset is a triangular number. -/
theorem probeGroup_eq {mask home bits : Nat} (power : mask + 1 = 2 ^ bits) (inside : home ≤ mask)
    (steps : Nat) :
    probeGroup mask home steps = (home + steps * (steps + 1) / 2) % 2 ^ bits := by
  induction steps with
  | zero =>
      have below : home < 2 ^ bits := by omega
      simp [probeGroup, Nat.mod_eq_of_lt below]
  | succ steps ih =>
      have next : (steps + 1) * (steps + 1 + 1) / 2 = steps * (steps + 1) / 2 + (steps + 1) := by
        have split : (steps + 1) * (steps + 1 + 1) = steps * (steps + 1) + 2 * (steps + 1) := by ring
        rw [split, Nat.add_mul_div_left _ _ (by decide)]
      rw [probeGroup, and_mask_eq_mod power, ih, next, Nat.mod_add_mod, Nat.add_assoc]

/-- Triangular numbers below `2 ^ bits` are distinct modulo `2 ^ bits`: of the
two factors of their doubled difference one is odd. -/
theorem triangular_injective {bits left right : Nat} (ordered : left ≤ right)
    (bound : right < 2 ^ bits)
    (same : left * (left + 1) / 2 % 2 ^ bits = right * (right + 1) / 2 % 2 ^ bits) :
    left = right := by
  have leftEven : 2 * (left * (left + 1) / 2) = left * (left + 1) :=
    Nat.mul_div_cancel' (Nat.even_mul_succ_self left).two_dvd
  have rightEven : 2 * (right * (right + 1) / 2) = right * (right + 1) :=
    Nat.mul_div_cancel' (Nat.even_mul_succ_self right).two_dvd
  have grows : left * (left + 1) / 2 ≤ right * (right + 1) / 2 :=
    Nat.div_le_div_right (Nat.mul_le_mul ordered (by omega))
  have divides : 2 ^ bits ∣ right * (right + 1) / 2 - left * (left + 1) / 2 :=
    (Nat.modEq_iff_dvd' grows).mp same
  obtain ⟨gap, rfl⟩ := Nat.exists_eq_add_of_le ordered
  have factored : 2 ^ (bits + 1) ∣ gap * (2 * left + gap + 1) := by
    obtain ⟨quotient, equation⟩ := divides
    refine ⟨quotient, ?_⟩
    have doubled : 2 * ((left + gap) * (left + gap + 1) / 2 - left * (left + 1) / 2) =
        2 * (2 ^ bits * quotient) := by rw [equation]
    rw [Nat.mul_sub, leftEven, rightEven] at doubled
    have expand : (left + gap) * (left + gap + 1) =
        left * (left + 1) + gap * (2 * left + gap + 1) := by ring
    rw [expand, Nat.add_sub_cancel_left] at doubled
    rw [doubled]
    ring
  rcases Nat.even_or_odd gap with even | odd
  · have coprime : Nat.Coprime (2 ^ (bits + 1)) (2 * left + gap + 1) := by
      refine Nat.Coprime.pow_left _ (Nat.coprime_two_left.mpr ?_)
      obtain ⟨half, rfl⟩ := even
      exact ⟨left + half, by ring⟩
    have small := coprime.dvd_of_dvd_mul_right factored
    by_contra different
    have positive : 0 < gap := by omega
    have := Nat.le_of_dvd positive small
    rw [pow_succ] at this
    omega
  · have coprime : Nat.Coprime (2 ^ (bits + 1)) gap :=
      Nat.Coprime.pow_left _ (Nat.coprime_two_left.mpr odd)
    have small := Nat.le_of_dvd (by omega) (coprime.dvd_of_dvd_mul_left factored)
    rw [pow_succ] at small
    omega

theorem probeGroup_injective {mask home bits : Nat} (power : mask + 1 = 2 ^ bits)
    (inside : home ≤ mask) {left right : Nat} (leftBound : left ≤ mask) (rightBound : right ≤ mask)
    (same : probeGroup mask home left = probeGroup mask home right) : left = right := by
  rw [probeGroup_eq power inside, probeGroup_eq power inside] at same
  have offsets : left * (left + 1) / 2 % 2 ^ bits = right * (right + 1) / 2 % 2 ^ bits :=
    Nat.ModEq.add_left_cancel' home same
  rcases Nat.le_total left right with ordered | ordered
  · exact triangular_injective ordered (by omega) offsets
  · exact (triangular_injective ordered (by omega) offsets.symm).symm

/-- Every group is reached within the first `mask + 1` probes. -/
theorem probeGroup_surjective {mask home bits : Nat} (power : mask + 1 = 2 ^ bits)
    (inside : home ≤ mask) {group : Nat} (bound : group ≤ mask) :
    ∃ steps, steps ≤ mask ∧ probeGroup mask home steps = group := by
  let visit : Fin (mask + 1) → Fin (mask + 1) := fun steps =>
    ⟨probeGroup mask home steps, Nat.lt_succ_of_le (probeGroup_le inside steps)⟩
  have injective : Function.Injective visit := by
    intro left right same
    have groups := congrArg Fin.val same
    exact Fin.ext (probeGroup_injective power inside (Nat.le_of_lt_succ left.isLt)
      (Nat.le_of_lt_succ right.isLt) groups)
  obtain ⟨steps, reached⟩ := (Finite.injective_iff_surjective.mp injective) ⟨group, Nat.lt_succ_of_le bound⟩
  exact ⟨steps, Nat.le_of_lt_succ steps.isLt, congrArg Fin.val reached⟩

/-- A property of the groups passed on the way to `group` holds already for the
first visit, which lies below the number of groups. -/
theorem exists_early_probe {mask home bits : Nat} (power : mask + 1 = 2 ^ bits)
    (inside : home ≤ mask) {steps : Nat} {Passed : Nat → Prop}
    (passed : ∀ earlier < steps, Passed (probeGroup mask home earlier)) :
    ∃ first, first ≤ mask ∧ probeGroup mask home first = probeGroup mask home steps ∧
      ∀ earlier < first, Passed (probeGroup mask home earlier) := by
  obtain ⟨first, bound, reached⟩ :=
    probeGroup_surjective power inside (probeGroup_le inside steps)
  rcases Nat.lt_or_ge steps first with late | early
  · exact ⟨steps, by omega, rfl, passed⟩
  · exact ⟨first, bound, reached, fun earlier below => passed earlier (by omega)⟩

end Optimap.Lib
