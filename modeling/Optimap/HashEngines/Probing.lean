import Mathlib.Data.List.Perm.Basic
import Optimap.Overflow.Invariant
import Optimap.Tomb.Invariant

/-!
# The groups a probe visits

The loops of the three engines advance by `gi := (gi + probe) & mask`, `probe`
counting up from 1. From any start the first `2 ^ k` groups are all groups.
-/

set_option autoImplicit false
set_option linter.unusedSectionVars false

namespace Optimap

open Lib Hash Map

/-- The group after `probe` advances from `start`, by the step of the loops of
`OverflowTable`. -/
def Overflow.RawTable.probedFrom {L : Overflow.GroupLayout} {S : Type → Type → Type} {K V : Type}
    (table : Overflow.RawTable L S K V) (start : Nat) : Nat → Nat
  | 0 => start
  | probe + 1 => table.nextGroup (table.probedFrom start probe) (probe + 1)

/-- The same for the loops of `in_place_overflow` and `ipo64`. -/
def Tomb.RawTable.probedFrom {engine : Tomb.Engine} {tag : Tomb.TombstoneTag} {S : Type → Type → Type}
    {K V : Type} (table : Tomb.RawTable engine tag S K V) (start : Nat) : Nat → Nat
  | 0 => start
  | probe + 1 => table.nextGroup (table.probedFrom start probe) (probe + 1)

namespace HashEngines

/-- `gi = gi.wrapping_add(probe) & mask` on machine words. -/
def wordProbedFrom (mask start : UInt64) : Nat → UInt64
  | 0 => start
  | probe + 1 => (wordProbedFrom mask start probe + UInt64.ofNat (probe + 1)) &&& mask

/-- The probe sequence of the library, and the first `2 ^ bits` groups of it. -/
theorem probeGroup_perm {bits start : Nat} (inside : start < 2 ^ bits) :
    ((List.range (2 ^ bits)).map (probeGroup (2 ^ bits - 1) start)).Perm (List.range (2 ^ bits)) := by
  have positive : 0 < 2 ^ bits := Nat.two_pow_pos bits
  have power : 2 ^ bits - 1 + 1 = 2 ^ bits := Nat.sub_add_cancel positive
  have start_le : start ≤ 2 ^ bits - 1 := Nat.le_sub_one_of_lt inside
  have distinct : ((List.range (2 ^ bits)).map (probeGroup (2 ^ bits - 1) start)).Nodup := by
    refine List.Nodup.map_on (fun left leftInside right rightInside same => ?_) List.nodup_range
    rw [List.mem_range] at leftInside rightInside
    exact probeGroup_injective power start_le (Nat.le_sub_one_of_lt leftInside)
      (Nat.le_sub_one_of_lt rightInside) same
  refine (List.perm_ext_iff_of_nodup distinct List.nodup_range).mpr fun group => ?_
  rw [List.mem_map, List.mem_range]
  constructor
  · rintro ⟨steps, _, rfl⟩
    have bounded := probeGroup_le start_le steps
    omega
  · intro below
    obtain ⟨steps, early, reached⟩ := probeGroup_surjective power start_le (Nat.le_sub_one_of_lt below)
    exact ⟨steps, List.mem_range.mpr (by omega), reached⟩

section Engines
variable {S : Type → Type → Type} [KvStorage S] {K V : Type}

theorem overflow_probedFrom_eq {L : Overflow.GroupLayout} (table : Overflow.RawTable L S K V) (start probe : Nat) :
    table.probedFrom start probe = probeGroup table.mask start probe := by
  induction probe with
  | zero => rfl
  | succ probe ih => rw [Overflow.RawTable.probedFrom, ih, Overflow.RawTable.nextGroup, probeGroup]

theorem tomb_probedFrom_eq {engine : Tomb.Engine} {tag : Tomb.TombstoneTag}
    (table : Tomb.RawTable engine tag S K V) (start probe : Nat) :
    table.probedFrom start probe = probeGroup table.mask start probe := by
  induction probe with
  | zero => rfl
  | succ probe ih => rw [Tomb.RawTable.probedFrom, ih, Tomb.RawTable.nextGroup, probeGroup]

end Engines

/-- The wrapping addition does not show under the mask. -/
theorem wordProbedFrom_toNat {bits : Nat} (narrow : bits ≤ 64) {mask start : UInt64}
    (power : mask.toNat = 2 ^ bits - 1) (probe : Nat) :
    (wordProbedFrom mask start probe).toNat = probeGroup (2 ^ bits - 1) start.toNat probe := by
  have divides : 2 ^ bits ∣ 2 ^ 64 := Nat.pow_dvd_pow 2 narrow
  induction probe with
  | zero => rfl
  | succ probe ih =>
      rw [wordProbedFrom, probeGroup, UInt64.toNat_and, UInt64.toNat_add, UInt64.toNat_ofNat', power, ih]
      rw [Nat.and_two_pow_sub_one_eq_mod, Nat.and_two_pow_sub_one_eq_mod, Nat.mod_mod_of_dvd _ divides]
      rw [Nat.add_mod, Nat.mod_mod_of_dvd _ divides, ← Nat.add_mod]

/-- The first `2 ^ k` groups that a loop probes are all groups, each once, from
any start: in every table with mask `2 ^ k - 1`, and on machine words. -/
theorem triangular_probing_permutes (k : Nat) :
    (∀ {L : Overflow.GroupLayout} {S : Type → Type → Type} [KvStorage S] {K V : Type}
      (table : Overflow.RawTable L S K V) (start : Nat), table.mask = 2 ^ k - 1 → start < 2 ^ k →
      ((List.range (2 ^ k)).map (table.probedFrom start)).Perm (List.range (2 ^ k))) ∧
    (∀ {engine : Tomb.Engine} {tag : Tomb.TombstoneTag} {S : Type → Type → Type} [KvStorage S] {K V : Type}
      (table : Tomb.RawTable engine tag S K V) (start : Nat), table.mask = 2 ^ k - 1 → start < 2 ^ k →
      ((List.range (2 ^ k)).map (table.probedFrom start)).Perm (List.range (2 ^ k))) ∧
    ∀ mask start : UInt64, k ≤ 64 → mask.toNat = 2 ^ k - 1 → start.toNat < 2 ^ k →
      ((List.range (2 ^ k)).map fun probe => (wordProbedFrom mask start probe).toNat).Perm
        (List.range (2 ^ k)) := by
  refine ⟨fun table start power inside => ?_, fun table start power inside => ?_,
    fun mask start narrow power inside => ?_⟩
  · have same : table.probedFrom start = probeGroup (2 ^ k - 1) start :=
      funext fun probe => power ▸ overflow_probedFrom_eq table start probe
    rw [same]
    exact probeGroup_perm inside
  · have same : table.probedFrom start = probeGroup (2 ^ k - 1) start :=
      funext fun probe => power ▸ tomb_probedFrom_eq table start probe
    rw [same]
    exact probeGroup_perm inside
  · have same : (fun probe => (wordProbedFrom mask start probe).toNat) =
        probeGroup (2 ^ k - 1) start.toNat := funext (wordProbedFrom_toNat narrow power)
    rw [same]
    exact probeGroup_perm inside

/-- Four groups of a table of each kind, and eight on machine words. -/
theorem small_tables_probed_once :
    ((List.range 4).map ((Overflow.RawTable.new.allocate 4 :
        Overflow.RawTable (Overflow.ufmLayout .pure) AoS Nat Nat).probedFrom 2)).Perm (List.range 4) ∧
    ((List.range 4).map ((Tomb.RawTable.new.allocate 4 :
        Tomb.RawTable .ipo64 Tomb.lowTomb AoS Nat Nat).probedFrom 3)).Perm (List.range 4) ∧
    ((List.range 8).map fun probe => (wordProbedFrom 7 5 probe).toNat).Perm (List.range 8) :=
  ⟨(triangular_probing_permutes 2).1 _ 2 rfl (by decide),
    (triangular_probing_permutes 2).2.1 _ 3 rfl (by decide),
    (triangular_probing_permutes 3).2.2 7 5 (by decide) rfl (by decide)⟩

end HashEngines

end Optimap
