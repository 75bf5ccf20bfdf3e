import Mathlib.Data.List.Nodup
import Mathlib.Data.List.Perm.Basic
import Mathlib.Tactic

/-!
# Finite maps

A finite map seen from outside is the partial function of its lookups. The
lists that enumerate it are unordered: only the entries and their
multiplicities are fixed.
-/

set_option autoImplicit false

namespace Optimap.Lib

/-- The value held under each key. -/
abbrev PMap (K V : Type) := K → Option V

namespace PMap

variable {K V : Type}

def empty : PMap K V := fun _ => none

section Update
variable [DecidableEq K]

def insert (map : PMap K V) (key : K) (value : V) : PMap K V :=
  fun other => if other = key then some value else map other

def erase (map : PMap K V) (key : K) : PMap K V :=
  fun other => if other = key then none else map other

theorem insert_self (map : PMap K V) (key : K) (value : V) :
    map.insert key value key = some value := by
  simp [insert]

theorem insert_of_ne (map : PMap K V) {key other : K} (value : V) (different : other ≠ key) :
    map.insert key value other = map other := by
  simp [insert, different]

/-- Inserting the entries of a list from the left, later ones winning. -/
def insertAll (map : PMap K V) (entries : List (K × V)) : PMap K V :=
  entries.foldl (fun current entry => current.insert entry.1 entry.2) map

end Update

/-- Keep the entries the predicate accepts, with the values it leaves behind. -/
def retain (map : PMap K V) (predicate : K → V → Bool × V) : PMap K V :=
  fun key => (map key).bind fun value =>
    if (predicate key value).1 then some (predicate key value).2 else none

/-- The list holds every entry of the map exactly once. -/
structure Enumerates (entries : List (K × V)) (map : PMap K V) : Prop where
  nodup : (entries.map Prod.fst).Nodup
  mem_iff : ∀ key value, (key, value) ∈ entries ↔ map key = some value

theorem Enumerates.empty : Enumerates ([] : List (K × V)) PMap.empty :=
  ⟨by simp, by simp [PMap.empty]⟩

theorem Enumerates.eq_empty {map : PMap K V} (listed : Enumerates [] map) : map = PMap.empty := by
  funext key
  cases found : map key with
  | none => rfl
  | some value => simpa using (listed.mem_iff key value).mpr found

theorem Enumerates.map_eq {entries : List (K × V)} {left right : PMap K V}
    (leftListed : Enumerates entries left) (rightListed : Enumerates entries right) :
    left = right := by
  funext key
  ext value
  rw [← leftListed.mem_iff, ← rightListed.mem_iff]

theorem nodup_of_nodup_keys {entries : List (K × V)} (unique : (entries.map Prod.fst).Nodup) :
    entries.Nodup :=
  List.Nodup.of_map Prod.fst unique

/-- Two enumerations of one map differ only by order. -/
theorem Enumerates.perm {left right : List (K × V)} {map : PMap K V}
    (leftListed : Enumerates left map) (rightListed : Enumerates right map) :
    left.Perm right := by
  rw [List.perm_ext_iff_of_nodup (nodup_of_nodup_keys leftListed.nodup)
    (nodup_of_nodup_keys rightListed.nodup)]
  rintro ⟨key, value⟩
  rw [leftListed.mem_iff, rightListed.mem_iff]

/-- Re-inserting an enumeration into the empty map rebuilds the map. -/
theorem Enumerates.insertAll_empty [DecidableEq K] {entries : List (K × V)} {map : PMap K V}
    (listed : Enumerates entries map) : PMap.empty.insertAll entries = map := by
  have folded : ∀ (rest : List (K × V)) (start : PMap K V),
      (rest.map Prod.fst).Nodup → (∀ entry ∈ rest, start entry.1 = none) →
      ∀ key value, start.insertAll rest key = some value ↔
        start key = some value ∨ (key, value) ∈ rest := by
    intro rest
    induction rest with
    | nil => intro start _ _ key value; simp [insertAll]
    | cons entry rest ih =>
        intro start unique fresh key value
        have headFresh : entry.1 ∉ rest.map Prod.fst := (List.nodup_cons.mp unique).1
        have restFresh : ∀ other ∈ rest, start.insert entry.1 entry.2 other.1 = none := by
          intro other member
          have different : other.1 ≠ entry.1 := by
            intro same
            exact headFresh (same ▸ List.mem_map_of_mem member)
          rw [insert_of_ne start _ different]
          exact fresh other (List.mem_cons_of_mem _ member)
        have step := ih (start.insert entry.1 entry.2) (List.nodup_cons.mp unique).2 restFresh key value
        simp only [insertAll, List.foldl_cons] at step ⊢
        rw [step, List.mem_cons]
        have headAbsent : start entry.1 = none := fresh entry List.mem_cons_self
        by_cases same : key = entry.1
        · subst same
          constructor
          · rintro (found | member)
            · rw [insert_self, Option.some.injEq] at found
              exact .inr (.inl (Prod.ext rfl found.symm))
            · exact .inr (.inr member)
          · rintro (found | equal | member)
            · rw [headAbsent] at found; cases found
            · left; rw [insert_self, ← equal]
            · exact .inr member
        · rw [insert_of_ne start _ same]
          have notHead : (key, value) ≠ entry := fun equal => same (congrArg Prod.fst equal)
          simp [notHead]
  funext key
  ext value
  rw [folded entries PMap.empty listed.nodup (by simp [PMap.empty]) key value, ← listed.mem_iff]
  simp [PMap.empty]

end PMap

end Optimap.Lib
