import Optimap.Lib.FiniteMap

/-!
# The reference map

The operations shared by every unordered map of the crate, and the answers a
finite map gives to them. Enumerations are unordered, so an answer is a
relation and not a function.
-/

set_option autoImplicit false

namespace Optimap.Map

open Lib

inductive MapOp (K V : Type) where
  | get (key : K)
  | insert (key : K) (value : V)
  | remove (key : K)
  | removeEntry (key : K)
  /-- `entry(key).or_insert(value)`. -/
  | entryInsert (key : K) (value : V)
  | tryInsert (key : K) (value : V)
  | extend (entries : List (K × V))
  | retain (predicate : K → V → Bool × V)
  | clear
  | reserve (additional : Nat)
  | shrinkToFit
  | clone
  | drain
  | iter
  | len

inductive MapResult (K V : Type) where
  | unit
  | value (value : Option V)
  | entry (entry : Option (K × V))
  /-- `Err(OccupiedError)` hands the rejected key and value back. -/
  | tried (rejected : Option (K × V))
  | entries (entries : List (K × V))
  | count (length : Nat)

variable {K V : Type} [DecidableEq K]

/-- `Answers map op result map'`: a finite map holding `map` answers `op` with
`result` and holds `map'` afterwards. -/
def Answers (map : PMap K V) : MapOp K V → MapResult K V → PMap K V → Prop
  | .get key, result, map' => result = .value (map key) ∧ map' = map
  | .insert key value, result, map' => result = .value (map key) ∧ map' = map.insert key value
  | .remove key, result, map' => result = .value (map key) ∧ map' = map.erase key
  | .removeEntry key, result, map' =>
      result = .entry ((map key).map fun value => (key, value)) ∧ map' = map.erase key
  | .entryInsert key value, result, map' =>
      result = .value (some ((map key).getD value)) ∧
        map' = map.insert key ((map key).getD value)
  | .tryInsert key value, result, map' =>
      match map key with
      | some _ => result = .tried (some (key, value)) ∧ map' = map
      | none => result = .tried none ∧ map' = map.insert key value
  | .extend entries, result, map' => result = .unit ∧ map' = map.insertAll entries
  | .retain predicate, result, map' => result = .unit ∧ map' = map.retain predicate
  | .clear, result, map' => result = .unit ∧ map' = PMap.empty
  | .reserve _, result, map' => result = .unit ∧ map' = map
  | .shrinkToFit, result, map' => result = .unit ∧ map' = map
  | .clone, result, map' => result = .unit ∧ map' = map
  | .drain, result, map' =>
      (∃ entries, PMap.Enumerates entries map ∧ result = .entries entries) ∧ map' = PMap.empty
  | .iter, result, map' =>
      (∃ entries, PMap.Enumerates entries map ∧ result = .entries entries) ∧ map' = map
  | .len, result, map' =>
      (∃ entries, PMap.Enumerates entries map ∧ result = .count entries.length) ∧ map' = map

/-- The answers to a whole run, one result per operation. -/
inductive AnswersAll {Op Result : Type} (answers : PMap K V → Op → Result → PMap K V → Prop) :
    PMap K V → List Op → List Result → PMap K V → Prop where
  | nil {map} : AnswersAll answers map [] [] map
  | cons {map middle final op result ops results} :
      answers map op result middle → AnswersAll answers middle ops results final →
      AnswersAll answers map (op :: ops) (result :: results) final

/-- The reference map after an operation does not depend on the answer given. -/
theorem Answers.map_unique {map first second : PMap K V} {op : MapOp K V}
    {left right : MapResult K V} (leftAnswer : Answers map op left first)
    (rightAnswer : Answers map op right second) : first = second := by
  cases op with
  | tryInsert key value =>
      simp only [Answers] at leftAnswer rightAnswer
      cases found : map key <;> simp only [found] at leftAnswer rightAnswer <;>
        rw [leftAnswer.2, rightAnswer.2]
  | _ => exact leftAnswer.2.trans rightAnswer.2.symm

/-- Two answers to one operation differ only in the order of an enumeration. -/
inductive MapResult.SameUpToOrder : MapResult K V → MapResult K V → Prop where
  | refl {result} : SameUpToOrder result result
  | entries {left right} : left.Perm right → SameUpToOrder (.entries left) (.entries right)

theorem Answers.result_unique {map first second : PMap K V} {op : MapOp K V}
    {left right : MapResult K V} (leftAnswer : Answers map op left first)
    (rightAnswer : Answers map op right second) : left.SameUpToOrder right := by
  cases op with
  | drain =>
      obtain ⟨leftEntries, leftListed, rfl⟩ := leftAnswer.1
      obtain ⟨rightEntries, rightListed, rfl⟩ := rightAnswer.1
      exact .entries (leftListed.perm rightListed)
  | iter =>
      obtain ⟨leftEntries, leftListed, rfl⟩ := leftAnswer.1
      obtain ⟨rightEntries, rightListed, rfl⟩ := rightAnswer.1
      exact .entries (leftListed.perm rightListed)
  | len =>
      obtain ⟨leftEntries, leftListed, rfl⟩ := leftAnswer.1
      obtain ⟨rightEntries, rightListed, rfl⟩ := rightAnswer.1
      rw [(leftListed.perm rightListed).length_eq]
      exact .refl
  | tryInsert key value =>
      simp only [Answers] at leftAnswer rightAnswer
      cases found : map key <;> simp only [found] at leftAnswer rightAnswer <;>
        (rw [leftAnswer.1, rightAnswer.1]; exact .refl)
  | _ => rw [leftAnswer.1, rightAnswer.1]; exact .refl

end Optimap.Map
