import Optimap.FlatSet.Refinement

/-!
# Runs and set algebra

Every run of the set is answered as by a finite set, and the operations on two
sets compute the mathematical result whichever set is iterated.
-/

set_option autoImplicit false
set_option linter.unusedSectionVars false

namespace Optimap.FlatSet

open Lib Hash Map

namespace UnorderedFlatSet

variable {feature : ReducedHash} {T : Type} [DecidableEq T]
  {set other next : UnorderedFlatSet feature T} {elements otherElements : Finset T}

theorem step_refines {fuel : Nat} {op : SetOp T} {result : SetResult T} (refines : set.Refines elements)
    (returned : set.step fuel op = some (result, next)) :
    ∃ after, SetAnswers elements op result after ∧ next.Refines after := by
  cases op with
  | insert value =>
      obtain ⟨⟨fresh, inserted⟩, ran, same⟩ := Option.bind_eq_some_iff.mp returned
      cases same
      obtain ⟨rfl, after, _⟩ := insert_refines refines ran
      exact ⟨_, ⟨rfl, rfl⟩, after⟩
  | contains value =>
      obtain ⟨answer, ran, same⟩ := Option.bind_eq_some_iff.mp returned
      cases same
      obtain rfl := contains_refines refines ran
      exact ⟨elements, ⟨rfl, rfl⟩, refines⟩
  | get value =>
      obtain ⟨answer, ran, same⟩ := Option.bind_eq_some_iff.mp returned
      cases same
      obtain rfl := get_refines refines ran
      exact ⟨elements, ⟨rfl, rfl⟩, refines⟩
  | remove value =>
      obtain ⟨⟨found, removed⟩, ran, same⟩ := Option.bind_eq_some_iff.mp returned
      cases same
      obtain ⟨rfl, after, _⟩ := remove_refines refines ran
      exact ⟨_, ⟨rfl, rfl⟩, after⟩
  | take value =>
      obtain ⟨⟨found, removed⟩, ran, same⟩ := Option.bind_eq_some_iff.mp returned
      cases same
      obtain ⟨rfl, after, _⟩ := take_refines refines ran
      exact ⟨_, ⟨rfl, rfl⟩, after⟩
  | extend values =>
      obtain ⟨extended, ran, same⟩ := Option.bind_eq_some_iff.mp returned
      cases same
      exact ⟨_, ⟨rfl, rfl⟩, (extend_refines values refines ran).1⟩
  | retain f =>
      cases returned
      exact ⟨_, ⟨rfl, rfl⟩, (retain_refines refines f).1⟩
  | reserve additional =>
      obtain ⟨reserved, ran, same⟩ := Option.bind_eq_some_iff.mp returned
      cases same
      exact ⟨elements, ⟨rfl, rfl⟩, (reserve_refines refines ran).1⟩
  | shrinkToFit =>
      obtain ⟨shrunk, ran, same⟩ := Option.bind_eq_some_iff.mp returned
      cases same
      exact ⟨elements, ⟨rfl, rfl⟩, (shrinkToFit_refines refines ran).1⟩
  | clear =>
      cases returned
      exact ⟨∅, ⟨rfl, rfl⟩, clear_refines refines⟩
  | clone =>
      cases returned
      exact ⟨elements, ⟨rfl, rfl⟩, clone_refines refines⟩
  | drain =>
      cases returned
      exact ⟨∅, ⟨⟨_, intoIter_lists refines, rfl⟩, rfl⟩, withHasher_refines set.hashBuilder⟩
  | iter =>
      cases returned
      exact ⟨elements, ⟨⟨_, (iter_lists refines).1, rfl⟩, rfl⟩, refines⟩
  | len =>
      cases returned
      exact ⟨elements, ⟨congrArg SetResult.count (len_eq_card refines), rfl⟩, refines⟩

theorem run_refines {fuel : Nat} {final : UnorderedFlatSet feature T} (ops : List (SetOp T)) :
    ∀ {set : UnorderedFlatSet feature T} {elements : Finset T} {results : List (SetResult T)},
      set.Refines elements → set.run fuel ops = some (results, final) →
      ∃ after, SetAnswersAll elements ops results after ∧ final.Refines after := by
  induction ops with
  | nil =>
      intro set elements results refines returned
      cases returned
      exact ⟨elements, .nil, refines⟩
  | cons op ops ih =>
      intro set elements results refines returned
      obtain ⟨⟨result, middle⟩, stepped, returned⟩ := Option.bind_eq_some_iff.mp returned
      obtain ⟨⟨rest, last⟩, ran, same⟩ := Option.bind_eq_some_iff.mp returned
      cases same
      obtain ⟨between, answer, middleRefines⟩ := step_refines refines stepped
      obtain ⟨after, answers, finalRefines⟩ := ih middleRefines ran
      exact ⟨after, .cons answer answers, finalRefines⟩

/-! ## Two sets -/

theorem allContained_refines {fuel : Nat} {want answer : Bool} (refines : other.Refines otherElements)
    (items : List T) (returned : other.allContained fuel want items = some answer) :
    answer = true ↔ ∀ value ∈ items, decide (value ∈ otherElements) = want := by
  induction items generalizing answer with
  | nil =>
      cases returned
      simp
  | cons value items ih =>
      obtain ⟨found, looked, returned⟩ := Option.bind_eq_some_iff.mp returned
      obtain rfl := contains_refines refines looked
      rw [List.forall_mem_cons]
      split at returned
      · rename_i wanted
        rw [ih returned]
        exact ⟨fun rest => ⟨wanted, rest⟩, fun both => both.2⟩
      · rename_i unwanted
        cases returned
        simp [unwanted]

theorem insertWhere_refines {fuel : Nat} {want : Bool} (refines : other.Refines otherElements)
    (items : List T) :
    ∀ {result : UnorderedFlatSet feature T} {gathered : Finset T}, result.Refines gathered →
      other.insertWhere fuel want items result = some next →
      next.Refines (gathered ∪ items.toFinset.filter fun value => decide (value ∈ otherElements) = want) := by
  induction items with
  | nil =>
      intro result gathered resultRefines returned
      cases returned
      simpa using resultRefines
  | cons item items ih =>
      intro result gathered resultRefines returned
      obtain ⟨found, looked, returned⟩ := Option.bind_eq_some_iff.mp returned
      obtain rfl := contains_refines refines looked
      split at returned
      · rename_i wanted
        obtain ⟨⟨fresh, middle⟩, inserted, rest⟩ := Option.bind_eq_some_iff.mp returned
        obtain ⟨_, middleRefines, _⟩ := insert_refines resultRefines inserted
        have final := ih middleRefines rest
        rw [List.toFinset_cons, Finset.filter_insert, if_pos wanted, Finset.union_insert, ← Finset.insert_union]
        exact final
      · rename_i unwanted
        have final := ih resultRefines returned
        rw [List.toFinset_cons, Finset.filter_insert, if_neg unwanted]
        exact final

theorem iter_toFinset (refines : set.Refines elements) : set.iter.toFinset = elements := by
  ext value
  rw [List.mem_toFinset, (iter_lists refines).1.mem_iff]

theorem mem_iter (refines : set.Refines elements) (value : T) : value ∈ set.iter ↔ value ∈ elements :=
  (iter_lists refines).1.mem_iff value

theorem isDisjoint_refines {fuel : Nat} {answer : Bool} (refines : set.Refines elements)
    (otherRefines : other.Refines otherElements) (returned : set.isDisjoint fuel other = some answer) :
    answer = true ↔ Disjoint elements otherElements := by
  unfold isDisjoint at returned
  rw [Finset.disjoint_left]
  split at returned
  · rw [allContained_refines otherRefines _ returned]
    simp [mem_iter refines]
  · rw [allContained_refines refines _ returned]
    simp only [mem_iter otherRefines, decide_eq_false_iff_not]
    exact ⟨fun apart value member inOther => apart value inOther member,
      fun apart value inOther member => apart member inOther⟩

theorem isSubset_refines {fuel : Nat} {answer : Bool} (refines : set.Refines elements)
    (otherRefines : other.Refines otherElements) (returned : set.isSubset fuel other = some answer) :
    answer = true ↔ elements ⊆ otherElements := by
  unfold isSubset at returned
  split at returned
  · rename_i larger
    cases returned
    rw [len_eq_card refines, len_eq_card otherRefines] at larger
    refine ⟨fun impossible => (by cases impossible), fun subset => ?_⟩
    exact absurd (Finset.card_le_card subset) (Nat.not_le_of_lt larger)
  · rw [allContained_refines otherRefines _ returned]
    simp only [mem_iter refines, decide_eq_true_eq]
    rfl

theorem eq_refines {fuel : Nat} {answer : Bool} (refines : set.Refines elements)
    (otherRefines : other.Refines otherElements) (returned : set.eq fuel other = some answer) :
    answer = true ↔ elements = otherElements := by
  unfold eq at returned
  split at returned
  · rename_i lengths
    cases returned
    rw [len_eq_card refines, len_eq_card otherRefines] at lengths
    refine ⟨fun impossible => (by cases impossible), fun same => absurd (congrArg Finset.card same) lengths⟩
  · rename_i lengths
    rw [not_not, len_eq_card refines, len_eq_card otherRefines] at lengths
    rw [allContained_refines otherRefines _ returned]
    simp only [mem_iter refines, decide_eq_true_eq]
    exact ⟨fun subset => Finset.eq_of_subset_of_card_le subset lengths.symm.le,
      fun same value member => same ▸ member⟩

theorem union_refines {fuel : Nat} (refines : set.Refines elements) (otherRefines : other.Refines otherElements)
    (returned : set.union fuel other = some next) : next.Refines (elements ∪ otherElements) := by
  have extended := (extend_refines other.iter (clone_refines refines) returned).1
  rwa [iter_toFinset otherRefines] at extended

theorem intersection_refines {fuel : Nat} {defaultHash : T → UInt64} (refines : set.Refines elements)
    (otherRefines : other.Refines otherElements)
    (returned : set.intersection fuel defaultHash other = some next) :
    next.Refines (elements ∩ otherElements) := by
  unfold intersection at returned
  simp only at returned
  split at returned
  · have gathered := insertWhere_refines otherRefines _ (withHasher_refines defaultHash) returned
    simp only [iter_toFinset refines, decide_eq_true_eq, Finset.filter_mem_eq_inter, Finset.empty_union]
      at gathered
    exact gathered
  · have gathered := insertWhere_refines refines _ (withHasher_refines defaultHash) returned
    simp only [iter_toFinset otherRefines, decide_eq_true_eq, Finset.filter_mem_eq_inter, Finset.empty_union]
      at gathered
    rwa [Finset.inter_comm]

theorem difference_refines {fuel : Nat} {defaultHash : T → UInt64} (refines : set.Refines elements)
    (otherRefines : other.Refines otherElements)
    (returned : set.difference fuel defaultHash other = some next) :
    next.Refines (elements \ otherElements) := by
  have gathered := insertWhere_refines otherRefines _ (withHasher_refines defaultHash) returned
  simp only [iter_toFinset refines, decide_eq_false_iff_not, Finset.empty_union] at gathered
  rwa [Finset.sdiff_eq_filter]

theorem symmetricDifference_refines {fuel : Nat} {defaultHash : T → UInt64} (refines : set.Refines elements)
    (otherRefines : other.Refines otherElements)
    (returned : set.symmetricDifference fuel defaultHash other = some next) :
    next.Refines (symmDiff elements otherElements) := by
  obtain ⟨middle, first, second⟩ := Option.bind_eq_some_iff.mp returned
  have left := insertWhere_refines otherRefines _ (withHasher_refines defaultHash) first
  have right := insertWhere_refines refines _ left second
  simp only [iter_toFinset refines, iter_toFinset otherRefines, decide_eq_false_iff_not, Finset.empty_union]
    at right
  rw [symmDiff, Finset.sup_eq_union, Finset.sdiff_eq_filter, Finset.sdiff_eq_filter]
  exact right

/-! ## What a run guarantees -/

/-- How a set stands for a finite set: each element is listed once, by either
iteration, and the length is exact. -/
structure StandsFor (set : UnorderedFlatSet feature T) (elements : Finset T) : Prop where
  iter : Lists set.iter elements
  intoIter : Lists (intoIter set.table) elements
  len : set.len = elements.card

theorem Refines.standsFor (refines : set.Refines elements) : set.StandsFor elements :=
  ⟨(iter_lists refines).1, intoIter_lists refines, len_eq_card refines⟩

/-- The operations on two sets compute the mathematical result. -/
structure AlgebraExact (fuel : Nat) (set other : UnorderedFlatSet feature T)
    (elements otherElements : Finset T) : Prop where
  isDisjoint : ∀ answer, set.isDisjoint fuel other = some answer →
    (answer = true ↔ Disjoint elements otherElements)
  isSubset : ∀ answer, set.isSubset fuel other = some answer → (answer = true ↔ elements ⊆ otherElements)
  isSuperset : ∀ answer, set.isSuperset fuel other = some answer → (answer = true ↔ otherElements ⊆ elements)
  eq : ∀ answer, set.eq fuel other = some answer → (answer = true ↔ elements = otherElements)
  union : ∀ result, set.union fuel other = some result → result.StandsFor (elements ∪ otherElements)
  intersection : ∀ defaultHash result, set.intersection fuel defaultHash other = some result →
    result.StandsFor (elements ∩ otherElements)
  difference : ∀ defaultHash result, set.difference fuel defaultHash other = some result →
    result.StandsFor (elements \ otherElements)
  symmetricDifference : ∀ defaultHash result, set.symmetricDifference fuel defaultHash other = some result →
    result.StandsFor (symmDiff elements otherElements)

theorem algebraExact {fuel : Nat} (refines : set.Refines elements) (otherRefines : other.Refines otherElements) :
    AlgebraExact fuel set other elements otherElements where
  isDisjoint _ returned := isDisjoint_refines refines otherRefines returned
  isSubset _ returned := isSubset_refines refines otherRefines returned
  isSuperset _ returned := isSubset_refines otherRefines refines returned
  eq _ returned := eq_refines refines otherRefines returned
  union _ returned := (union_refines refines otherRefines returned).standsFor
  intersection _ _ returned := (intersection_refines refines otherRefines returned).standsFor
  difference _ _ returned := (difference_refines refines otherRefines returned).standsFor
  symmetricDifference _ _ returned := (symmetricDifference_refines refines otherRefines returned).standsFor

/-- Two runs, of one set each, are answered as by finite sets, and the algebra on
the sets they end in is that of the finite sets. -/
theorem flat_set_refines_finset (hash otherHash : T → UInt64) (capacity otherCapacity fuel otherFuel : Nat)
    {ops otherOps : List (SetOp T)} {results otherResults : List (SetResult T)}
    (returned : (withCapacityAndHasher capacity hash : UnorderedFlatSet feature T).run fuel ops =
      some (results, set))
    (otherReturned : (withCapacityAndHasher otherCapacity otherHash : UnorderedFlatSet feature T).run otherFuel
      otherOps = some (otherResults, other)) :
    ∃ elements otherElements, SetAnswersAll ∅ ops results elements ∧ set.StandsFor elements ∧
      SetAnswersAll ∅ otherOps otherResults otherElements ∧ other.StandsFor otherElements ∧
      ∀ fuel, AlgebraExact fuel set other elements otherElements := by
  obtain ⟨elements, answers, refines⟩ :=
    run_refines ops (withCapacityAndHasher_refines capacity hash) returned
  obtain ⟨otherElements, otherAnswers, otherRefines⟩ :=
    run_refines otherOps (withCapacityAndHasher_refines otherCapacity otherHash) otherReturned
  exact ⟨elements, otherElements, answers, refines.standsFor, otherAnswers, otherRefines.standsFor,
    fun _ => algebraExact refines otherRefines⟩

/-- Sixteen keys of one home group overflow it; a second set shares two of them. -/
theorem flat_set_overflowing_runs :
    ∃ results otherResults, ∃ set other : UnorderedFlatSet .asm UInt64,
      (withCapacityAndHasher 20 id : UnorderedFlatSet .asm UInt64).run 4
        [.extend ((List.range 16).map UInt64.ofNat), .take 3, .len] = some (results, set) ∧
      (withCapacityAndHasher 0 id : UnorderedFlatSet .asm UInt64).run 4 [.extend [4, 5, 40]] =
        some (otherResults, other) ∧
      ∃ elements otherElements, AlgebraExact 4 set other elements otherElements := by
  have returns : ((withCapacityAndHasher 20 id : UnorderedFlatSet .asm UInt64).run 4
      [.extend ((List.range 16).map UInt64.ofNat), .take 3, .len]).isSome = true := by decide +kernel
  have otherReturns : ((withCapacityAndHasher 0 id : UnorderedFlatSet .asm UInt64).run 4
      [.extend [4, 5, 40]]).isSome = true := by decide +kernel
  obtain ⟨⟨results, set⟩, returned⟩ := Option.isSome_iff_exists.mp returns
  obtain ⟨⟨otherResults, other⟩, otherReturned⟩ := Option.isSome_iff_exists.mp otherReturns
  obtain ⟨elements, otherElements, _, _, _, _, algebra⟩ :=
    flat_set_refines_finset id id 20 0 4 4 returned otherReturned
  exact ⟨results, otherResults, set, other, returned, otherReturned, elements, otherElements, algebra 4⟩

end UnorderedFlatSet

end Optimap.FlatSet
