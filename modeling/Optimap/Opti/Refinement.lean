import Optimap.Lib.Fuel
import Optimap.Opti.OptiMap

/-!
# The adaptive map refines a finite map

Whatever the policy and whenever a transition fires: if every backend answers as
a finite map does, so does `OptiMap`.
-/

set_option autoImplicit false

namespace Optimap.Opti

open Lib Map

/-- A backend refines a finite map. -/
structure EngineLaws {K V : Type} [DecidableEq K] (engine : Engine K V)
    (Refines : engine.State → PMap K V → Prop) : Prop where
  withCapacity (capacity : Nat) : Refines (engine.withCapacity capacity) PMap.empty
  answers {fuel state map op result next} (refines : Refines state map) :
    engine.step fuel state op = some (result, next) →
    ∃ map', Answers map op result map' ∧ Refines next map'

/-- The backend's operations return. -/
def EngineTotal {K V : Type} (engine : Engine K V) (Refines : engine.State → PMap K V → Prop) : Prop :=
  ∀ {state map}, Refines state map → ∀ op, Returns fun fuel => engine.step fuel state op

variable {K V : Type} [DecidableEq K] {engines : MapType → Engine K V}
  {Refines : ∀ mapType, (engines mapType).State → PMap K V → Prop}
  {contents : PMap K V}

/-- The active backend stands for the finite map. -/
def Inner.StandsFor (Refines : ∀ mapType, (engines mapType).State → PMap K V → Prop)
    (inner : Inner engines) (contents : PMap K V) : Prop :=
  Refines inner.mapType inner.state contents

def OptiMap.StandsFor (Refines : ∀ mapType, (engines mapType).State → PMap K V → Prop)
    (map : OptiMap engines) (contents : PMap K V) : Prop :=
  map.inner.StandsFor Refines contents

section Partial
variable (laws : ∀ mapType, EngineLaws (engines mapType) (Refines mapType))
include laws

theorem buildInner_refines (mapType : MapType) (capacity : Nat) :
    (buildInner mapType capacity : Inner engines).StandsFor Refines PMap.empty :=
  (laws mapType).withCapacity capacity

theorem Inner.dispatch_refines {fuel : Nat} {inner next : Inner engines} {op : MapOp K V}
    {result : MapResult K V} (refines : inner.StandsFor Refines contents)
    (returned : inner.dispatch fuel op = some (result, next)) :
    ∃ contents', Answers contents op result contents' ∧ next.StandsFor Refines contents' := by
  obtain ⟨⟨answer, state⟩, ran, same⟩ := Option.bind_eq_some_iff.mp returned
  cases same
  exact (laws inner.mapType).answers refines ran

/-- Re-insertion into a fresh backend, by induction on the entries left. -/
theorem Inner.reinsert_refines {fuel : Nat} {next : Inner engines} (entries : List (K × V)) :
    ∀ {inner : Inner engines} {contents : PMap K V}, inner.StandsFor Refines contents →
      inner.reinsert fuel entries = some next →
      next.StandsFor Refines (contents.insertAll entries) := by
  induction entries with
  | nil =>
      intro inner contents refines returned
      cases returned
      exact refines
  | cons entry entries ih =>
      intro inner contents refines returned
      obtain ⟨⟨result, middle⟩, inserted, rest⟩ := Option.bind_eq_some_iff.mp returned
      obtain ⟨contents', answer, middleRefines⟩ := Inner.dispatch_refines laws refines inserted
      obtain ⟨_, rfl⟩ := answer
      exact ih middleRefines rest

omit laws [DecidableEq K] in
/-- Re-insertion stays in the backend it was started in. -/
theorem Inner.reinsert_mapType {fuel : Nat} {next : Inner engines} (entries : List (K × V)) :
    ∀ {inner : Inner engines}, inner.reinsert fuel entries = some next →
      next.mapType = inner.mapType := by
  induction entries with
  | nil =>
      intro inner returned
      cases returned
      rfl
  | cons entry entries ih =>
      intro inner returned
      obtain ⟨⟨result, middle⟩, inserted, rest⟩ := Option.bind_eq_some_iff.mp returned
      obtain ⟨⟨answer, state⟩, _, same⟩ := Option.bind_eq_some_iff.mp inserted
      cases same
      exact @ih ⟨inner.mapType, state⟩ rest

namespace OptiMap

theorem dispatch_refines {fuel : Nat} {map next : OptiMap engines} {op : MapOp K V}
    {result : MapResult K V} (refines : map.StandsFor Refines contents)
    (returned : map.dispatch fuel op = some (result, next)) :
    ∃ contents', Answers contents op result contents' ∧ next.StandsFor Refines contents' := by
  obtain ⟨⟨answer, inner⟩, ran, same⟩ := Option.bind_eq_some_iff.mp returned
  cases same
  exact Inner.dispatch_refines laws refines ran

/-- A transition neither loses nor duplicates an entry. -/
theorem transitionTo_refines {fuel capacity : Nat} {map next : OptiMap engines} {mapType : MapType}
    (refines : map.StandsFor Refines contents)
    (returned : map.transitionTo fuel mapType capacity = some next) :
    next.StandsFor Refines contents := by
  obtain ⟨⟨drained, emptied⟩, ran, returned⟩ := Option.bind_eq_some_iff.mp returned
  obtain ⟨inner, refilled, same⟩ := Option.bind_eq_some_iff.mp returned
  cases same
  obtain ⟨_, answer, _⟩ := Inner.dispatch_refines laws refines ran
  obtain ⟨⟨entries, listed, rfl⟩, _⟩ := answer
  have filled := Inner.reinsert_refines laws entries (buildInner_refines laws mapType capacity) refilled
  rw [listed.insertAll_empty] at filled
  exact filled

theorem maybeTransitionAfterGrow_refines {fuel newCap : Nat} {map next : OptiMap engines}
    (refines : map.StandsFor Refines contents)
    (returned : map.maybeTransitionAfterGrow fuel newCap = some next) :
    next.StandsFor Refines contents := by
  unfold maybeTransitionAfterGrow at returned
  split at returned
  · split at returned
    · exact transitionTo_refines laws refines returned
    · cases returned
      exact refines
  · cases returned
    exact refines

theorem insert_refines {fuel : Nat} {map next : OptiMap engines} {key : K} {value : V}
    {result : MapResult K V} (refines : map.StandsFor Refines contents)
    (returned : map.insert fuel key value = some (result, next)) :
    ∃ contents', Answers contents (.insert key value) result contents' ∧
      next.StandsFor Refines contents' := by
  unfold insert at returned
  split at returned
  · exact dispatch_refines laws refines returned
  · obtain ⟨⟨answer, inserted⟩, ran, returned⟩ := Option.bind_eq_some_iff.mp returned
    obtain ⟨settled, moved, same⟩ := Option.bind_eq_some_iff.mp returned
    cases same
    obtain ⟨contents', answered, insertedRefines⟩ := dispatch_refines laws refines ran
    refine ⟨contents', answered, ?_⟩
    split at moved
    · exact maybeTransitionAfterGrow_refines laws insertedRefines moved
    · cases moved
      exact insertedRefines

theorem extend_refines {fuel : Nat} {next : OptiMap engines} (entries : List (K × V)) :
    ∀ {map : OptiMap engines} {contents : PMap K V}, map.StandsFor Refines contents →
      map.extend fuel entries = some next →
      next.StandsFor Refines (contents.insertAll entries) := by
  induction entries with
  | nil =>
      intro map contents refines returned
      cases returned
      exact refines
  | cons entry entries ih =>
      intro map contents refines returned
      obtain ⟨⟨result, middle⟩, inserted, rest⟩ := Option.bind_eq_some_iff.mp returned
      obtain ⟨contents', answer, middleRefines⟩ := insert_refines laws refines inserted
      obtain ⟨_, rfl⟩ := answer
      exact ih middleRefines rest

theorem reserve_refines {fuel additional : Nat} {map next : OptiMap engines} {result : MapResult K V}
    (refines : map.StandsFor Refines contents)
    (returned : map.reserve fuel additional = some (result, next)) :
    ∃ contents', Answers contents (.reserve additional) result contents' ∧
      next.StandsFor Refines contents' := by
  unfold reserve at returned
  simp only at returned
  split at returned
  · split at returned
    · obtain ⟨moved, ran, same⟩ := Option.bind_eq_some_iff.mp returned
      cases same
      exact ⟨contents, ⟨rfl, rfl⟩, transitionTo_refines laws refines ran⟩
    · exact dispatch_refines laws refines returned
  · exact dispatch_refines laws refines returned

/-- One operation, with or without a transition, is answered as by a finite map. -/
theorem step_refines {fuel : Nat} {map next : OptiMap engines} {op : MapOp K V}
    {result : MapResult K V} (refines : map.StandsFor Refines contents)
    (returned : map.step fuel op = some (result, next)) :
    ∃ contents', Answers contents op result contents' ∧ next.StandsFor Refines contents' := by
  cases op with
  | insert key value => exact insert_refines laws refines returned
  | extend entries =>
      obtain ⟨extended, ran, same⟩ := Option.bind_eq_some_iff.mp returned
      cases same
      exact ⟨_, ⟨rfl, rfl⟩, extend_refines laws entries refines ran⟩
  | reserve additional => exact reserve_refines laws refines returned
  | _ => exact dispatch_refines laws refines returned

theorem run_refines {fuel : Nat} {final : OptiMap engines} (ops : List (MapOp K V)) :
    ∀ {map : OptiMap engines} {contents : PMap K V} {results : List (MapResult K V)},
      map.StandsFor Refines contents → map.run fuel ops = some (results, final) →
      ∃ contents', AnswersAll Answers contents ops results contents' ∧
        final.StandsFor Refines contents' := by
  induction ops with
  | nil =>
      intro map contents results refines returned
      cases returned
      exact ⟨contents, .nil, refines⟩
  | cons op ops ih =>
      intro map contents results refines returned
      obtain ⟨⟨result, middle⟩, stepped, returned⟩ := Option.bind_eq_some_iff.mp returned
      obtain ⟨⟨rest, last⟩, ran, same⟩ := Option.bind_eq_some_iff.mp returned
      cases same
      obtain ⟨middleContents, answer, middleRefines⟩ := step_refines laws refines stepped
      obtain ⟨finalContents, answers, finalRefines⟩ := ih middleRefines ran
      exact ⟨finalContents, .cons answer answers, finalRefines⟩

/-! ## Termination -/

section Total
variable (total : ∀ mapType, EngineTotal (engines mapType) (Refines mapType))
include total

omit laws [DecidableEq K] in
theorem dispatch_total {map : OptiMap engines} (refines : map.StandsFor Refines contents)
    (op : MapOp K V) : Returns fun fuel => map.dispatch fuel op := by
  refine Returns.bind ?_ fun _ _ _ => .pure _
  exact Returns.bind (total map.inner.mapType refines op) fun _ _ _ => .pure _

theorem reinsert_total (entries : List (K × V)) :
    ∀ {inner : Inner engines} {contents : PMap K V}, inner.StandsFor Refines contents →
      Returns fun fuel => inner.reinsert fuel entries := by
  induction entries with
  | nil => intro inner contents _; exact .pure inner
  | cons entry entries ih =>
      intro inner contents refines
      have inserts : Returns fun fuel => inner.dispatch fuel (.insert entry.1 entry.2) :=
        Returns.bind (total inner.mapType refines _) fun _ _ _ => .pure _
      refine Returns.bind inserts fun ⟨_, middle⟩ _ inserted => ?_
      obtain ⟨_, _, middleRefines⟩ := Inner.dispatch_refines laws refines inserted
      exact ih middleRefines

theorem transitionTo_total {map : OptiMap engines} (refines : map.StandsFor Refines contents)
    (mapType : MapType) (capacity : Nat) :
    Returns fun fuel => map.transitionTo fuel mapType capacity := by
  have drains : Returns fun fuel => map.inner.dispatch fuel .drain :=
    Returns.bind (total map.inner.mapType refines _) fun _ _ _ => .pure _
  refine Returns.bind drains fun _ _ _ => ?_
  exact Returns.bind (reinsert_total laws total _ (buildInner_refines laws mapType capacity))
    fun _ _ _ => .pure _

theorem insert_total {map : OptiMap engines} (refines : map.StandsFor Refines contents) (key : K)
    (value : V) : Returns fun fuel => map.insert fuel key value := by
  unfold insert
  split
  · exact dispatch_total total refines _
  · refine Returns.bind (dispatch_total total refines _) fun ⟨result, inserted⟩ _ ran => ?_
    obtain ⟨_, _, insertedRefines⟩ := dispatch_refines laws refines ran
    refine Returns.bind (.ite (fun _ => ?_) fun _ => .pure inserted) fun _ _ _ => .pure _
    unfold maybeTransitionAfterGrow
    split
    · exact .ite (fun _ => transitionTo_total laws total insertedRefines _ _) fun _ => .pure _
    · exact .pure _

theorem extend_total (entries : List (K × V)) :
    ∀ {map : OptiMap engines} {contents : PMap K V}, map.StandsFor Refines contents →
      Returns fun fuel => map.extend fuel entries := by
  induction entries with
  | nil => intro map contents _; exact .pure map
  | cons entry entries ih =>
      intro map contents refines
      refine Returns.bind (insert_total laws total refines entry.1 entry.2)
        fun ⟨_, middle⟩ _ inserted => ?_
      obtain ⟨_, _, middleRefines⟩ := insert_refines laws refines inserted
      exact ih middleRefines

theorem reserve_total {map : OptiMap engines} (refines : map.StandsFor Refines contents)
    (additional : Nat) : Returns fun fuel => map.reserve fuel additional := by
  unfold reserve
  simp only
  split
  · refine .ite (fun _ => ?_) fun _ => dispatch_total total refines _
    exact Returns.bind (transitionTo_total laws total refines _ _) fun _ _ _ => .pure _
  · exact dispatch_total total refines _

theorem step_total {map : OptiMap engines} (refines : map.StandsFor Refines contents)
    (op : MapOp K V) : Returns fun fuel => map.step fuel op := by
  cases op with
  | insert key value => exact insert_total laws total refines key value
  | extend entries => exact Returns.bind (extend_total laws total entries refines) fun _ _ _ => .pure _
  | reserve additional => exact reserve_total laws total refines additional
  | _ => exact dispatch_total total refines _

theorem run_total (ops : List (MapOp K V)) :
    ∀ {map : OptiMap engines} {contents : PMap K V}, map.StandsFor Refines contents →
      Returns fun fuel => map.run fuel ops := by
  induction ops with
  | nil => intro map contents _; exact .pure _
  | cons op ops ih =>
      intro map contents refines
      refine Returns.bind (step_total laws total refines op) fun ⟨_, middle⟩ _ stepped => ?_
      obtain ⟨_, _, middleRefines⟩ := step_refines laws refines stepped
      exact Returns.bind (ih middleRefines) fun _ _ _ => .pure _

end Total

end OptiMap

end Partial

/-! ## Independence of the policy -/

/-- How a map was constructed: driven by a policy, or pinned to a backend. -/
inductive Construction where
  | auto (policy : Policy) (capacity : Nat)
  | pinned (mapType : MapType) (capacity : Nat)

def Construction.build : Construction → OptiMap engines
  | .auto policy capacity => OptiMap.withPolicyAndCapacity policy capacity
  | .pinned mapType capacity => OptiMap.pinned mapType capacity

theorem Construction.build_refines (laws : ∀ mapType, EngineLaws (engines mapType) (Refines mapType))
    (construction : Construction) :
    (construction.build : OptiMap engines).StandsFor Refines PMap.empty := by
  cases construction with
  | auto policy capacity => exact buildInner_refines laws _ _
  | pinned mapType capacity => exact buildInner_refines laws _ _

/-- Two runs of answers to the same operations end in the same map and differ
only in the order of enumerations. -/
theorem answersAll_unique {ops : List (MapOp K V)} :
    ∀ {contents : PMap K V} {left right : List (MapResult K V)} {leftEnd rightEnd : PMap K V},
      AnswersAll Answers contents ops left leftEnd → AnswersAll Answers contents ops right rightEnd →
      leftEnd = rightEnd ∧ List.Forall₂ MapResult.SameUpToOrder left right := by
  induction ops with
  | nil =>
      intro contents left right leftEnd rightEnd leftAnswers rightAnswers
      cases leftAnswers
      cases rightAnswers
      exact ⟨rfl, .nil⟩
  | cons op ops ih =>
      intro contents left right leftEnd rightEnd leftAnswers rightAnswers
      cases leftAnswers with
      | cons leftHead leftRest =>
          cases rightAnswers with
          | cons rightHead rightRest =>
              cases leftHead.map_unique rightHead
              obtain ⟨same, results⟩ := ih leftRest rightRest
              exact ⟨same, .cons (leftHead.result_unique rightHead) results⟩

/-- Over lawful backends, with any policy or pinned, every returning run answers
as a finite map, a further transition to any backend keeps the contents, runs
return when the backends do, and the runs of two maps agree. -/
theorem optimap_run_independent_of_policy
    (laws : ∀ mapType, EngineLaws (engines mapType) (Refines mapType))
    (construction : Construction) (ops : List (MapOp K V)) :
    ((∀ mapType, EngineTotal (engines mapType) (Refines mapType)) →
      Returns fun fuel => (construction.build : OptiMap engines).run fuel ops) ∧
    ∀ (fuel : Nat) (results : List (MapResult K V)) (final : OptiMap engines),
      construction.build.run fuel ops = some (results, final) →
      ∃ contents, AnswersAll Answers PMap.empty ops results contents ∧
        final.StandsFor Refines contents ∧
        (∀ (mapType : MapType) (capacity moreFuel : Nat) (moved : OptiMap engines),
          final.transitionTo moreFuel mapType capacity = some moved →
          moved.mapType = mapType ∧ moved.StandsFor Refines contents) ∧
        ∀ (other : Construction) (otherFuel : Nat) (otherResults : List (MapResult K V))
          (otherFinal : OptiMap engines),
          other.build.run otherFuel ops = some (otherResults, otherFinal) →
          List.Forall₂ MapResult.SameUpToOrder results otherResults ∧
            otherFinal.StandsFor Refines contents := by
  have start := construction.build_refines laws
  refine ⟨fun total => OptiMap.run_total laws total ops start, ?_⟩
  intro fuel results final returned
  obtain ⟨contents, answers, refines⟩ := OptiMap.run_refines laws ops start returned
  refine ⟨contents, answers, refines, ?_, ?_⟩
  · intro mapType capacity moreFuel moved ran
    refine ⟨?_, OptiMap.transitionTo_refines laws refines ran⟩
    obtain ⟨⟨drained, _⟩, _, ran⟩ := Option.bind_eq_some_iff.mp ran
    obtain ⟨inner, refilled, same⟩ := Option.bind_eq_some_iff.mp ran
    cases same
    exact Inner.reinsert_mapType _ refilled
  · intro other otherFuel otherResults otherFinal otherReturned
    obtain ⟨otherContents, otherAnswers, otherRefines⟩ :=
      OptiMap.run_refines laws ops (other.build_refines laws) otherReturned
    obtain ⟨rfl, agree⟩ := answersAll_unique answers otherAnswers
    exact ⟨agree, otherRefines⟩

end Optimap.Opti
