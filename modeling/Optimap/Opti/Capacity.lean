import Optimap.Map.Growth
import Optimap.Opti.Refinement

/-!
# Capacity under a policy

What a run of a policy-driven map keeps, and what `reserve` does to the capacity: the
backend that stays active grows if anything, and one that is built for the request
has the slots that the request asks for, whatever was there before.
-/

set_option autoImplicit false
set_option linter.unusedSectionVars false

namespace Optimap.Opti

open Lib Map

variable {K V : Type} {engines : MapType → Engine K V}

/-! ## What runs keep -/

section Kept
variable {policy : Policy} {Inv : Inner engines → Prop}

/-- An invariant of the backends that a policy builds and of what operations make of
them. -/
structure Maintained (engines : MapType → Engine K V) (policy : Policy) (Inv : Inner engines → Prop) : Prop where
  built (wanted capacity : Nat) : Inv (buildInner (policy.backendFor wanted) capacity)
  dispatched {fuel : Nat} {inner next : Inner engines} {op : MapOp K V} {result : MapResult K V}
    (holds : Inv inner) (returned : inner.dispatch fuel op = some (result, next)) : Inv next

/-- The map is driven by the policy and its backend satisfies the invariant. -/
structure OptiMap.Driven (policy : Policy) (Inv : Inner engines → Prop) (map : OptiMap engines) : Prop where
  backend : map.backend = .auto policy
  inner : Inv map.inner

namespace Maintained

theorem reinsert (maintained : Maintained engines policy Inv) {fuel : Nat} {next : Inner engines}
    (entries : List (K × V)) :
    ∀ {inner : Inner engines}, Inv inner → inner.reinsert fuel entries = some next → Inv next := by
  induction entries with
  | nil =>
      intro inner holds returned
      cases returned
      exact holds
  | cons entry entries ih =>
      intro inner holds returned
      obtain ⟨⟨result, middle⟩, inserted, rest⟩ := Option.bind_eq_some_iff.mp returned
      exact ih (maintained.dispatched holds inserted) rest

theorem dispatch (maintained : Maintained engines policy Inv) {fuel : Nat} {map next : OptiMap engines}
    {op : MapOp K V} {result : MapResult K V} (driven : map.Driven policy Inv)
    (returned : map.dispatch fuel op = some (result, next)) : next.Driven policy Inv := by
  obtain ⟨⟨answer, inner⟩, ran, same⟩ := Option.bind_eq_some_iff.mp returned
  cases same
  exact ⟨driven.backend, maintained.dispatched driven.inner ran⟩

theorem transitionTo (maintained : Maintained engines policy Inv) {fuel wanted capacity : Nat}
    {map next : OptiMap engines} (driven : map.Driven policy Inv)
    (returned : map.transitionTo fuel (policy.backendFor wanted) capacity = some next) :
    next.Driven policy Inv := by
  obtain ⟨⟨drained, emptied⟩, _, returned⟩ := Option.bind_eq_some_iff.mp returned
  obtain ⟨inner, refilled, same⟩ := Option.bind_eq_some_iff.mp returned
  cases same
  exact ⟨driven.backend, maintained.reinsert _ (maintained.built wanted capacity) refilled⟩

theorem insert (maintained : Maintained engines policy Inv) {fuel : Nat} {map next : OptiMap engines} {key : K}
    {value : V} {result : MapResult K V} (driven : map.Driven policy Inv)
    (returned : map.insert fuel key value = some (result, next)) : next.Driven policy Inv := by
  unfold OptiMap.insert at returned
  rw [driven.backend] at returned
  obtain ⟨⟨answer, inserted⟩, ran, returned⟩ := Option.bind_eq_some_iff.mp returned
  obtain ⟨settled, moved, same⟩ := Option.bind_eq_some_iff.mp returned
  cases same
  have insertedDriven := maintained.dispatch driven ran
  split at moved
  · unfold OptiMap.maybeTransitionAfterGrow at moved
    rw [insertedDriven.backend] at moved
    simp only at moved
    split at moved
    · exact maintained.transitionTo insertedDriven moved
    · cases moved
      exact insertedDriven
  · cases moved
    exact insertedDriven

theorem extend (maintained : Maintained engines policy Inv) {fuel : Nat} {next : OptiMap engines}
    (entries : List (K × V)) :
    ∀ {map : OptiMap engines}, map.Driven policy Inv → map.extend fuel entries = some next →
      next.Driven policy Inv := by
  induction entries with
  | nil =>
      intro map driven returned
      cases returned
      exact driven
  | cons entry entries ih =>
      intro map driven returned
      obtain ⟨⟨result, middle⟩, inserted, rest⟩ := Option.bind_eq_some_iff.mp returned
      exact ih (maintained.insert driven inserted) rest

theorem reserve (maintained : Maintained engines policy Inv) {fuel additional : Nat} {map next : OptiMap engines}
    {result : MapResult K V} (driven : map.Driven policy Inv)
    (returned : map.reserve fuel additional = some (result, next)) : next.Driven policy Inv := by
  unfold OptiMap.reserve at returned
  rw [driven.backend] at returned
  simp only at returned
  split at returned
  · obtain ⟨moved, ran, same⟩ := Option.bind_eq_some_iff.mp returned
    cases same
    exact maintained.transitionTo driven ran
  · exact maintained.dispatch driven returned

theorem step (maintained : Maintained engines policy Inv) {fuel : Nat} {map next : OptiMap engines}
    {op : MapOp K V} {result : MapResult K V} (driven : map.Driven policy Inv)
    (returned : map.step fuel op = some (result, next)) : next.Driven policy Inv := by
  cases op with
  | insert key value => exact maintained.insert driven returned
  | extend entries =>
      obtain ⟨extended, ran, same⟩ := Option.bind_eq_some_iff.mp returned
      cases same
      exact maintained.extend entries driven ran
  | reserve additional => exact maintained.reserve driven returned
  | _ => exact maintained.dispatch driven returned

theorem run (maintained : Maintained engines policy Inv) {fuel : Nat} {final : OptiMap engines}
    (ops : List (MapOp K V)) :
    ∀ {map : OptiMap engines} {results : List (MapResult K V)}, map.Driven policy Inv →
      map.run fuel ops = some (results, final) → final.Driven policy Inv := by
  induction ops with
  | nil =>
      intro map results driven returned
      cases returned
      exact driven
  | cons op ops ih =>
      intro map results driven returned
      obtain ⟨⟨result, middle⟩, stepped, returned⟩ := Option.bind_eq_some_iff.mp returned
      obtain ⟨⟨rest, last⟩, ran, same⟩ := Option.bind_eq_some_iff.mp returned
      cases same
      exact ih (maintained.step driven stepped) ran

theorem start (maintained : Maintained engines policy Inv) (capacity : Nat) :
    (OptiMap.withPolicyAndCapacity policy capacity : OptiMap engines).Driven policy Inv :=
  ⟨rfl, maintained.built capacity capacity⟩

end Maintained

end Kept

/-! ## Capacities of backends -/

variable [DecidableEq K]

/-- The capacity of a backend: what a request builds, and what insertions that fit and
`reserve` make of it. `Room state n` says that `n` new entries fit without growth. -/
structure CapacityLaws (engine : Engine K V) (Refines : engine.State → PMap K V → Prop)
    (Room : engine.State → Nat → Prop) (slotsFor : Nat → Nat) : Prop where
  built (wanted : Nat) : engine.capacity (engine.withCapacity wanted) = slotsFor wanted
  covers (wanted : Nat) : wanted ≤ slotsFor wanted
  room {wanted count : Nat} (positive : 0 < wanted) (fits : count ≤ wanted) :
    Room (engine.withCapacity wanted) count
  insert {fuel left : Nat} {state next : engine.State} {contents : PMap K V} {key : K} {value : V}
    {result : MapResult K V} (refines : Refines state contents) (absent : contents key = none)
    (room : Room state (left + 1)) (returned : engine.step fuel state (.insert key value) = some (result, next)) :
    engine.capacity next = engine.capacity state ∧ Room next left
  counts {state : engine.State} {contents : PMap K V} {entries : List (K × V)} (refines : Refines state contents)
    (listed : PMap.Enumerates entries contents) : entries.length = engine.len state
  reserve {fuel additional : Nat} {state next : engine.State} {contents : PMap K V} {result : MapResult K V}
    (refines : Refines state contents)
    (returned : engine.step fuel state (.reserve additional) = some (result, next)) :
    engine.capacity state ≤ engine.capacity next ∧ engine.len state + additional ≤ engine.capacity next

section Reserve
variable {Refines : ∀ mapType, (engines mapType).State → PMap K V → Prop}
  {Room : ∀ mapType, (engines mapType).State → Nat → Prop} {slotsFor : MapType → Nat → Nat}
  {allowed : MapType → Prop}

/-- The active backend is one of the allowed ones and stands for some contents. -/
def Inner.Allowed (allowed : MapType → Prop) (Refines : ∀ mapType, (engines mapType).State → PMap K V → Prop)
    (inner : Inner engines) : Prop :=
  allowed inner.mapType ∧ ∃ contents, inner.StandsFor Refines contents

theorem maintained_allowed (laws : ∀ mapType, allowed mapType → EngineLaws (engines mapType) (Refines mapType))
    {policy : Policy} (within : ∀ capacity, allowed (policy.backendFor capacity)) :
    Maintained engines policy (Inner.Allowed allowed Refines) where
  built wanted capacity := ⟨within wanted, PMap.empty, (laws _ (within wanted)).withCapacity capacity⟩
  dispatched {_ inner _ _ _} holds returned := by
    obtain ⟨isAllowed, contents, refines⟩ := holds
    obtain ⟨⟨answer, state⟩, ran, same⟩ := Option.bind_eq_some_iff.mp returned
    cases same
    obtain ⟨contents', _, refines'⟩ := (laws _ isAllowed).answers refines ran
    exact ⟨isAllowed, contents', refines'⟩

/-- New entries that fit leave the capacity as it is, by induction on the entries. -/
theorem reinsert_capacity (laws : ∀ mapType, allowed mapType → EngineLaws (engines mapType) (Refines mapType))
    (capacities : ∀ mapType, allowed mapType →
      CapacityLaws (engines mapType) (Refines mapType) (Room mapType) (slotsFor mapType))
    {fuel : Nat} {next : Inner engines} (entries : List (K × V)) :
    ∀ {inner : Inner engines} {contents : PMap K V}, allowed inner.mapType → inner.StandsFor Refines contents →
      (entries.map Prod.fst).Nodup → (∀ entry ∈ entries, contents entry.1 = none) →
      Room inner.mapType inner.state entries.length → inner.reinsert fuel entries = some next →
      next.capacity = inner.capacity := by
  induction entries with
  | nil =>
      intro inner contents _ _ _ _ _ returned
      cases returned
      rfl
  | cons entry entries ih =>
      intro inner contents isAllowed refines distinct fresh room returned
      obtain ⟨⟨result, middle⟩, inserted, rest⟩ := Option.bind_eq_some_iff.mp returned
      obtain ⟨⟨answer, state⟩, ran, same⟩ := Option.bind_eq_some_iff.mp inserted
      cases same
      obtain ⟨contents', answered, refines'⟩ := (laws _ isAllowed).answers refines ran
      obtain ⟨_, rfl⟩ := answered
      obtain ⟨kept, room'⟩ := (capacities _ isAllowed).insert refines (fresh entry List.mem_cons_self) room ran
      obtain ⟨distinct', fresh'⟩ := GenericMap.insert_fresh distinct fresh
      have later := @ih ⟨inner.mapType, state⟩ _ isAllowed refines' distinct' fresh' room' rest
      exact later.trans kept

/-- A backend built for at least as many entries as it takes over has the capacity
that it was built with. -/
theorem transitionTo_capacity (laws : ∀ mapType, allowed mapType → EngineLaws (engines mapType) (Refines mapType))
    (capacities : ∀ mapType, allowed mapType →
      CapacityLaws (engines mapType) (Refines mapType) (Room mapType) (slotsFor mapType))
    {fuel wanted : Nat} {map next : OptiMap engines} {mapType : MapType} (isAllowed : allowed mapType)
    (holds : map.inner.Allowed allowed Refines) (fits : map.len ≤ wanted)
    (returned : map.transitionTo fuel mapType wanted = some next) : next.capacity = slotsFor mapType wanted := by
  obtain ⟨active, contents, refines⟩ := holds
  obtain ⟨⟨drained, emptied⟩, drains, returned⟩ := Option.bind_eq_some_iff.mp returned
  obtain ⟨inner, refilled, same⟩ := Option.bind_eq_some_iff.mp returned
  cases same
  obtain ⟨⟨answer, state⟩, ran, same⟩ := Option.bind_eq_some_iff.mp drains
  cases same
  obtain ⟨_, answered, _⟩ := (laws _ active).answers refines ran
  obtain ⟨⟨entries, listed, rfl⟩, _⟩ := answered
  have count : entries.length = map.len := (capacities _ active).counts refines listed
  have built := (capacities _ isAllowed).built wanted
  have empty : (buildInner mapType wanted : Inner engines).StandsFor Refines PMap.empty :=
    (laws _ isAllowed).withCapacity wanted
  cases wanted with
  | zero =>
      have none_left : entries = [] := List.length_eq_zero_iff.mp (by omega)
      subst none_left
      cases refilled
      exact built
  | succ wanted =>
      have room : Room mapType ((engines mapType).withCapacity (wanted + 1)) entries.length :=
        (capacities _ isAllowed).room (Nat.succ_pos _) (by omega)
      have kept := reinsert_capacity laws capacities entries isAllowed empty listed.nodup (fun _ _ => rfl) room
        refilled
      exact kept.trans built

/-- The call stays in the active backend, or the one that the policy wants has at
least as many slots for the request. -/
def OptiMap.ReserveKeeps (slotsFor : MapType → Nat → Nat) (policy : Policy) (map : OptiMap engines)
    (additional : Nat) : Prop :=
  policy.backendFor (map.len + additional) = map.mapType ∨
    map.capacity ≤ slotsFor (policy.backendFor (map.len + additional)) (map.len + additional)

theorem reserve_capacity_iff (laws : ∀ mapType, allowed mapType → EngineLaws (engines mapType) (Refines mapType))
    (capacities : ∀ mapType, allowed mapType →
      CapacityLaws (engines mapType) (Refines mapType) (Room mapType) (slotsFor mapType))
    {policy : Policy} (within : ∀ capacity, allowed (policy.backendFor capacity)) {fuel additional : Nat}
    {map next : OptiMap engines} {result : MapResult K V}
    (driven : map.Driven policy (Inner.Allowed allowed Refines))
    (returned : map.reserve fuel additional = some (result, next)) :
    max map.capacity (map.len + additional) ≤ next.capacity ↔ map.ReserveKeeps slotsFor policy additional := by
  unfold OptiMap.reserve at returned
  rw [driven.backend] at returned
  simp only at returned
  split at returned
  · rename_i moves
    obtain ⟨moved, ran, same⟩ := Option.bind_eq_some_iff.mp returned
    cases same
    have target := within (map.len + additional)
    have capacity := transitionTo_capacity laws capacities target driven.inner (Nat.le_add_right _ _) ran
    have covers := (capacities _ target).covers (map.len + additional)
    rw [capacity, max_le_iff]
    constructor
    · intro kept
      exact .inr kept.1
    · intro keeps
      cases keeps with
      | inl stays => exact absurd stays moves
      | inr enough => exact ⟨enough, covers⟩
  · rename_i stays
    obtain ⟨active, contents, refines⟩ := driven.inner
    obtain ⟨⟨answer, inner⟩, dispatched, same⟩ := Option.bind_eq_some_iff.mp returned
    cases same
    obtain ⟨⟨answer, state⟩, ran, same⟩ := Option.bind_eq_some_iff.mp dispatched
    cases same
    obtain ⟨grown, covered⟩ := (capacities _ active).reserve refines ran
    exact iff_of_true (max_le grown covered) (.inl (not_not.mp stays))

end Reserve

end Optimap.Opti
