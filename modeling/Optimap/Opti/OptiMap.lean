import Optimap.Map.Reference
import Optimap.Opti.Policy

/-!
# The adaptive map

`OptiMap` keeps one of seven backends behind an enum and hands every operation
to it. With a policy it may move all entries to another backend when an `insert`
grew the table or when capacity is reserved.
-/

set_option autoImplicit false

namespace Optimap.Opti

open Lib Map

/-- A backend as `OptiMap` sees it. Operations may probe, so they take the number
of rounds their loops may run. -/
structure Engine (K V : Type) where
  State : Type
  withCapacity : Nat → State
  len : State → Nat
  capacity : State → Nat
  step (fuel : Nat) : State → MapOp K V → Option (MapResult K V × State)

variable {K V : Type} {engines : MapType → Engine K V}

/-- The active backend. -/
structure Inner (engines : MapType → Engine K V) where
  mapType : MapType
  state : (engines mapType).State

/-- Backend selection strategy. -/
inductive Backend where
  | auto (policy : Policy)
  | pinned

structure OptiMap (engines : MapType → Engine K V) where
  inner : Inner engines
  backend : Backend

def buildInner (mapType : MapType) (capacity : Nat) : Inner engines :=
  ⟨mapType, (engines mapType).withCapacity capacity⟩

namespace Inner

def len (inner : Inner engines) : Nat := (engines inner.mapType).len inner.state

def capacity (inner : Inner engines) : Nat := (engines inner.mapType).capacity inner.state

/-- Hand an operation to whichever backend is active. -/
def dispatch (fuel : Nat) (inner : Inner engines) (op : MapOp K V) :
    Option (MapResult K V × Inner engines) := do
  let (result, state) ← (engines inner.mapType).step fuel inner.state op
  return (result, ⟨inner.mapType, state⟩)

/-- `for (k, v) in entries { dispatch_mut!(self, insert, k, v); }` -/
def reinsert (fuel : Nat) : List (K × V) → Inner engines → Option (Inner engines)
  | [], inner => some inner
  | (key, value) :: rest, inner => do
      let (_, inner) ← inner.dispatch fuel (.insert key value)
      reinsert fuel rest inner

end Inner

/-- `result.is_none()` of an insertion. -/
def insertedNew : MapResult K V → Bool
  | .value none => true
  | _ => false

/-- The entries an enumeration yielded. -/
def yielded : MapResult K V → List (K × V)
  | .entries entries => entries
  | _ => []

namespace OptiMap

def withPolicyAndCapacity (policy : Policy) (capacity : Nat) : OptiMap engines :=
  ⟨buildInner (policy.backendFor capacity) capacity, .auto policy⟩

def pinned (mapType : MapType) (capacity : Nat) : OptiMap engines :=
  ⟨buildInner mapType capacity, .pinned⟩

def mapType (map : OptiMap engines) : MapType := map.inner.mapType

def len (map : OptiMap engines) : Nat := map.inner.len

def capacity (map : OptiMap engines) : Nat := map.inner.capacity

def dispatch (fuel : Nat) (map : OptiMap engines) (op : MapOp K V) :
    Option (MapResult K V × OptiMap engines) := do
  let (result, inner) ← map.inner.dispatch fuel op
  return (result, { map with inner })

/-- Drain all entries from the current backend and re-insert into a new one. -/
def transitionTo (fuel : Nat) (map : OptiMap engines) (mapType : MapType) (capacity : Nat) :
    Option (OptiMap engines) := do
  let (drained, _) ← map.inner.dispatch fuel .drain
  let inner ← (buildInner mapType capacity).reinsert fuel (yielded drained)
  return { map with inner }

def maybeTransitionAfterGrow (fuel : Nat) (map : OptiMap engines) (newCap : Nat) :
    Option (OptiMap engines) :=
  match map.backend with
  | .auto policy =>
      if policy.backendFor newCap ≠ map.mapType then
        map.transitionTo fuel (policy.backendFor newCap) newCap
      else some map
  | .pinned => some map

/-- The policy is consulted when a new key made the capacity change. -/
def insertAuto (fuel : Nat) (map : OptiMap engines) (key : K) (value : V) :
    Option (MapResult K V × OptiMap engines) := do
  let (result, inserted) ← map.dispatch fuel (.insert key value)
  let settled ← (if insertedNew result ∧ inserted.capacity ≠ map.capacity then
      inserted.maybeTransitionAfterGrow fuel inserted.capacity
    else some inserted)
  return (result, settled)

def insert (fuel : Nat) (map : OptiMap engines) (key : K) (value : V) :
    Option (MapResult K V × OptiMap engines) :=
  match map.backend with
  | .pinned => map.dispatch fuel (.insert key value)
  | .auto _ => map.insertAuto fuel key value

def extend (fuel : Nat) (map : OptiMap engines) : List (K × V) → Option (OptiMap engines)
  | [] => some map
  | (key, value) :: rest => do
      let (_, map) ← map.insert fuel key value
      map.extend fuel rest

/-- The policy is asked for the requested capacity, before anything is allocated. -/
def reserve (fuel : Nat) (map : OptiMap engines) (additional : Nat) :
    Option (MapResult K V × OptiMap engines) :=
  let newCap := map.len + additional
  match map.backend with
  | .auto policy =>
      if policy.backendFor newCap ≠ map.mapType then do
        let moved ← map.transitionTo fuel (policy.backendFor newCap) newCap
        return (.unit, moved)
      else map.dispatch fuel (.reserve additional)
  | .pinned => map.dispatch fuel (.reserve additional)

/-- Every other operation, `entry` and `try_insert` included, goes to the backend
as it is. -/
def step (fuel : Nat) (map : OptiMap engines) (op : MapOp K V) :
    Option (MapResult K V × OptiMap engines) :=
  match op with
  | .insert key value => map.insert fuel key value
  | .extend entries => do return (.unit, ← map.extend fuel entries)
  | .reserve additional => map.reserve fuel additional
  | op => map.dispatch fuel op

def run (fuel : Nat) (map : OptiMap engines) :
    List (MapOp K V) → Option (List (MapResult K V) × OptiMap engines)
  | [] => some ([], map)
  | op :: ops => do
      let (result, middle) ← map.step fuel op
      let (results, final) ← middle.run fuel ops
      return (result :: results, final)

end OptiMap

end Optimap.Opti
