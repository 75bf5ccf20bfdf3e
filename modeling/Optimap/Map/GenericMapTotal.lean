import Optimap.Lib.Fuel
import Optimap.Map.GenericMapRefinement

/-!
# Runs of the generic hash map return

An engine whose probing operations return on every table in use makes every run
of `GenericMap` return.
-/

set_option autoImplicit false

namespace Optimap.Map

open Lib RawTableApi

/-- The probe loops of the engine end on every table that stands for a map. -/
structure RawTableTotal {T K V : Type} [DecidableEq K] [RawTableApi T K V] (hash : K → UInt64)
    (Refines : T → PMap K V → Prop) : Prop where
  findByHash {table map} (refines : Refines table map) (h : UInt64) (eq : K → Bool) :
    Returns fun fuel => findByHash fuel table h eq
  insertOrReplace {table map} (refines : Refines table map) (key : K) (value : V) :
    Returns fun fuel => insertOrReplace fuel hash table key value
  findForEntry {table map} (refines : Refines table map) (h : UInt64) (key : K) :
    Returns fun fuel => findForEntry fuel table h key
  ensureCapacity {table map} (refines : Refines table map) :
    Returns fun fuel => ensureCapacity fuel hash table
  insertNoCheck {table map} (refines : Refines table map) (h : UInt64) (key : K) (value : V) :
    Returns fun fuel => insertNoCheck fuel table h key value
  removeByHash {table map} (refines : Refines table map) (h : UInt64) (eq : K → Bool) :
    Returns fun fuel => removeByHash fuel table h eq
  reserve {table map} (refines : Refines table map) (additional : Nat) :
    Returns fun fuel => reserve fuel hash table additional
  shrinkToFit {table map} (refines : Refines table map) :
    Returns fun fuel => shrinkToFit fuel hash table

namespace GenericMap

variable {T K V : Type} [DecidableEq K] [RawTableApi T K V] {hash : K → UInt64}
  {Refines : T → PMap K V → Prop} {Holds : T → Slot → K → V → Prop} {Ready : T → Prop}
  (laws : RawTableLaws hash Refines Holds Ready) (total : RawTableTotal hash Refines)
  {table : T} {map : PMap K V}

include total

theorem find_total (refines : Refines table map) (key : K) :
    Returns fun fuel => (⟨table, hash⟩ : GenericMap T K).find fuel key :=
  total.findByHash refines _ _

theorem insert_total (refines : Refines table map) (key : K) (value : V) :
    Returns fun fuel => (⟨table, hash⟩ : GenericMap T K).insert fuel key value :=
  Returns.bind (total.insertOrReplace refines key value) fun _ _ _ => .pure _

theorem removeEntry_total (refines : Refines table map) (key : K) :
    Returns fun fuel => (⟨table, hash⟩ : GenericMap T K).removeEntry fuel key :=
  Returns.bind (total.removeByHash refines _ _) fun _ _ _ => .pure _

include laws

theorem insertGrowing_total (refines : Refines table map) (key : K) (value : V) :
    Returns fun fuel => (⟨table, hash⟩ : GenericMap T K).insertGrowing fuel key value := by
  refine Returns.bind (total.ensureCapacity refines) fun grown _ ensured => ?_
  have grownRefines := (laws.ensureCapacity refines ensured).1
  exact Returns.bind (total.insertNoCheck grownRefines _ key value) fun _ _ _ => .pure _

theorem entry_total (refines : Refines table map) (key : K) :
    Returns fun fuel => (⟨table, hash⟩ : GenericMap T K).entry fuel key := by
  have allocates : Returns fun fuel => (⟨table, hash⟩ : GenericMap T K).allocate fuel :=
    .ite (fun _ => .pure table) fun _ => total.reserve refines 1
  refine Returns.bind allocates fun prepared _ allocated => ?_
  have preparedRefines : Refines prepared map := by
    unfold allocate at allocated
    split at allocated
    · cases allocated
      exact refines
    · exact laws.reserve refines allocated
  exact Returns.bind (total.findForEntry preparedRefines _ key) fun _ _ _ => .pure _

theorem vacantInsert_total (refines : Refines table map) (vacant : Option (Slot × UInt8)) (key : K)
    (value : V) :
    Returns fun fuel => (⟨table, hash⟩ : GenericMap T K).vacantInsert fuel vacant key value := by
  cases vacant with
  | none => exact insertGrowing_total laws total refines key value
  | some located => exact .pure _

theorem orInsert_total (refines : Refines table map) (key : K) (value : V) :
    Returns fun fuel => (⟨table, hash⟩ : GenericMap T K).orInsert fuel key value := by
  refine Returns.bind (entry_total laws total refines key) fun ⟨probe, ⟨prepared, _⟩⟩ _ entered => ?_
  obtain ⟨preparedRefines, rfl, _⟩ := entry_refines laws refines entered
  cases probe with
  | found slot => exact .pure _
  | vacant slot =>
      exact Returns.bind (vacantInsert_total laws total preparedRefines slot key value)
        fun _ _ _ => .pure _

theorem tryInsert_total (refines : Refines table map) (key : K) (value : V) :
    Returns fun fuel => (⟨table, hash⟩ : GenericMap T K).tryInsert fuel key value := by
  refine Returns.bind (entry_total laws total refines key) fun ⟨probe, ⟨prepared, _⟩⟩ _ entered => ?_
  obtain ⟨preparedRefines, rfl, _⟩ := entry_refines laws refines entered
  cases probe with
  | found slot => exact .pure _
  | vacant slot =>
      exact Returns.bind (vacantInsert_total laws total preparedRefines slot key value)
        fun _ _ _ => .pure _

theorem extend_total (entries : List (K × V)) :
    ∀ {table : T} {map : PMap K V}, Refines table map →
      Returns fun fuel => (⟨table, hash⟩ : GenericMap T K).extend fuel entries := by
  induction entries with
  | nil => intro table map _; exact .pure _
  | cons entry entries ih =>
      intro table map refines
      refine Returns.bind (insert_total total refines entry.1 entry.2)
        fun ⟨_, ⟨middle, _⟩⟩ _ inserted => ?_
      obtain ⟨_, middleRefines, rfl⟩ := insert_refines laws refines inserted
      exact ih middleRefines

theorem stepCommon_total (refines : Refines table map) (op : MapOp K V) :
    Returns fun fuel => (⟨table, hash⟩ : GenericMap T K).stepCommon fuel op := by
  cases op with
  | get key =>
      refine Returns.bind ?_ fun _ _ _ => .pure _
      exact Returns.bind (find_total total refines key) fun _ _ _ => .pure _
  | insert key value => exact Returns.bind (insert_total total refines key value) fun _ _ _ => .pure _
  | remove key =>
      refine Returns.bind ?_ fun _ _ _ => .pure _
      exact Returns.bind (removeEntry_total total refines key) fun _ _ _ => .pure _
  | removeEntry key => exact Returns.bind (removeEntry_total total refines key) fun _ _ _ => .pure _
  | entryInsert key value =>
      exact Returns.bind (orInsert_total laws total refines key value) fun _ _ _ => .pure _
  | tryInsert key value =>
      exact Returns.bind (tryInsert_total laws total refines key value) fun _ _ _ => .pure _
  | extend entries => exact Returns.bind (extend_total laws total entries refines) fun _ _ _ => .pure _
  | reserve additional =>
      refine Returns.bind ?_ fun _ _ _ => .pure _
      exact Returns.bind (total.reserve refines additional) fun _ _ _ => .pure _
  | shrinkToFit =>
      refine Returns.bind ?_ fun _ _ _ => .pure _
      exact Returns.bind (total.shrinkToFit refines) fun _ _ _ => .pure _
  | retain | clear | clone | drain | iter | len => exact .pure _

theorem step_total (refines : Refines table map) (op : GenericOp K V) :
    Returns fun fuel => (⟨table, hash⟩ : GenericMap T K).step fuel op := by
  cases op with
  | common op => exact stepCommon_total laws total refines op
  | rawInsert key value =>
      refine Returns.bind ?_ fun _ _ _ => .pure _
      refine Returns.bind (find_total total refines key) fun found _ _ => ?_
      cases found with
      | some slot => exact .pure _
      | none => exact Returns.bind (insertGrowing_total laws total refines key value) fun _ _ _ => .pure _
  | rawRemove key =>
      refine Returns.bind ?_ fun _ _ _ => .pure _
      refine Returns.bind (find_total total refines key) fun found _ _ => ?_
      cases found <;> exact .pure _

/-- Every run returns, by induction on the operations left. -/
theorem run_total (ops : List (GenericOp K V)) :
    ∀ {table : T} {map : PMap K V}, Refines table map →
      Returns fun fuel => (⟨table, hash⟩ : GenericMap T K).run fuel ops := by
  induction ops with
  | nil => intro table map _; exact .pure _
  | cons op ops ih =>
      intro table map refines
      refine Returns.bind (step_total laws total refines op) fun ⟨_, ⟨middle, _⟩⟩ _ stepped => ?_
      obtain ⟨_, _, middleRefines, rfl⟩ := step_refines laws refines stepped
      exact Returns.bind (ih middleRefines) fun _ _ _ => .pure _

end GenericMap

end Optimap.Map
