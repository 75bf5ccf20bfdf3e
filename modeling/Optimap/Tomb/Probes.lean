import Optimap.Lib.Fuel
import Optimap.Tomb.SlotUpdates

/-!
# The probe loops of the tombstone tables

What each loop knows when it returns, and that on a valid table it returns
within `num_groups` rounds.
-/

set_option autoImplicit false
set_option linter.unusedSectionVars false

namespace Optimap.Tomb

open Lib Hash Map

namespace RawTable

variable {engine : Engine} {tag : TombstoneTag} {S : Type → Type → Type} [KvStorage S] {K V : Type}
  {table : RawTable engine tag S K V} {h : UInt64} {eq : K → Bool}

/-- The slot carries the hash's tag and a key that `eq` accepts. -/
def Matches (table : RawTable engine tag S K V) (h : UInt64) (eq : K → Bool) (slot : Slot) : Prop :=
  table.InRange slot ∧ table.metaByte slot.1 slot.2 = tag.reducedHash h ∧
    ∃ key, table.key slot = some key ∧ eq key = true

/-- No slot of the groups before probe position `last` matches. -/
def Scanned (table : RawTable engine tag S K V) (h : UInt64) (eq : K → Bool) (last : Nat) : Prop :=
  ∀ probe < last, table.findInGroup h eq (table.probeAt h probe) = none

/-- Everything up to a group with an EMPTY slot was scanned without a match. -/
def Exhausted (table : RawTable engine tag S K V) (h : UInt64) (eq : K → Bool) : Prop :=
  ∃ last, table.Scanned h eq (last + 1) ∧ table.matchEmpty (table.probeAt h last) ≠ []

def FindOutcome (table : RawTable engine tag S K V) (h : UInt64) (eq : K → Bool) : Option Slot → Prop
  | some slot => table.Matches h eq slot
  | none => table.Exhausted h eq

def LocateOutcome (table : RawTable engine tag S K V) (h : UInt64) (eq : K → Bool) :
    ProbeResult → Prop
  | .found slot => table.Matches h eq slot
  | .insertSlot slot _ => table.Vacant h slot ∧ table.Exhausted h eq
  | .notFound => table.Exhausted h eq

theorem findInGroup_matches {gi si : Nat} (bound : gi ≤ table.mask)
    (found : table.findInGroup h eq gi = some si) : table.Matches h eq (gi, si) := by
  obtain ⟨inside, tagged, key, stored, equal⟩ := findInGroup_eq_some found
  exact ⟨⟨bound, inside⟩, tagged, key, stored, equal⟩

theorem Scanned.start (table : RawTable engine tag S K V) (h : UInt64) (eq : K → Bool) :
    table.Scanned h eq 0 := by
  intro probe below
  omega

theorem Scanned.extend {last : Nat} (scanned : table.Scanned h eq last)
    (missed : table.findInGroup h eq (table.probeAt h last) = none) :
    table.Scanned h eq (last + 1) := by
  intro probe below
  rcases Nat.lt_succ_iff_lt_or_eq.mp below with before | rfl
  · exact scanned probe before
  · exact missed

theorem matchEmpty_head_vacant {probe si : Nat} (passed : table.Passed h probe)
    (head : (table.matchEmpty (table.probeAt h probe)).head? = some si) :
    table.Vacant h (table.probeAt h probe, si) ∧
      table.metaByte (table.probeAt h probe) si = EMPTY := by
  obtain ⟨inside, empty⟩ := mem_matchByte.mp (List.mem_of_head? head)
  exact ⟨⟨⟨table.probeAt_le h probe, inside⟩, .inl empty, probe, rfl, passed⟩, empty⟩

theorem tombstone_head_vacant {probe si : Nat} (passed : table.Passed h probe)
    (head : (table.matchByte (table.probeAt h probe) TOMBSTONE).head? = some si) :
    table.Vacant h (table.probeAt h probe, si) ∧
      table.metaByte (table.probeAt h probe) si = TOMBSTONE := by
  obtain ⟨inside, tombstone⟩ := mem_matchByte.mp (List.mem_of_head? head)
  exact ⟨⟨⟨table.probeAt_le h probe, inside⟩, .inr tombstone, probe, rfl, passed⟩, tombstone⟩

theorem matchEmpty_head_some {gi : Nat} (some_empty : table.matchEmpty gi ≠ []) :
    ∃ si, (table.matchEmpty gi).head? = some si := by
  obtain ⟨si, rest, shape⟩ := List.exists_cons_of_ne_nil some_empty
  exact ⟨si, by rw [shape]; rfl⟩

/-- The remembered tombstone, if any, is vacant and a tombstone. -/
def Remembered (table : RawTable engine tag S K V) (h : UInt64) (first : Option Slot) : Prop :=
  ∀ slot, first = some slot → table.Vacant h slot ∧ table.metaByte slot.1 slot.2 = TOMBSTONE

theorem Remembered.track {probe : Nat} {first : Option Slot} (remembered : table.Remembered h first)
    (passed : table.Passed h probe) :
    table.Remembered h (table.trackTombstone (table.probeAt h probe) first) := by
  intro slot chosen
  rw [trackTombstone, Option.or_eq_some_iff] at chosen
  rcases chosen with earlier | ⟨_, here⟩
  · exact remembered slot earlier
  · obtain ⟨si, head, rfl⟩ := Option.map_eq_some_iff.mp here
    exact tombstone_head_vacant passed head

/-! ## Lookups -/

theorem findLoop_returns (fuel : Nat) :
    ∀ {probe : Nat} {result : Option Slot}, table.Scanned h eq probe →
      table.findLoop h eq fuel (table.probeAt h probe) probe = some result →
      table.FindOutcome h eq result := by
  induction fuel with
  | zero => intro probe result _ returned; cases returned
  | succ fuel ih =>
      intro probe result scanned returned
      unfold findLoop at returned
      split at returned
      · rename_i si found
        cases returned
        exact findInGroup_matches (table.probeAt_le h probe) found
      · rename_i missed
        have further := scanned.extend missed
        split at returned
        · rw [nextGroup_probeAt] at returned
          exact ih further returned
        · rename_i stop
          cases returned
          exact ⟨probe, further, stop⟩

theorem findByHash_returns {fuel : Nat} {result : Option Slot}
    (returned : table.findByHash fuel h eq = some result) : table.FindOutcome h eq result :=
  findLoop_returns fuel (Scanned.start table h eq) returned

theorem findOrLocateOverflow_returns (fuel : Nat) :
    ∀ {probe : Nat} {first : Option Slot} {result : ProbeResult}, table.Scanned h eq probe →
      table.Passed h probe → (∀ slot, first = some slot → table.Vacant h slot) →
      table.findOrLocateOverflow h eq fuel (table.probeAt h probe) probe first = some result →
      table.LocateOutcome h eq result := by
  induction fuel with
  | zero => intro probe first result _ _ _ returned; cases returned
  | succ fuel ih =>
      intro probe first result scanned passed vacant returned
      unfold findOrLocateOverflow at returned
      split at returned
      · rename_i si found
        cases returned
        exact findInGroup_matches (table.probeAt_le h probe) found
      · rename_i missed
        have further := scanned.extend missed
        simp only at returned
        generalize located : (table.trackTombstone (table.probeAt h probe) first).or
          ((table.matchEmpty (table.probeAt h probe)).head?.map
            fun si => (table.probeAt h probe, si)) = slot? at returned
        have slotVacant : ∀ slot, slot? = some slot → table.Vacant h slot := by
          intro slot chosen
          rw [← located, Option.or_eq_some_iff, trackTombstone, Option.or_eq_some_iff] at chosen
          rcases chosen with (earlier | ⟨_, tombstone⟩) | ⟨_, empty⟩
          · exact vacant slot earlier
          · obtain ⟨si, head, rfl⟩ := Option.map_eq_some_iff.mp tombstone
            exact (tombstone_head_vacant passed head).1
          · obtain ⟨si, head, rfl⟩ := Option.map_eq_some_iff.mp empty
            exact (matchEmpty_head_vacant passed head).1
        split at returned
        · rename_i full
          rw [nextGroup_probeAt] at returned
          exact ih further (passed.extend full) slotVacant returned
        · rename_i stop
          have exhausted : table.Exhausted h eq := ⟨probe, further, stop⟩
          split at returned
          · rename_i slot
            cases returned
            exact ⟨slotVacant slot rfl, exhausted⟩
          · cases returned
            exact exhausted

theorem findOrLocate_returns {fuel : Nat} {result : ProbeResult}
    (returned : table.findOrLocate fuel h eq = some result) : table.LocateOutcome h eq result := by
  have start := Passed.start table h
  have home : table.probeAt h 0 = table.groupIndex h := rfl
  unfold findOrLocate at returned
  simp only at returned
  split at returned
  · rename_i si found
    cases returned
    exact findInGroup_matches (table.groupIndex_le h) found
  · rename_i missed
    have scanned := (Scanned.start table h eq).extend missed
    have exhausted : ∀ {si : Nat}, (table.matchEmpty (table.groupIndex h)).head? = some si →
        table.Exhausted h eq := by
      intro si head
      refine ⟨0, scanned, fun none_here => ?_⟩
      rw [home] at none_here
      rw [none_here] at head
      cases head
    split at returned
    · rename_i si tsi emptyHead tombstoneHead
      cases returned
      exact ⟨(tombstone_head_vacant start tombstoneHead).1, exhausted emptyHead⟩
    · rename_i si emptyHead _
      cases returned
      exact ⟨(matchEmpty_head_vacant start emptyHead).1, exhausted emptyHead⟩
    · rename_i tombstone emptyHead
      have full : table.matchEmpty (table.probeAt h 0) = [] := List.head?_eq_none_iff.mp emptyHead
      refine findOrLocateOverflow_returns fuel scanned (start.extend full) ?_ returned
      intro slot chosen
      obtain ⟨tsi, head, rfl⟩ := Option.map_eq_some_iff.mp chosen
      exact (tombstone_head_vacant start head).1

/-! ## Insertion -/

theorem putSlot_eq_insertAt_empty {key : K} {value : V} {slot : Slot} (fullMask : UInt8)
    (empty : table.metaByte slot.1 slot.2 = EMPTY) :
    { table.putSlot h slot key value with
      len := table.len + 1, growthLeft := table.growthLeft - 1 } =
      table.insertAt h slot key value fullMask := by
  rw [insertAt, if_pos empty]

/-- An insertion fills a vacant slot; it takes an EMPTY one only when it has
seen no tombstone. -/
theorem insertNoCheckLoop_returns {key : K} {value : V} (fuel : Nat) :
    ∀ {probe : Nat} {first : Option Slot} {slot : Slot} {later : RawTable engine tag S K V},
      table.Passed h probe → table.Remembered h first →
      table.insertNoCheckLoop h key value fuel (table.probeAt h probe) probe first =
        some (slot, later) →
      table.Vacant h slot ∧ later = table.insertAt h slot key value 0 := by
  induction fuel with
  | zero => intro probe first slot later _ _ returned; cases returned
  | succ fuel ih =>
      intro probe first slot later passed remembered returned
      have tracked := remembered.track passed
      unfold insertNoCheckLoop at returned
      simp only at returned
      split at returned
      · rename_i si emptyHead
        split at returned
        · rename_i chosen chosenEq
          cases returned
          obtain ⟨vacant, tombstone⟩ := tracked _ chosenEq
          refine ⟨vacant, ?_⟩
          rw [insertAt, if_neg]
          · rfl
          · rw [tombstone]
            decide
        · cases returned
          obtain ⟨vacant, empty⟩ := matchEmpty_head_vacant passed emptyHead
          exact ⟨vacant, putSlot_eq_insertAt_empty 0 empty⟩
      · rename_i full
        rw [nextGroup_probeAt] at returned
        exact ih (passed.extend (List.head?_eq_none_iff.mp full)) tracked returned

theorem insertNoCheck_returns {key : K} {value : V} {fuel : Nat} {slot : Slot}
    {later : RawTable engine tag S K V}
    (returned : table.insertNoCheck fuel h key value = some (slot, later)) :
    table.Vacant h slot ∧ later = table.insertAt h slot key value 0 :=
  insertNoCheckLoop_returns fuel (Passed.start table h) (by simp [Remembered]) returned

theorem insertAfterResizeLoop_returns {key : K} {value : V} (fuel : Nat) :
    ∀ {probe : Nat} {later : RawTable engine tag S K V}, table.Passed h probe →
      table.insertAfterResizeLoop h key value fuel (table.probeAt h probe) probe = some later →
      ∃ slot, table.Vacant h slot ∧ table.metaByte slot.1 slot.2 = EMPTY ∧
        later = table.putSlot h slot key value := by
  induction fuel with
  | zero => intro probe later _ returned; cases returned
  | succ fuel ih =>
      intro probe later passed returned
      unfold insertAfterResizeLoop at returned
      split at returned
      · rename_i si emptyHead
        cases returned
        obtain ⟨vacant, empty⟩ := matchEmpty_head_vacant passed emptyHead
        exact ⟨_, vacant, empty, rfl⟩
      · rename_i full
        rw [nextGroup_probeAt] at returned
        exact ih (passed.extend (List.head?_eq_none_iff.mp full)) returned

theorem insertAfterResize_returns {key : K} {value : V} {fuel : Nat}
    {later : RawTable engine tag S K V}
    (returned : table.insertAfterResize fuel h key value = some later) :
    ∃ slot, table.Vacant h slot ∧ table.metaByte slot.1 slot.2 = EMPTY ∧
      later = table.putSlot h slot key value :=
  insertAfterResizeLoop_returns fuel (Passed.start table h) returned

/-! ## Lookups on a valid table -/

section Valid
variable [DecidableEq K] {hash : K → UInt64} {key : K}

theorem Matches.holds (valid : table.Valid hash) {slot : Slot}
    (found : table.Matches (hash key) (fun stored => stored = key) slot) :
    ∃ value, table.Holds slot key value := by
  obtain ⟨inside, tagged, storedKey, stored, equal⟩ := found
  have occupied : table.Occupied slot := by
    refine ⟨inside, ?_⟩
    rw [tagged]
    exact ⟨tag.ne_empty _, tag.ne_tombstone _⟩
  obtain ⟨heldKey, value, holds, _⟩ := valid.stored slot occupied
  have same : heldKey = key := by
    rw [holds.2.1, Option.some.injEq] at stored
    rw [stored]
    exact of_decide_eq_true equal
  exact ⟨value, same ▸ holds⟩

/-- A lookup that stopped did not miss the key: its group would lie behind one
with an EMPTY slot. -/
theorem Exhausted.absent (valid : table.Valid hash)
    (exhausted : table.Exhausted (hash key) (fun stored => stored = key)) (slot : Slot) (value : V) :
    ¬ table.Holds slot key value := by
  intro holds
  obtain ⟨last, scanned, stop⟩ := exhausted
  obtain ⟨tagged, probe, reached, passed⟩ := valid.locate holds
  rcases Nat.lt_or_ge last probe with behind | inside
  · exact stop (passed last behind)
  · have missed := scanned probe (by omega)
    rw [reached, findInGroup_eq_none] at missed
    have rejected := missed slot.2 holds.1.1.2 tagged key holds.2.1
    simp at rejected

end Valid

/-! ## Termination -/

section Termination
variable {last : Nat}

theorem findLoop_bounded (stop : table.matchEmpty (table.probeAt h last) ≠ []) {probe : Nat}
    (early : probe ≤ last) :
    ∃ result, ∀ fuel, last - probe < fuel →
      table.findLoop h eq fuel (table.probeAt h probe) probe = some result := by
  refine loop_returns (fun fuel probe => table.findLoop h eq fuel (table.probeAt h probe) probe)
    (· ≤ last) (last - ·) (fun probe early => ?_) early
  cases found : table.findInGroup h eq (table.probeAt h probe) with
  | some si => exact .inl ⟨some (table.probeAt h probe, si), fun fuel => by simp only [findLoop, found]⟩
  | none =>
      by_cases full : table.matchEmpty (table.probeAt h probe) = []
      · have before : probe ≠ last := by
          rintro rfl
          exact stop full
        refine .inr ⟨probe + 1, show probe + 1 ≤ last by omega, show last - (probe + 1) < last - probe by omega,
          fun fuel => ?_⟩
        simp only [findLoop, found, full, ↓reduceIte, nextGroup_probeAt]
      · exact .inl ⟨none, fun fuel => by simp only [findLoop, found, full, ↓reduceIte]⟩

theorem findOrLocateOverflow_bounded (stop : table.matchEmpty (table.probeAt h last) ≠ [])
    {probe : Nat} (early : probe ≤ last) (first : Option Slot) :
    ∃ result, ∀ fuel, last - probe < fuel →
      table.findOrLocateOverflow h eq fuel (table.probeAt h probe) probe first = some result := by
  refine loop_returns (fun fuel (state : Nat × Option Slot) =>
      table.findOrLocateOverflow h eq fuel (table.probeAt h state.1) state.1 state.2)
    (·.1 ≤ last) (last - ·.1) (fun ⟨probe, first⟩ early => ?_)
    (show (probe, first).1 ≤ last from early)
  simp only at early ⊢
  cases found : table.findInGroup h eq (table.probeAt h probe) with
  | some si =>
      exact .inl ⟨.found (table.probeAt h probe, si),
        fun fuel => by simp only [findOrLocateOverflow, found]⟩
  | none =>
      by_cases full : table.matchEmpty (table.probeAt h probe) = []
      · have before : probe ≠ last := by
          rintro rfl
          exact stop full
        refine .inr ⟨(probe + 1, (table.trackTombstone (table.probeAt h probe) first).or
            ((table.matchEmpty (table.probeAt h probe)).head?.map fun si => (table.probeAt h probe, si))),
          show probe + 1 ≤ last by omega, show last - (probe + 1) < last - probe by omega, fun fuel => ?_⟩
        simp only [findOrLocateOverflow, found, full, ↓reduceIte, nextGroup_probeAt]
      · refine .inl ?_
        simp only [findOrLocateOverflow, found, full, ↓reduceIte]
        split
        · exact ⟨_, fun _ => rfl⟩
        · exact ⟨_, fun _ => rfl⟩

theorem insertNoCheckLoop_bounded (stop : table.matchEmpty (table.probeAt h last) ≠ []) (key : K)
    (value : V) {probe : Nat} (early : probe ≤ last) (first : Option Slot) :
    ∃ result, ∀ fuel, last - probe < fuel →
      table.insertNoCheckLoop h key value fuel (table.probeAt h probe) probe first = some result := by
  refine loop_returns (fun fuel (state : Nat × Option Slot) =>
      table.insertNoCheckLoop h key value fuel (table.probeAt h state.1) state.1 state.2)
    (·.1 ≤ last) (last - ·.1) (fun ⟨probe, first⟩ early => ?_)
    (show (probe, first).1 ≤ last from early)
  simp only at early ⊢
  cases head : (table.matchEmpty (table.probeAt h probe)).head? with
  | some si =>
      refine .inl ?_
      simp only [insertNoCheckLoop, head]
      split
      · exact ⟨_, fun _ => rfl⟩
      · exact ⟨_, fun _ => rfl⟩
  | none =>
      have before : probe ≠ last := by
        rintro rfl
        exact stop (List.head?_eq_none_iff.mp head)
      refine .inr ⟨(probe + 1, table.trackTombstone (table.probeAt h probe) first),
        show probe + 1 ≤ last by omega, show last - (probe + 1) < last - probe by omega,
        fun fuel => ?_⟩
      simp only [insertNoCheckLoop, head, nextGroup_probeAt]

theorem insertAfterResizeLoop_bounded (stop : table.matchEmpty (table.probeAt h last) ≠ [])
    (key : K) (value : V) {probe : Nat} (early : probe ≤ last) :
    ∃ result, ∀ fuel, last - probe < fuel →
      table.insertAfterResizeLoop h key value fuel (table.probeAt h probe) probe = some result := by
  refine loop_returns (fun fuel probe =>
      table.insertAfterResizeLoop h key value fuel (table.probeAt h probe) probe)
    (· ≤ last) (last - ·) (fun probe early => ?_) early
  cases head : (table.matchEmpty (table.probeAt h probe)).head? with
  | some si =>
      exact .inl ⟨table.putSlot h (table.probeAt h probe, si) key value,
        fun fuel => by simp only [insertAfterResizeLoop, head]⟩
  | none =>
      have before : probe ≠ last := by
        rintro rfl
        exact stop (List.head?_eq_none_iff.mp head)
      refine .inr ⟨probe + 1, show probe + 1 ≤ last by omega,
        show last - (probe + 1) < last - probe by omega, fun fuel => ?_⟩
      simp only [insertAfterResizeLoop, head, nextGroup_probeAt]

end Termination

section Bounded
variable {hash : K → UInt64}

theorem findByHash_bounded (valid : table.Valid hash) (h : UInt64) (eq : K → Bool) :
    ∃ result, ∀ fuel, table.numGroups ≤ fuel → table.findByHash fuel h eq = some result := by
  obtain ⟨last, early, stop⟩ := valid.exists_empty_probe h
  obtain ⟨result, returns⟩ := findLoop_bounded stop (Nat.zero_le last)
  refine ⟨result, fun fuel large => returns fuel ?_⟩
  rw [numGroups] at large
  omega

theorem insertNoCheck_bounded (valid : table.Valid hash) (h : UInt64) (key : K) (value : V) :
    ∃ result, ∀ fuel, table.numGroups ≤ fuel → table.insertNoCheck fuel h key value = some result := by
  obtain ⟨last, early, stop⟩ := valid.exists_empty_probe h
  obtain ⟨result, returns⟩ := insertNoCheckLoop_bounded stop key value (Nat.zero_le last) none
  refine ⟨result, fun fuel large => returns fuel ?_⟩
  rw [numGroups] at large
  omega

theorem insertAfterResize_bounded (valid : table.Valid hash) (h : UInt64) (key : K) (value : V) :
    ∃ result, ∀ fuel, table.numGroups ≤ fuel →
      table.insertAfterResize fuel h key value = some result := by
  obtain ⟨last, early, stop⟩ := valid.exists_empty_probe h
  obtain ⟨result, returns⟩ := insertAfterResizeLoop_bounded stop key value (Nat.zero_le last)
  refine ⟨result, fun fuel large => returns fuel ?_⟩
  rw [numGroups] at large
  omega

theorem findOrLocate_bounded (valid : table.Valid hash) (h : UInt64) (eq : K → Bool) :
    ∃ result, ∀ fuel, table.numGroups ≤ fuel → table.findOrLocate fuel h eq = some result := by
  obtain ⟨last, early, stop⟩ := valid.exists_empty_probe h
  cases found : table.findInGroup h eq (table.groupIndex h) with
  | some si => exact ⟨_, fun fuel _ => by simp only [findOrLocate, found]; rfl⟩
  | none =>
      cases head : (table.matchEmpty (table.groupIndex h)).head? with
      | some si =>
          cases tombstone : (table.matchByte (table.groupIndex h) TOMBSTONE).head? with
          | some tsi => exact ⟨_, fun fuel _ => by simp only [findOrLocate, found, head, tombstone]; rfl⟩
          | none => exact ⟨_, fun fuel _ => by simp only [findOrLocate, found, head, tombstone]; rfl⟩
      | none =>
          have beyond : 1 ≤ last := by
            rcases Nat.eq_zero_or_pos last with rfl | positive
            · exact absurd (List.head?_eq_none_iff.mp head) stop
            · exact positive
          obtain ⟨result, returns⟩ := findOrLocateOverflow_bounded stop beyond
            ((table.matchByte (table.groupIndex h) TOMBSTONE).head?.map
              fun tsi => (table.groupIndex h, tsi))
          refine ⟨result, fun fuel large => ?_⟩
          simp only [findOrLocate, found, head]
          exact returns fuel (by rw [numGroups] at large; omega)

end Bounded

end RawTable

end Optimap.Tomb
