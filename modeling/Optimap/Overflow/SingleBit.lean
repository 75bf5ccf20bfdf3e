import Optimap.Map.GenericMapTotal
import Optimap.Overflow.AntiDrift

/-!
# One overflow bit per group

With a single bit for all channels every removal from an overflowed group finds
the bit set, so the anti-drift step always fires. The balance then holds without
a condition and every run returns.
-/

set_option autoImplicit false
set_option linter.unusedSectionVars false

namespace Optimap.Overflow

open Lib Hash Map

namespace RawTable

variable {L : GroupLayout} {S : Type → Type → Type} [KvStorage S] {K V : Type}

/-! ## Bounded probing -/

section Bounded
variable {table : RawTable L S K V} {h : UInt64} {eq : K → Bool} {last : Nat}

theorem findLoop_bounded
    (clear : table.hasOverflowBit (table.probeAt h last) (L.tags.overflowChannel h) = false) {probe : Nat}
    (early : probe ≤ last) :
    ∃ result, ∀ fuel, last - probe < fuel →
      table.findLoop h eq fuel (table.probeAt h probe) probe = some result := by
  refine loop_returns (fun fuel probe => table.findLoop h eq fuel (table.probeAt h probe) probe)
    (· ≤ last) (last - ·) (fun probe early => ?_) early
  cases found : table.findInGroup h eq (table.probeAt h probe) with
  | some si => exact .inl ⟨some (table.probeAt h probe, si), fun fuel => by simp only [findLoop, found]⟩
  | none =>
      cases set : table.hasOverflowBit (table.probeAt h probe) (L.tags.overflowChannel h) with
      | false =>
          exact .inl ⟨none, fun fuel => by simp only [findLoop, found, set, Bool.false_eq_true, ↓reduceIte]⟩
      | true =>
          have before : probe ≠ last := by
            rintro rfl
            rw [set] at clear
            cases clear
          refine .inr ⟨probe + 1, show probe + 1 ≤ last by omega,
            show last - (probe + 1) < last - probe by omega, fun fuel => ?_⟩
          simp only [findLoop, found, set, ↓reduceIte, nextGroup_probeAt]

theorem findOrLocateOverflow_bounded
    (clear : table.hasOverflowBit (table.probeAt h last) (L.tags.overflowChannel h) = false) {probe : Nat}
    (early : probe ≤ last) (firstEmpty : Option Slot) (fullMask : UInt8) :
    ∃ result, ∀ fuel, last - probe < fuel →
      table.findOrLocateOverflow h eq fuel (table.probeAt h probe) probe firstEmpty fullMask =
        some result := by
  refine loop_returns (fun fuel (state : Nat × Option Slot × UInt8) =>
      table.findOrLocateOverflow h eq fuel (table.probeAt h state.1) state.1 state.2.1 state.2.2)
    (·.1 ≤ last) (last - ·.1) (fun ⟨probe, firstEmpty, fullMask⟩ early => ?_)
    (show (probe, firstEmpty, fullMask).1 ≤ last from early)
  simp only at early ⊢
  cases found : table.findInGroup h eq (table.probeAt h probe) with
  | some si =>
      exact .inl ⟨.found (table.probeAt h probe, si),
        fun fuel => by simp only [findOrLocateOverflow, found]⟩
  | none =>
      cases set : table.hasOverflowBit (table.probeAt h probe) (L.tags.overflowChannel h) with
      | false =>
          refine .inl ?_
          simp only [findOrLocateOverflow, found, set, Bool.false_eq_true, ↓reduceIte]
          split
          · exact ⟨_, fun _ => rfl⟩
          · exact ⟨_, fun _ => rfl⟩
      | true =>
          have before : probe ≠ last := by
            rintro rfl
            rw [set] at clear
            cases clear
          obtain ⟨located, locatedEq⟩ : ∃ located, located = firstEmpty.or
              ((table.matchEmpty (table.probeAt h probe)).head?.map fun si => (table.probeAt h probe, si)) :=
            ⟨_, rfl⟩
          refine .inr ⟨⟨probe + 1, located, if located.isNone && probe < 8 then
              fullMask ||| 1 <<< UInt8.ofNat probe else fullMask⟩, show probe + 1 ≤ last by omega,
            show last - (probe + 1) < last - probe by omega, fun fuel => ?_⟩
          simp only [findOrLocateOverflow, found, set, ↓reduceIte, nextGroup_probeAt, ← locatedEq]

/-- An insertion stops at the first group with an empty slot; the bits it sets on
the way do not change the metadata. -/
theorem insertLoop_bounded (stop : table.matchEmpty (table.probeAt h last) ≠ []) (key : K) (value : V) :
    ∃ result, ∀ fuel, last < fuel →
      insertLoop h key value fuel table (table.probeAt h 0) 0 = some result := by
  refine loop_returns (fun fuel (state : RawTable L S K V × Nat) =>
      insertLoop h key value fuel state.1 (state.1.probeAt h state.2) state.2)
    (fun state => table.BitsGrow state.1 ∧ state.2 ≤ last) (last - ·.2) (fun ⟨current, probe⟩ good => ?_)
    (show table.BitsGrow (table, 0).1 ∧ (table, 0).2 ≤ last from ⟨BitsGrow.refl table, Nat.zero_le _⟩)
  obtain ⟨grow, early⟩ := good
  simp only at grow early ⊢
  cases head : (current.matchEmpty (current.probeAt h probe)).head? with
  | some si =>
      exact .inl ⟨((current.probeAt h probe, si), current.fillSlot h (current.probeAt h probe, si) key value),
        fun fuel => by simp only [insertLoop, head]⟩
  | none =>
      have before : probe ≠ last := by
        rintro rfl
        rw [grow.probeAt, grow.matchEmpty (table.probeAt_le h probe)] at head
        exact stop (List.head?_eq_none_iff.mp head)
      have further := setOverflowBit_bitsGrow current (current.probeAt h probe) (L.tags.overflowChannel h)
      refine .inr ⟨(current.setOverflowBit (current.probeAt h probe) (L.tags.overflowChannel h), probe + 1),
        ⟨grow.trans further, show probe + 1 ≤ last by omega⟩,
        show last - (probe + 1) < last - probe by omega, fun fuel => ?_⟩
      have next : (current.setOverflowBit (current.probeAt h probe) (L.tags.overflowChannel h)).nextGroup
          (current.probeAt h probe) (probe + 1) =
          (current.setOverflowBit (current.probeAt h probe) (L.tags.overflowChannel h)).probeAt h
            (probe + 1) := by
        rw [further.probeAt]
        rfl
      simp only [insertLoop, head, next]

end Bounded

/-! ## The table interface returns -/

section Total
variable [DecidableEq K] {hash : K → UInt64} {table : RawTable L S K V} {map : PMap K V}

/-- The load limit leaves an empty slot on every probe cycle. -/
theorem Valid.exists_empty_probe (valid : table.Valid hash) (h : UInt64) :
    ∃ last ≤ table.mask, table.matchEmpty (table.probeAt h last) ≠ [] := by
  have total := @occupied_add_free _ _ _ _ _ table
  have load := L.maxLoadFor_lt (table.mask + 1) (by omega)
  have lenEq := valid.len_eq
  have lenLe := valid.len_le
  have nominal := valid.maxLoad_le
  have some : ∑ gi ∈ Finset.range (table.mask + 1), table.free gi ≠ 0 := by omega
  obtain ⟨gi, member, nonzero⟩ := Finset.exists_ne_zero_of_sum_ne_zero some
  obtain ⟨bits, power⟩ := valid.power
  obtain ⟨last, early, reached⟩ := probeGroup_surjective power (table.groupIndex_le h)
    (Nat.le_of_lt_succ (Finset.mem_range.mp member))
  refine ⟨last, early, fun full => nonzero (free_eq_zero ?_)⟩
  rwa [probeAt, reached] at full

/-- Some group on the probe sequence of the hash has its channel's bit clear. -/
def Clears (table : RawTable L S K V) (h : UInt64) : Prop :=
  ∃ last, table.hasOverflowBit (table.probeAt h last) (L.tags.overflowChannel h) = false

/-- A balanced table has the bit of the query clear on every probe sequence. -/
theorem Balanced.clears (balanced : table.Balanced) (valid : table.Valid hash) (h : UInt64) :
    table.Clears h := by
  obtain ⟨gi, bound, clear⟩ := exists_clear_group valid balanced
  obtain ⟨bits, power⟩ := valid.power
  obtain ⟨last, _, reached⟩ := probeGroup_surjective power (table.groupIndex_le h) bound
  refine ⟨last, ?_⟩
  rw [probeAt, reached]
  by_contra set
  rw [anyOverflow_of_hasOverflowBit (by simpa using set)] at clear
  cases clear

/-- One cycle of the probe sequence is enough for an insertion without check. -/
theorem insertNoCheck_within (valid : table.Valid hash) (h : UInt64) (key : K) (value : V) :
    ∃ result, ∀ fuel, table.mask < fuel → table.insertNoCheck fuel h key value = some result := by
  obtain ⟨last, early, stop⟩ := valid.exists_empty_probe h
  obtain ⟨result, returns⟩ := insertLoop_bounded stop key value
  exact ⟨result, fun fuel large => returns fuel (by omega)⟩

theorem insertNoCheck_total (valid : table.Valid hash) (h : UInt64) (key : K) (value : V) :
    Returns fun fuel => table.insertNoCheck fuel h key value := by
  obtain ⟨result, returns⟩ := insertNoCheck_within valid h key value
  exact ⟨result, .of_bound returns⟩

theorem findByHash_total {h : UInt64} (clears : table.Clears h) (eq : K → Bool) :
    Returns fun fuel => table.findByHash fuel h eq := by
  obtain ⟨last, clear⟩ := clears
  obtain ⟨result, returns⟩ := @findLoop_bounded _ _ _ _ _ _ _ eq _ clear 0 (Nat.zero_le _)
  exact ⟨result, @Settles.of_bound _ _ _ (last + 1) fun fuel large => returns fuel (by omega)⟩

theorem findOrLocate_total {h : UInt64} (clears : table.Clears h) (eq : K → Bool) :
    Returns fun fuel => table.findOrLocate fuel h eq := by
  obtain ⟨last, clear⟩ := clears
  have cold : table.hasOverflowBit (table.groupIndex h) (L.tags.overflowChannel h) = true →
      ∀ firstEmpty fullMask, Returns fun fuel =>
        table.findOrLocateOverflow h eq fuel (table.nextGroup (table.groupIndex h) 1) 1 firstEmpty
          fullMask := by
    intro set firstEmpty fullMask
    have beyond : 1 ≤ last := by
      rcases Nat.eq_zero_or_pos last with rfl | positive
      · rw [show table.probeAt h 0 = table.groupIndex h from rfl, set] at clear
        cases clear
      · exact positive
    obtain ⟨result, returns⟩ :=
      @findOrLocateOverflow_bounded _ _ _ _ _ _ _ eq _ clear 1 beyond firstEmpty fullMask
    exact ⟨result, @Settles.of_bound _ _ _ (last + 1) fun fuel large => returns fuel (by omega)⟩
  unfold findOrLocate
  simp only
  split
  · exact .pure _
  · split
    · exact .ite (fun set => cold set _ _) fun _ => .pure _
    · exact .ite (fun set => cold set _ _) fun _ => .pure _

/-- By induction on the entries left: the load left covers them, so each insertion
ends within one cycle. -/
theorem reinsert_within (entries : List (K × V)) :
    ∀ {table : RawTable L S K V} {map : PMap K V}, table.Refines hash map →
      (entries.map Prod.fst).Nodup → (∀ entry ∈ entries, map entry.1 = none) →
      table.len + entries.length ≤ table.maxLoad →
      ∃ result, ∀ fuel, table.mask < fuel → reinsert fuel hash entries table = some result := by
  induction entries with
  | nil => intro table map _ _ _ _; exact ⟨table, fun _ _ => rfl⟩
  | cons entry entries ih =>
      intro table map refines unique fresh room
      rw [List.length_cons] at room
      obtain ⟨headFresh, restUnique⟩ := List.nodup_cons.mp unique
      have absent := fresh entry List.mem_cons_self
      obtain ⟨⟨slot, middle⟩, inserted⟩ := insertNoCheck_within refines.valid (hash entry.1) entry.1 entry.2
      have returned := inserted (table.mask + 1) (Nat.lt_succ_self _)
      have middleRefines := (insertNoCheck_refines refines (by omega) absent returned).1
      obtain ⟨mask, maxLoad, len⟩ := insertNoCheck_fields (refines.valid.allocated (by omega)) returned
      have restFresh : ∀ other ∈ entries, map.insert entry.1 entry.2 other.1 = none := by
        intro other member
        have different : other.1 ≠ entry.1 := fun same => headFresh (same ▸ List.mem_map_of_mem member)
        rw [PMap.insert_of_ne map _ different]
        exact fresh other (List.mem_cons_of_mem _ member)
      obtain ⟨result, rest⟩ := ih middleRefines restUnique restFresh (by rw [len, maxLoad]; omega)
      refine ⟨result, fun fuel large => ?_⟩
      unfold reinsert
      rw [inserted fuel large]
      exact rest fuel (by rwa [mask])

theorem rehashWith_within {newNumGroups : Nat} (refines : table.Refines hash map)
    (power : ∃ bits, newNumGroups = 2 ^ bits) (room : table.len ≤ L.maxLoadFor newNumGroups) :
    ∃ result, ∀ fuel, newNumGroups ≤ fuel → rehashWith fuel hash table newNumGroups = some result := by
  have positive : 0 < newNumGroups := by
    obtain ⟨bits, rfl⟩ := power
    exact Nat.two_pow_pos bits
  have length := refines.valid.readSlots_length
  obtain ⟨result, returns⟩ := @reinsert_within L S _ K V _ hash
    (table.occupiedSlots.filterMap table.readSlot) (table.detached.allocate newNumGroups) PMap.empty
    (allocate_refines power rfl) refines.enumerates.nodup (by simp [PMap.empty])
    (by simpa [allocate, detached, length] using room)
  unfold rehashWith
  cases table.isAllocated with
  | true => exact ⟨result, fun fuel large => returns fuel (show newNumGroups - 1 < fuel by omega)⟩
  | false => exact ⟨_, fun _ _ => rfl⟩

theorem rehashWith_total {newNumGroups : Nat} (refines : table.Refines hash map)
    (power : ∃ bits, newNumGroups = 2 ^ bits) (room : table.len ≤ L.maxLoadFor newNumGroups) :
    Returns fun fuel => rehashWith fuel hash table newNumGroups := by
  obtain ⟨result, returns⟩ := rehashWith_within refines power room
  exact ⟨result, .of_bound returns⟩

theorem growAndRehash_total (refines : table.Refines hash map) :
    Returns fun fuel => growAndRehash fuel hash table :=
  rehashWith_total refines (grownGroups_power refines.valid) (len_lt_grown refines.valid).le

theorem insertAtCapacity_total {h : UInt64} (refines : table.Refines hash map) (clears : table.Clears h)
    (key : K) (value : V) : Returns fun fuel => table.insertAtCapacity fuel hash h key value := by
  refine Returns.bind (findByHash_total clears _) fun found _ _ => ?_
  cases found with
  | some slot => exact .pure _
  | none =>
      refine Returns.bind (growAndRehash_total refines) fun grown _ ran => ?_
      obtain ⟨grownRefines, _⟩ := growAndRehash_refines refines ran
      exact Returns.bind (insertNoCheck_total grownRefines.valid h key value) fun _ _ _ => .pure _

theorem insertOverflow_total {h : UInt64} (refines : table.Refines hash map) (clears : table.Clears h)
    (key : K) (value : V) : Returns fun fuel => table.insertOverflow fuel hash h key value := by
  refine Returns.bind (findByHash_total clears _) fun found _ _ => ?_
  cases found with
  | some slot => exact .pure _
  | none =>
      refine Returns.bind (.ite (fun _ => growAndRehash_total refines) fun _ => .pure table)
        fun grown _ ran => ?_
      have grownValid : grown.Valid hash := by
        split at ran
        · exact (growAndRehash_refines refines ran).1.valid
        · cases ran
          exact refines.valid
      exact Returns.bind (insertNoCheck_total grownValid h key value) fun _ _ _ => .pure _

/-- A table without load allocates afresh, so only a loaded one is looked up in. -/
theorem insertOrReplace_total {key : K} (refines : table.Refines hash map)
    (clears : table.maxLoad ≠ 0 → table.Clears (hash key)) (value : V) :
    Returns fun fuel => insertOrReplace fuel hash table key value := by
  have lenLe := refines.valid.len_le
  have prepared : (if table.maxLoad = 0 then table.allocate 1 else table).Refines hash map ∧
      (if table.maxLoad = 0 then table.allocate 1 else table).Clears (hash key) := by
    split
    · have len : table.len = 0 := by omega
      have fresh : (table.allocate 1).Refines hash PMap.empty := allocate_refines ⟨0, rfl⟩ len
      rw [refines.map_eq_empty len]
      exact ⟨fresh, (allocate_balanced Nat.one_pos).clears fresh.valid _⟩
    · rename_i loaded
      exact ⟨refines, clears loaded⟩
  unfold insertOrReplace
  simp only
  generalize (if table.maxLoad = 0 then table.allocate 1 else table) = start at prepared
  refine .ite (fun _ => insertAtCapacity_total prepared.1 prepared.2 key value) fun _ => ?_
  split
  · exact .pure _
  · split
    · exact .pure _
    · exact insertOverflow_total prepared.1 prepared.2 key value

theorem findForEntry_total {h : UInt64} (clears : table.Clears h) (key : K) :
    Returns fun fuel => table.findForEntry fuel h key := by
  unfold findForEntry
  refine .ite (fun _ => ?_) fun _ => ?_
  · refine Returns.bind (findByHash_total clears _) fun found _ _ => ?_
    cases found <;> exact .pure _
  · simp only
    split
    · exact .pure _
    · split
      · exact .pure _
      · refine Returns.bind (findOrLocate_total clears _) fun located _ _ => ?_
        cases located <;> exact .pure _

/-- On balanced tables every operation of the interface returns. -/
theorem rawTableTotal (hash : K → UInt64) :
    RawTableTotal (T := RawTable L S K V) hash fun table map => table.Refines hash map ∧ table.Balanced where
  findByHash refines h := findByHash_total (refines.2.clears refines.1.valid h)
  insertOrReplace refines _ := insertOrReplace_total refines.1 fun _ => refines.2.clears refines.1.valid _
  findForEntry refines h := findForEntry_total (refines.2.clears refines.1.valid h)
  ensureCapacity refines := .ite (fun _ => growAndRehash_total refines.1) fun _ => .pure _
  insertNoCheck refines := insertNoCheck_total refines.1.valid
  removeByHash refines h eq := by
    refine Returns.bind (findByHash_total (refines.2.clears refines.1.valid h) eq) fun found _ _ => ?_
    cases found <;> exact .pure _
  reserve {table _} refines additional := by
    have room := L.le_maxLoadFor_groupsForCapacity (table.len + additional)
    exact .ite (fun _ => .pure _) fun _ => .ite (fun _ => rehashWith_total refines.1
      (L.groupsForCapacity_power _) (by omega)) fun _ => .pure _
  shrinkToFit refines := .ite (fun _ => .pure _) fun _ => .ite (fun _ => rehashWith_total refines.1
    (L.groupsForCapacity_power _) (L.le_maxLoadFor_groupsForCapacity _)) fun _ => .pure _

end Total

/-! ## Layouts with one bit per group -/

section SingleBit
variable [DecidableEq K] {hash : K → UInt64} {table : RawTable L S K V} {map : PMap K V}

/-- The groups whose overflow bit is set. -/
def setGroups (table : RawTable L S K V) : Nat := (List.range table.numGroups).countP table.anyOverflow

/-- The single bit of a group serves every channel. -/
theorem hasOverflowBit_eq_any (single : L.overflow = .bitSeparate) (gi : Nat) (channel : UInt8) :
    table.hasOverflowBit gi channel = table.anyOverflow gi := by
  simp only [anyOverflow, hasOverflowBit, GroupLayout.overflowMask, single]

theorem charged_of_single (single : L.overflow = .bitSeparate) (table : RawTable L S K V) (slot : Slot)
    (key : K) : table.Charged hash slot key := by
  intro _ overflowed
  rw [hasOverflowBit_eq_any single]
  exact overflowed

/-- The entries and the anti-drift deficit account for every slot of the groups
whose bit is set. -/
theorem Balanced.covers (balanced : table.Balanced) (valid : table.Valid hash) :
    L.groupSize * table.setGroups ≤ table.len + (L.maxLoadFor table.numGroups - table.maxLoad) := by
  have group : ∀ gi, (table.matchNonEmpty gi).length + table.free gi = L.groupSize := matchNonEmpty_add_free
  have counted : table.setGroups =
      ∑ gi ∈ Finset.range (table.mask + 1), if table.anyOverflow gi then 1 else 0 := by
    rw [setGroups, numGroups, List.countP_eq_length_filter, Finset.sum_boole, Nat.cast_id,
      ← List.toFinset_card_of_nodup (List.nodup_range.filter _)]
    congr 1
    ext gi
    simp
  have occupied : table.len = ∑ gi ∈ Finset.range (table.mask + 1), (table.matchNonEmpty gi).length := by
    rw [valid.len_eq]
    simp only [occupiedSlots, List.length_flatMap, List.length_map, numGroups]
    rfl
  have slots : L.groupSize * table.setGroups ≤ table.len + table.slack := by
    rw [counted, occupied, slack, Finset.mul_sum, ← Finset.sum_add_distrib]
    refine Finset.sum_le_sum fun gi _ => ?_
    have total := group gi
    split
    · omega
    · omega
  have deficit : table.slack + table.maxLoad ≤ L.maxLoadFor table.numGroups := balanced
  omega

end SingleBit

end RawTable

end Optimap.Overflow
