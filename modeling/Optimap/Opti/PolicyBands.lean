import Optimap.Lib.SortedMap
import Optimap.Opti.Policy

/-!
# The band law

`backend_for` told from the `band` calls a policy was built with, against what its
documentation states: the backend last given for the largest threshold at or below
the capacity, and Splitsies when there is none.
-/

set_option autoImplicit false

namespace Optimap.Opti

open Lib

/-- The binary search keeps the bands as a sorted map from thresholds. -/
theorem insertBand_eq_insertEntry (minCapacity : Nat) (backend : MapType) (bands : List (Nat × MapType)) :
    insertBand minCapacity backend bands = insertEntry minCapacity backend bands := by
  induction bands with
  | nil => rfl
  | cons band bands ih =>
      unfold insertBand insertEntry
      split
      · rw [ih]
      · split
        · rename_i same
          rw [same]
        · rfl

namespace Policy

variable {calls : List (Nat × MapType)} {capacity : Nat}

/-- A chain of `band` calls on `Policy::new()`. -/
def ofCalls (calls : List (Nat × MapType)) : Policy :=
  calls.foldl (fun policy call => policy.band call.1 call.2) new

/-- The backend most recently given for a threshold. -/
def lastGiven (calls : List (Nat × MapType)) (threshold : Nat) : Option MapType :=
  lookupEntry threshold calls.reverse

/-- The largest threshold given at or below the capacity. -/
def thresholdAt (calls : List (Nat × MapType)) (capacity : Nat) : Option Nat :=
  ((calls.map Prod.fst).filter (· ≤ capacity)).max?

def leastThreshold (calls : List (Nat × MapType)) : Option Nat := (calls.map Prod.fst).min?

/-- The documented answer of `backend_for`. -/
def documentedBackend (calls : List (Nat × MapType)) (capacity : Nat) : MapType :=
  ((thresholdAt calls capacity).bind (lastGiven calls)).getD .splitsies

/-! ## The bands a chain of calls leaves -/

/-- By induction on the calls still to make: a later call hides the bands before it. -/
theorem lookup_foldl_band (calls : List (Nat × MapType)) (threshold : Nat) :
    ∀ policy : Policy, lookupEntry threshold
        (calls.foldl (fun policy call => policy.band call.1 call.2) policy).bands =
      (lastGiven calls threshold).or (lookupEntry threshold policy.bands) := by
  induction calls with
  | nil => intro policy; rfl
  | cons call calls ih =>
      intro policy
      have ascending : Ascending policy.bands := policy.sorted
      have banded : lookupEntry threshold (policy.band call.1 call.2).bands =
          if call.1 = threshold then some call.2 else lookupEntry threshold policy.bands := by
        have inserted : (policy.band call.1 call.2).bands = insertEntry call.1 call.2 policy.bands :=
          insertBand_eq_insertEntry call.1 call.2 policy.bands
        rw [inserted]
        exact ascending.lookupEntry_insertEntry call.1 threshold call.2
      have given : lastGiven (call :: calls) threshold =
          (lastGiven calls threshold).or (if call.1 = threshold then some call.2 else none) := by
        unfold lastGiven lookupEntry
        rw [List.reverse_cons, List.find?_append, Option.map_or]
        by_cases same : call.1 = threshold
        · simp [same]
        · simp [same]
      rw [List.foldl_cons, ih, banded, given, Option.or_assoc]
      by_cases same : call.1 = threshold
      · simp [same]
      · simp [same]

theorem lookup_ofCalls (calls : List (Nat × MapType)) (threshold : Nat) :
    lookupEntry threshold (ofCalls calls).bands = lastGiven calls threshold :=
  (lookup_foldl_band calls threshold new).trans Option.or_none

theorem mem_bands_iff {band : Nat × MapType} :
    band ∈ (ofCalls calls).bands ↔ lastGiven calls band.1 = some band.2 := by
  have ascending : Ascending (ofCalls calls).bands := (ofCalls calls).sorted
  rw [← lookup_ofCalls]
  exact ascending.lookupEntry_eq_some.symm

theorem lastGiven_eq_none {threshold : Nat} :
    lastGiven calls threshold = none ↔ threshold ∉ calls.map Prod.fst := by
  simp only [lastGiven, lookupEntry, Option.map_eq_none_iff, List.find?_eq_none, List.mem_reverse,
    decide_eq_true_eq, List.mem_map, not_exists, not_and]

theorem mem_thresholds_of_band {band : Nat × MapType} (member : band ∈ (ofCalls calls).bands) :
    band.1 ∈ calls.map Prod.fst := by
  by_contra missing
  have given := mem_bands_iff.mp member
  rw [lastGiven_eq_none.mpr missing] at given
  cases given

theorem band_of_mem_thresholds {threshold : Nat} (member : threshold ∈ calls.map Prod.fst) :
    ∃ backend, (threshold, backend) ∈ (ofCalls calls).bands := by
  cases given : lastGiven calls threshold with
  | none => exact absurd member (lastGiven_eq_none.mp given)
  | some backend => exact ⟨backend, mem_bands_iff.mpr given⟩

/-! ## The index `backend_for` reads -/

/-- The bands fall into those at or below the capacity and those beyond it. -/
theorem bands_split (policy : Policy) (capacity : Nat) :
    ∃ fitting beyond, policy.bands = fitting ++ beyond ∧
      policy.partitionPoint capacity = fitting.length ∧ (∀ band ∈ fitting, band.1 ≤ capacity) ∧
      ∀ band ∈ beyond, capacity < band.1 := by
  refine ⟨policy.bands.takeWhile fun band => band.1 ≤ capacity,
    policy.bands.dropWhile fun band => band.1 ≤ capacity, List.takeWhile_append_dropWhile.symm, rfl,
    fun band member => by simpa using List.all_eq_true.mp List.all_takeWhile band member, ?_⟩
  have sorted := List.Pairwise.sublist (List.dropWhile_sublist fun band => decide (band.1 ≤ capacity)) policy.sorted
  cases rest : policy.bands.dropWhile fun band => decide (band.1 ≤ capacity) with
  | nil => simp
  | cons first beyond =>
      rw [rest] at sorted
      have large : capacity < first.1 := by
        have failed := List.head?_dropWhile_not (fun band : Nat × MapType => decide (band.1 ≤ capacity)) policy.bands
        simpa [rest] using failed
      intro band member
      cases List.mem_cons.mp member with
      | inl same => exact same ▸ large
      | inr member => exact large.trans ((List.pairwise_cons.mp sorted).1 band member)

theorem backendFor_last {policy : Policy} {fitting beyond : List (Nat × MapType)} {band : Nat × MapType}
    (bands : policy.bands = fitting ++ [band] ++ beyond)
    (point : policy.partitionPoint capacity = (fitting ++ [band]).length) :
    policy.backendFor capacity = band.2 := by
  simp [backendFor, point, bands]

theorem backendFor_none {policy : Policy} (point : policy.partitionPoint capacity = 0) :
    policy.backendFor capacity = (policy.bands.head?.map Prod.snd).getD .splitsies := by
  simp [backendFor, point, List.head?_eq_getElem?]

/-! ## The law -/

theorem thresholdAt_eq_none : thresholdAt calls capacity = none ↔ ∀ call ∈ calls, capacity < call.1 := by
  simp [thresholdAt, List.max?_eq_none_iff, List.filter_eq_nil_iff]

/-- With a band at or below the capacity the answer is the documented one. -/
theorem backendFor_of_fitting (fits : ∃ call ∈ calls, call.1 ≤ capacity) :
    (ofCalls calls).backendFor capacity = documentedBackend calls capacity := by
  obtain ⟨call, member, small⟩ := fits
  obtain ⟨fitting, beyond, bands, point, fitSmall, beyondLarge⟩ := bands_split (ofCalls calls) capacity
  have nonempty : fitting ≠ [] := by
    rintro rfl
    obtain ⟨backend, listed⟩ := band_of_mem_thresholds (List.mem_map_of_mem member)
    rw [bands, List.nil_append] at listed
    have large : capacity < call.1 := beyondLarge (call.1, backend) listed
    omega
  obtain ⟨earlier, last, rfl⟩ := (List.eq_nil_or_concat fitting).resolve_left nonempty
  rw [List.concat_eq_append] at bands point fitSmall
  have lastListed : last ∈ (ofCalls calls).bands := by simp [bands]
  have largest : ∀ band ∈ (ofCalls calls).bands, band.1 ≤ capacity → band.1 ≤ last.1 := by
    intro band listed below
    have sorted := (ofCalls calls).sorted
    rw [bands] at sorted listed
    cases List.mem_append.mp listed with
    | inr far => exact absurd below (Nat.not_le.mpr (beyondLarge band far))
    | inl near =>
        cases List.mem_append.mp near with
        | inl early => exact ((List.pairwise_append.mp (List.pairwise_append.mp sorted).1).2.2 band early last
            List.mem_cons_self).le
        | inr same => rw [List.mem_singleton.mp same]
  have threshold : thresholdAt calls capacity = some last.1 := by
    apply List.max?_eq_some_iff.mpr
    constructor
    · simpa [fitSmall last (by simp)] using mem_thresholds_of_band lastListed
    · intro other otherMember
      obtain ⟨given, below⟩ := List.mem_filter.mp otherMember
      obtain ⟨backend, listed⟩ := band_of_mem_thresholds given
      exact largest _ listed (by simpa using below)
  rw [backendFor_last bands point, documentedBackend, threshold, Option.bind_some,
    mem_bands_iff.mp lastListed, Option.getD_some]

/-- Below every band the saturating subtraction lands on the first one. -/
theorem backendFor_of_beyond (beyond : ∀ call ∈ calls, capacity < call.1) :
    (ofCalls calls).backendFor capacity =
      ((leastThreshold calls).bind (lastGiven calls)).getD .splitsies := by
  have point : (ofCalls calls).partitionPoint capacity = 0 := by
    unfold partitionPoint
    cases bands : (ofCalls calls).bands with
    | nil => rfl
    | cons first rest =>
        obtain ⟨call, member, same⟩ := List.mem_map.mp
          (@mem_thresholds_of_band calls first (by rw [bands]; exact List.mem_cons_self))
        have large := beyond call member
        rw [List.takeWhile_cons_of_neg (by simp; omega)]
        rfl
  rw [backendFor_none point]
  have sorted := (ofCalls calls).sorted
  cases bands : (ofCalls calls).bands with
  | nil =>
      have none_given : calls.map Prod.fst = [] := by
        apply List.eq_nil_iff_forall_not_mem.mpr
        intro threshold member
        obtain ⟨backend, listed⟩ := band_of_mem_thresholds member
        rw [bands] at listed
        cases listed
      rw [leastThreshold, none_given]
      rfl
  | cons first rest =>
      rw [bands] at sorted
      have firstListed : first ∈ (ofCalls calls).bands := by simp [bands]
      have least : leastThreshold calls = some first.1 := by
        apply List.min?_eq_some_iff.mpr
        constructor
        · exact mem_thresholds_of_band firstListed
        · intro other given
          obtain ⟨backend, listed⟩ := band_of_mem_thresholds given
          rw [bands] at listed
          cases List.mem_cons.mp listed with
          | inl same => rw [← same]
          | inr later => exact ((List.pairwise_cons.mp sorted).1 _ later).le
      rw [least, Option.bind_some, mem_bands_iff.mp firstListed]
      rfl

/-- `backend_for` gives the documented answer exactly when a band starts at or below
the capacity, there is no band, or the lowest band happens to be Splitsies. -/
theorem backend_for_documented_iff (calls : List (Nat × MapType)) (capacity : Nat) :
    (ofCalls calls).backendFor capacity = documentedBackend calls capacity ↔
      calls = [] ∨ (∃ call ∈ calls, call.1 ≤ capacity) ∨
        (leastThreshold calls).bind (lastGiven calls) = some .splitsies := by
  by_cases fits : ∃ call ∈ calls, call.1 ≤ capacity
  · exact iff_of_true (backendFor_of_fitting fits) (.inr (.inl fits))
  · have beyond : ∀ call ∈ calls, capacity < call.1 := by simpa using fits
    have documented : documentedBackend calls capacity = .splitsies := by
      rw [documentedBackend, thresholdAt_eq_none.mpr beyond]
      rfl
    rw [backendFor_of_beyond beyond, documented]
    cases calls with
    | nil => exact iff_of_true rfl (.inl rfl)
    | cons call calls =>
        have some_least : ∃ least, leastThreshold (call :: calls) = some least := ⟨_, List.min?_cons'⟩
        obtain ⟨least, leastEq⟩ := some_least
        have given : least ∈ (call :: calls).map Prod.fst := List.min?_mem leastEq
        rw [leastEq, Option.bind_some]
        cases last : lastGiven (call :: calls) least with
        | none => exact absurd given (lastGiven_eq_none.mp last)
        | some backend =>
            simp only [fits, reduceCtorEq, false_or, Option.getD_some, Option.some.injEq]

/-- A policy that starts at 10 answers with its own first band below it. -/
theorem backend_for_below_first_band :
    (ofCalls [(10, .ipo)]).backendFor 5 = .ipo ∧ documentedBackend [(10, .ipo)] 5 = .splitsies := by
  constructor <;> decide

end Policy

end Optimap.Opti
