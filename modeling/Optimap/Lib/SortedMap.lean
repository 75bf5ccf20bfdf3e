import Mathlib.Order.Basic
import Mathlib.Tactic

/-!
# Sorted finite maps

A finite map listed in ascending key order. Each operation is characterised by
the place of its key in the list.
-/

set_option autoImplicit false

namespace Optimap.Lib

variable {K V : Type} [LinearOrder K]

def Ascending (entries : List (K × V)) : Prop :=
  entries.Pairwise fun lower upper => lower.1 < upper.1

/-- `key` belongs between the two lists. -/
structure Between (key : K) (below above : List (K × V)) : Prop where
  below_lt : ∀ entry ∈ below, entry.1 < key
  lt_above : ∀ entry ∈ above, key < entry.1

theorem Ascending.between_of_split {below above : List (K × V)} {entry : K × V}
    (ascending : Ascending (below ++ entry :: above)) : Between entry.1 below above := by
  obtain ⟨_, rest, cross⟩ := List.pairwise_append.mp ascending
  exact ⟨fun lower member => cross lower member entry List.mem_cons_self,
    (List.pairwise_cons.mp rest).1⟩

theorem Ascending.remove {below above : List (K × V)} {entry : K × V}
    (ascending : Ascending (below ++ entry :: above)) : Ascending (below ++ above) :=
  List.Pairwise.sublist (List.Sublist.append_left (List.sublist_cons_self _ _) _) ascending

theorem Ascending.insert_between {below above : List (K × V)} {key : K} (value : V)
    (ascending : Ascending (below ++ above)) (between : Between key below above) :
    Ascending (below ++ (key, value) :: above) := by
  obtain ⟨belowAscending, aboveAscending, cross⟩ := List.pairwise_append.mp ascending
  refine List.pairwise_append.mpr ⟨belowAscending,
    List.pairwise_cons.mpr ⟨between.lt_above, aboveAscending⟩, ?_⟩
  intro lower lowerMember upper upperMember
  rcases List.mem_cons.mp upperMember with rfl | upperMember
  · exact between.below_lt lower lowerMember
  · exact cross lower lowerMember upper upperMember

theorem Ascending.replace {below above : List (K × V)} {key : K} {old : V} (value : V)
    (ascending : Ascending (below ++ (key, old) :: above)) :
    Ascending (below ++ (key, value) :: above) :=
  ascending.remove.insert_between value ascending.between_of_split

def lookupEntry (key : K) (entries : List (K × V)) : Option V :=
  (entries.find? fun entry => entry.1 = key).map Prod.snd

def insertEntry (key : K) (value : V) : List (K × V) → List (K × V)
  | [] => [(key, value)]
  | entry :: entries =>
      if entry.1 < key then entry :: insertEntry key value entries
      else if entry.1 = key then (key, value) :: entries
      else (key, value) :: entry :: entries

def eraseEntry (key : K) (entries : List (K × V)) : List (K × V) :=
  entries.filter fun entry => entry.1 ≠ key

section Located
variable {key : K} {below above : List (K × V)}

theorem lookupEntry_vacant (between : Between key below above) :
    lookupEntry key (below ++ above) = none := by
  have missing : (below ++ above).find? (fun entry => entry.1 = key) = none := by
    rw [List.find?_eq_none]
    intro entry member
    rcases List.mem_append.mp member with low | high
    · simpa using (between.below_lt entry low).ne
    · simpa using (between.lt_above entry high).ne'
  simp [lookupEntry, missing]

theorem lookupEntry_occupied (value : V) (between : Between key below above) :
    lookupEntry key (below ++ (key, value) :: above) = some value := by
  have missing : below.find? (fun entry => entry.1 = key) = none := by
    rw [List.find?_eq_none]
    intro entry low
    simpa using (between.below_lt entry low).ne
  simp [lookupEntry, missing]

theorem insertEntry_of_below (value : V) {rest : List (K × V)}
    (small : ∀ entry ∈ below, entry.1 < key) :
    insertEntry key value (below ++ rest) = below ++ insertEntry key value rest := by
  induction below with
  | nil => rfl
  | cons entry below ih =>
      rw [List.cons_append, insertEntry, if_pos (small entry List.mem_cons_self),
        ih fun other member => small other (List.mem_cons_of_mem _ member), List.cons_append]

theorem insertEntry_vacant (value : V) (between : Between key below above) :
    insertEntry key value (below ++ above) = below ++ (key, value) :: above := by
  rw [insertEntry_of_below value between.below_lt]
  cases above with
  | nil => rfl
  | cons entry above =>
      have larger := between.lt_above entry List.mem_cons_self
      rw [insertEntry, if_neg larger.not_gt, if_neg larger.ne']

theorem insertEntry_occupied (old value : V) (between : Between key below above) :
    insertEntry key value (below ++ (key, old) :: above) = below ++ (key, value) :: above := by
  rw [insertEntry_of_below value between.below_lt, insertEntry, if_neg (lt_irrefl _), if_pos rfl]

theorem eraseEntry_vacant (between : Between key below above) :
    eraseEntry key (below ++ above) = below ++ above := by
  refine List.filter_eq_self.mpr fun entry member => ?_
  rcases List.mem_append.mp member with low | high
  · simpa using (between.below_lt entry low).ne
  · simpa using (between.lt_above entry high).ne'

theorem eraseEntry_occupied (value : V) (between : Between key below above) :
    eraseEntry key (below ++ (key, value) :: above) = below ++ above := by
  have rest := eraseEntry_vacant between
  simp only [eraseEntry, List.filter_append] at rest ⊢
  rw [List.filter_cons_of_neg (by simp), rest]

end Located

/-- In an ascending list every key has its place. -/
theorem Ascending.locate {entries : List (K × V)} (ascending : Ascending entries) (key : K) :
    (∃ below above, entries = below ++ above ∧ Between key below above) ∨
      ∃ below value above, entries = below ++ (key, value) :: above := by
  induction entries with
  | nil => exact .inl ⟨[], [], rfl, by simp, by simp⟩
  | cons entry entries ih =>
      obtain ⟨smallest, rest⟩ := List.pairwise_cons.mp ascending
      rcases lt_trichotomy entry.1 key with smaller | same | larger
      · rcases ih rest with ⟨below, above, rfl, between⟩ | ⟨below, value, above, rfl⟩
        · refine .inl ⟨entry :: below, above, rfl, ?_, between.lt_above⟩
          intro other member
          rcases List.mem_cons.mp member with rfl | member
          · exact smaller
          · exact between.below_lt other member
        · exact .inr ⟨entry :: below, value, above, rfl⟩
      · exact .inr ⟨[], entry.2, entries, by rw [← same]; rfl⟩
      · refine .inl ⟨[], entry :: entries, rfl, by simp, ?_⟩
        intro other member
        rcases List.mem_cons.mp member with rfl | member
        · exact larger
        · exact larger.trans (smallest other member)

theorem Ascending.insertEntry {entries : List (K × V)} (ascending : Ascending entries) (key : K)
    (value : V) : Ascending (insertEntry key value entries) := by
  rcases ascending.locate key with ⟨below, above, rfl, between⟩ | ⟨below, old, above, rfl⟩
  · rw [insertEntry_vacant value between]
    exact ascending.insert_between value between
  · rw [insertEntry_occupied old value ascending.between_of_split]
    exact ascending.replace value

theorem Ascending.eraseEntry {entries : List (K × V)} (ascending : Ascending entries) (key : K) :
    Ascending (eraseEntry key entries) :=
  List.Pairwise.sublist (List.filter_sublist) ascending

theorem Ascending.lookupEntry_eq_some {entries : List (K × V)} (ascending : Ascending entries) {key : K}
    {value : V} : lookupEntry key entries = some value ↔ (key, value) ∈ entries := by
  constructor
  · intro found
    obtain ⟨entry, isFirst, rfl⟩ := Option.map_eq_some_iff.mp found
    have sameKey : entry.1 = key := by simpa using List.find?_some isFirst
    rw [← sameKey]
    exact List.mem_of_find?_eq_some isFirst
  · intro member
    obtain ⟨below, above, rfl⟩ := List.append_of_mem member
    exact lookupEntry_occupied value ascending.between_of_split

/-- An ascending list is determined by its lookups. -/
theorem Ascending.ext_lookup {left right : List (K × V)} (leftAscending : Ascending left)
    (rightAscending : Ascending right) (same : ∀ key, lookupEntry key left = lookupEntry key right) :
    left = right := by
  have : Std.Irrefl fun lower upper : K × V => lower.1 < upper.1 := ⟨fun _ => lt_irrefl _⟩
  have : Std.Asymm fun lower upper : K × V => lower.1 < upper.1 := ⟨fun _ _ => lt_asymm⟩
  refine List.Pairwise.eq_of_mem_iff leftAscending rightAscending fun entry => ?_
  rw [← leftAscending.lookupEntry_eq_some, ← rightAscending.lookupEntry_eq_some, same]

theorem Ascending.lookupEntry_insertEntry {entries : List (K × V)} (ascending : Ascending entries)
    (key other : K) (value : V) :
    lookupEntry other (Lib.insertEntry key value entries) =
      if key = other then some value else lookupEntry other entries := by
  have inserted := ascending.insertEntry key value
  rcases ascending.locate key with ⟨below, above, rfl, between⟩ | ⟨below, old, above, rfl⟩
  · rw [insertEntry_vacant value between] at inserted ⊢
    split
    · next same => exact same ▸ lookupEntry_occupied value between
    · next different => simp [lookupEntry, List.find?_append, different]
  · have between := ascending.between_of_split
    rw [insertEntry_occupied old value between]
    split
    · next same => exact same ▸ lookupEntry_occupied value between
    · next different => simp [lookupEntry, List.find?_append, different]

/-- The entries of `right` are inserted one by one. -/
def insertEntries (left right : List (K × V)) : List (K × V) :=
  right.foldl (fun entries pair => insertEntry pair.1 pair.2 entries) left

theorem Ascending.insertEntries {left : List (K × V)} (ascending : Ascending left) (right : List (K × V)) :
    Ascending (insertEntries left right) := by
  induction right generalizing left with
  | nil => exact ascending
  | cons pair right ih => exact ih (ascending.insertEntry pair.1 pair.2)

/-- The union of two sorted lists prefers the entries of the second. -/
theorem Ascending.lookupEntry_insertEntries {left right : List (K × V)} (leftAscending : Ascending left)
    (rightAscending : Ascending right) (key : K) :
    lookupEntry key (Lib.insertEntries left right) = (lookupEntry key right).or (lookupEntry key left) := by
  induction right generalizing left with
  | nil => rfl
  | cons pair right ih =>
      obtain ⟨least, rest⟩ := List.pairwise_cons.mp rightAscending
      have step : Lib.insertEntries left (pair :: right) = Lib.insertEntries (Lib.insertEntry pair.1 pair.2 left) right := rfl
      rw [step, ih (leftAscending.insertEntry pair.1 pair.2) rest, leftAscending.lookupEntry_insertEntry]
      by_cases same : pair.1 = key
      · subst same
        have missing : lookupEntry pair.1 right = none := by
          have absent : right.find? (fun entry => entry.1 = pair.1) = none :=
            List.find?_eq_none.mpr fun entry member => by simpa using (least entry member).ne'
          rw [lookupEntry, absent]
          rfl
        rw [missing, if_pos rfl]
        simp [lookupEntry]
      · rw [if_neg same]
        simp [lookupEntry, same]

/-- Whatever ascends and has these lookups is the union. -/
theorem eq_insertEntries {left right merged : List (K × V)} (leftAscending : Ascending left)
    (rightAscending : Ascending right) (ascending : Ascending merged)
    (lookups : ∀ key, lookupEntry key merged = (lookupEntry key right).or (lookupEntry key left)) :
    merged = insertEntries left right :=
  ascending.ext_lookup (leftAscending.insertEntries right) fun key => by
    rw [lookups, leftAscending.lookupEntry_insertEntries rightAscending]

section Apart
variable {left right : List (K × V)} (leftAscending : Ascending left) (rightAscending : Ascending right)
  (apart : ∀ entry ∈ left, ∀ entry' ∈ right, entry.1 < entry'.1)
include leftAscending rightAscending apart

/-- No key is in both of two lists that lie apart. -/
theorem lookupEntry_apart (key : K) :
    (lookupEntry key right).or (lookupEntry key left) = (lookupEntry key left).or (lookupEntry key right) := by
  cases inLeft : lookupEntry key left with
  | none => rw [Option.none_or, Option.or_none]
  | some value =>
      have missing : lookupEntry key right = none := by
        cases inRight : lookupEntry key right with
        | none => rfl
        | some value' =>
            exact absurd (apart _ (leftAscending.lookupEntry_eq_some.mp inLeft) _
              (rightAscending.lookupEntry_eq_some.mp inRight)) (lt_irrefl key)
      rw [missing, Option.none_or, Option.some_or]

/-- Lists one after the other are their union, whichever is inserted into which. -/
theorem append_eq_insertEntries :
    left ++ right = insertEntries left right ∧ left ++ right = insertEntries right left := by
  have ascending : Ascending (left ++ right) :=
    List.pairwise_append.mpr ⟨leftAscending, rightAscending, apart⟩
  have found : ∀ key, lookupEntry key (left ++ right) = (lookupEntry key left).or (lookupEntry key right) := by
    intro key
    simp [lookupEntry, List.find?_append, Option.map_or]
  refine ⟨eq_insertEntries leftAscending rightAscending ascending fun key => ?_,
    eq_insertEntries rightAscending leftAscending ascending found⟩
  rw [found, lookupEntry_apart leftAscending rightAscending apart]

end Apart

section Parting
variable {pivot : K}

/-- The entries below a key and the others. -/
def belowKey (pivot : K) (entries : List (K × V)) : List (K × V) := entries.filter fun entry => entry.1 < pivot

def fromKey (pivot : K) (entries : List (K × V)) : List (K × V) := entries.filter fun entry => pivot ≤ entry.1

theorem parts_of_append {lower upper : List (K × V)} (small : ∀ entry ∈ lower, entry.1 < pivot)
    (large : ∀ entry ∈ upper, pivot ≤ entry.1) :
    belowKey pivot (lower ++ upper) = lower ∧ fromKey pivot (lower ++ upper) = upper := by
  have smallPart : lower.filter (fun entry => decide (pivot ≤ entry.1)) = [] :=
    List.filter_eq_nil_iff.mpr fun entry member => by simpa using small entry member
  have largePart : upper.filter (fun entry => decide (entry.1 < pivot)) = [] :=
    List.filter_eq_nil_iff.mpr fun entry member => by simpa using large entry member
  refine ⟨?_, ?_⟩
  · rw [belowKey, List.filter_append, largePart, List.append_nil]
    exact List.filter_eq_self.mpr fun entry member => by simpa using small entry member
  · rw [fromKey, List.filter_append, smallPart, List.nil_append]
    exact List.filter_eq_self.mpr fun entry member => by simpa using large entry member

end Parting

structure SortedMap (K V : Type) [LinearOrder K] where
  entries : List (K × V)
  ascending : Ascending entries

namespace SortedMap

def empty : SortedMap K V := ⟨[], .nil⟩

def lookup (map : SortedMap K V) (key : K) : Option V := lookupEntry key map.entries

def insert (map : SortedMap K V) (key : K) (value : V) : SortedMap K V :=
  ⟨insertEntry key value map.entries, map.ascending.insertEntry key value⟩

def erase (map : SortedMap K V) (key : K) : SortedMap K V :=
  ⟨eraseEntry key map.entries, map.ascending.eraseEntry key⟩

def first (map : SortedMap K V) : Option (K × V) := map.entries.head?

def last (map : SortedMap K V) : Option (K × V) := map.entries.getLast?

def eraseFirst (map : SortedMap K V) : SortedMap K V :=
  ⟨map.entries.tail, List.Pairwise.sublist (List.tail_sublist _) map.ascending⟩

def eraseLast (map : SortedMap K V) : SortedMap K V :=
  ⟨map.entries.dropLast, List.Pairwise.sublist (List.dropLast_sublist _) map.ascending⟩

/-- Of a key in both, the value in `right` stays. -/
def union (left right : SortedMap K V) : SortedMap K V :=
  ⟨insertEntries left.entries right.entries, left.ascending.insertEntries right.entries⟩

theorem lookup_union (left right : SortedMap K V) (key : K) :
    (left.union right).lookup key = (right.lookup key).or (left.lookup key) :=
  left.ascending.lookupEntry_insertEntries right.ascending key

/-- The part below a key. -/
def below (map : SortedMap K V) (pivot : K) : SortedMap K V := ⟨belowKey pivot map.entries, map.ascending.filter _⟩

/-- The part from a key on. -/
def upFrom (map : SortedMap K V) (pivot : K) : SortedMap K V := ⟨fromKey pivot map.entries, map.ascending.filter _⟩

theorem ext {left right : SortedMap K V} (same : left.entries = right.entries) : left = right := by
  cases left
  cases right
  cases same
  rfl

end SortedMap

end Optimap.Lib
