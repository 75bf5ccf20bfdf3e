import Mathlib.Data.List.Count
import Mathlib.Tactic

/-!
# Counting sort

The positions of a list, grouped by a label below `buckets`: sizes are tallied,
their running sums open a range for each label, and a cursor per label fills it.
-/

set_option autoImplicit false

namespace Optimap.Lib

namespace CountingSort

/-- How often each label occurs. -/
def tally (buckets : Nat) (labels : List Nat) : List Nat :=
  labels.foldl (fun sizes label => sizes.modify label (· + 1)) (List.replicate buckets 0)

/-- Where the range of each label starts, and the end of the last range. -/
def offsets (sizes : List Nat) : List Nat := sizes.scanl (· + ·) 0

/-- Cursors of the labels and the positions scattered so far. -/
structure Scatter where
  cursor : List Nat
  keys : List Nat

def Scatter.put (state : Scatter) (label position : Nat) : Scatter where
  cursor := state.cursor.modify label (· + 1)
  keys := state.keys.set (state.cursor.getD label 0) position

/-- The positions from `first` on, with their labels. -/
def scatter : List Nat → Nat → Scatter → Scatter
  | [], _, state => state
  | label :: labels, first, state => scatter labels (first + 1) (state.put label first)

def grouped (buckets : Nat) (labels : List Nat) : List Nat :=
  let starts := offsets (tally buckets labels)
  (scatter labels 0 ⟨starts.take buckets, List.replicate labels.length 0⟩).keys

/-- The part of the grouped positions between two offsets. -/
def slice (keys starts : List Nat) (label : Nat) : List Nat :=
  (keys.take (starts.getD (label + 1) 0)).drop (starts.getD label 0)

variable {buckets : Nat} {labels : List Nat}

theorem tally_fold (sizes : List Nat) (labels : List Nat) (label : Nat) :
    (labels.foldl (fun sizes label => sizes.modify label (· + 1)) sizes)[label]? =
      sizes[label]?.map (· + labels.count label) := by
  induction labels generalizing sizes with
  | nil => simp
  | cons head labels ih =>
      rw [List.foldl_cons, ih, List.getElem?_modify, List.count_cons]
      cases sizes[label]? with
      | none => rfl
      | some size =>
          by_cases same : head = label
          · subst same
            simp
            omega
          · simp [same]

theorem tally_getElem {label : Nat} (inside : label < buckets) :
    (tally buckets labels)[label]? = some (labels.count label) := by
  rw [tally, tally_fold, List.getElem?_replicate, if_pos inside]
  simp

theorem tally_length : (tally buckets labels).length = buckets := by
  have kept : ∀ (labels sizes : List Nat),
      (labels.foldl (fun sizes label => sizes.modify label (· + 1)) sizes).length = sizes.length := by
    intro labels
    induction labels with
    | nil => intro sizes; rfl
    | cons head labels ih => intro sizes; rw [List.foldl_cons, ih, List.length_modify]
  rw [tally, kept, List.length_replicate]

theorem scanl_getElem (sizes : List Nat) (start label : Nat) (inside : label ≤ sizes.length) :
    (sizes.scanl (· + ·) start)[label]? = some (start + (sizes.take label).sum) := by
  induction sizes generalizing start label with
  | nil =>
      obtain rfl : label = 0 := by simpa using inside
      simp
  | cons size sizes ih =>
      cases label with
      | zero => simp
      | succ label =>
          rw [List.scanl_cons, List.getElem?_cons_succ, ih _ _ (by simpa using inside)]
          simp [Nat.add_assoc]

theorem countP_lt_succ (labels : List Nat) (label : Nat) :
    labels.countP (· < label + 1) = labels.countP (· < label) + labels.count label := by
  induction labels with
  | nil => rfl
  | cons head labels ih =>
      simp only [List.countP_cons, List.count_cons, ih, decide_eq_true_eq, beq_iff_eq]
      split <;> split <;> split <;> omega

/-- A label's range starts after the smaller labels. -/
theorem offsets_getElem {label : Nat} (inside : label ≤ buckets) :
    (offsets (tally buckets labels))[label]? = some (labels.countP (· < label)) := by
  rw [offsets, scanl_getElem _ _ _ (by rw [tally_length]; exact inside), Nat.zero_add]
  induction label with
  | zero => simp
  | succ label ih =>
      have found : (tally buckets labels)[label]? = some (labels.count label) := tally_getElem (by omega)
      have before := ih (by omega)
      rw [Option.some.injEq] at before ⊢
      rw [List.take_add_one, List.sum_append, found, countP_lt_succ, before]
      simp

/-- Where the cursor of its label puts a position: after the smaller labels and
after the earlier positions of the label. -/
def target (labels : List Nat) (label position : Nat) : Nat :=
  labels.countP (· < label) + (labels.take position).count label

theorem countP_lt_mono (labels : List Nat) {low high : Nat} (le : low ≤ high) :
    labels.countP (· < low) ≤ labels.countP (· < high) :=
  List.countP_mono_left fun other _ below => by simp at below ⊢; omega

theorem count_take_lt {label position : Nat} (found : labels[position]? = some label) :
    (labels.take position).count label < labels.count label := by
  have bound := (List.getElem?_eq_some_iff.mp found).1
  have split : labels = labels.take position ++ label :: labels.drop (position + 1) := by
    conv_lhs => rw [← List.take_append_drop position labels]
    rw [List.drop_eq_getElem_cons bound, (List.getElem?_eq_some_iff.mp found).2]
  have total := congrArg (List.count label) split
  rw [List.count_append, List.count_cons_self] at total
  omega

theorem target_lt {label position : Nat} (found : labels[position]? = some label) :
    target labels label position < labels.countP (· < label + 1) := by
  rw [target, countP_lt_succ]
  exact Nat.add_lt_add_left (count_take_lt found) _

theorem target_lt_length {label position : Nat} (found : labels[position]? = some label) :
    target labels label position < labels.length :=
  lt_of_lt_of_le (target_lt found) List.countP_le_length

/-- Two positions are never put in one place. -/
theorem target_ne {label other position later : Nat} (found : labels[position]? = some label)
    (foundLater : labels[later]? = some other) (before : position < later) :
    target labels label position ≠ target labels other later := by
  rcases lt_trichotomy label other with below | same | above
  · have upper := target_lt found
    have step := countP_lt_mono labels (show label + 1 ≤ other from below)
    have lower : labels.countP (· < other) ≤ target labels other later := Nat.le_add_right _ _
    omega
  · subst same
    have prefixes : labels.take position = (labels.take later).take position := by
      rw [List.take_take, min_eq_left (Nat.le_of_lt before)]
    have inLater : (labels.take later)[position]? = some label := by
      rw [List.getElem?_take, if_pos before, found]
    have strict := count_take_lt inLater
    rw [← prefixes] at strict
    unfold target
    omega
  · have upper := target_lt foundLater
    have step := countP_lt_mono labels (show other + 1 ≤ label from above)
    have lower : labels.countP (· < label) ≤ target labels label position := Nat.le_add_right _ _
    omega

/-- After the positions below `first`, each cursor stands behind its label's
positions so far, and each of them is in its place. -/
structure Scattered (buckets : Nat) (labels : List Nat) (first : Nat) (state : Scatter) : Prop where
  cursor : ∀ label < buckets,
    state.cursor[label]? = some (labels.countP (· < label) + (labels.take first).count label)
  length : state.keys.length = labels.length
  placed : ∀ position < first, ∀ label, labels[position]? = some label →
    state.keys[target labels label position]? = some position

theorem Scattered.put {state : Scatter} {first label : Nat} (scattered : Scattered buckets labels first state)
    (found : labels[first]? = some label) (inside : label < buckets) :
    Scattered buckets labels (first + 1) (state.put label first) := by
  have here : state.cursor.getD label 0 = target labels label first := by
    rw [List.getD_eq_getElem?_getD, scattered.cursor label inside]
    rfl
  have bound := (List.getElem?_eq_some_iff.mp found).1
  refine ⟨?_, ?_, ?_⟩
  · intro other otherInside
    have taken : labels.take (first + 1) = labels.take first ++ [label] := by
      rw [List.take_add_one, found]
      rfl
    rw [Scatter.put, List.getElem?_modify, scattered.cursor other otherInside, taken, List.count_append]
    by_cases same : label = other
    · subst same
      simp
      omega
    · simp [same]
  · rw [Scatter.put, List.length_set, scattered.length]
  · intro position below other foundOther
    rw [Scatter.put, here, List.getElem?_set]
    rcases Nat.lt_succ_iff_lt_or_eq.mp below with earlier | rfl
    · rw [if_neg (target_ne foundOther found earlier).symm]
      exact scattered.placed position earlier other foundOther
    · obtain rfl : label = other := Option.some.inj (found.symm.trans foundOther)
      rw [if_pos rfl, if_pos (by rw [scattered.length]; exact target_lt_length found)]

theorem Scattered.scatter {rest : List Nat} {state : Scatter} {first : Nat}
    (below : ∀ label ∈ labels, label < buckets) (suffix : labels.drop first = rest)
    (scattered : Scattered buckets labels first state) :
    Scattered buckets labels labels.length (scatter rest first state) := by
  induction rest generalizing first state with
  | nil =>
      have done : labels.length ≤ first := by simpa using suffix
      refine ⟨?_, scattered.length, ?_⟩
      · intro label inside
        rw [CountingSort.scatter, scattered.cursor label inside, List.take_of_length_le done, List.take_length]
      · intro position bound
        exact scattered.placed position (by omega)
  | cons label rest ih =>
      have found : labels[first]? = some label := by
        have head := congrArg List.head? suffix
        rwa [List.head?_drop, List.head?_cons] at head
      have next : labels.drop (first + 1) = rest := by
        rw [← List.tail_drop, suffix, List.tail_cons]
      exact ih next (scattered.put found (below label (List.mem_of_getElem? found)))

/-- Every position stands in the range of its label. -/
theorem mem_slice_grouped {position label : Nat} (below : ∀ label ∈ labels, label < buckets)
    (found : labels[position]? = some label) :
    position ∈ slice (grouped buckets labels) (offsets (tally buckets labels)) label := by
  have inside := below label (List.mem_of_getElem? found)
  have start : Scattered buckets labels 0
      ⟨(offsets (tally buckets labels)).take buckets, List.replicate labels.length 0⟩ := by
    refine ⟨?_, List.length_replicate, ?_⟩
    · intro other otherInside
      rw [List.getElem?_take, if_pos otherInside, offsets_getElem (by omega)]
      simp
    · intro other impossible
      omega
  have done := start.scatter below (List.drop_zero)
  have placed := done.placed position (List.getElem?_eq_some_iff.mp found).1 label found
  have lower : labels.countP (· < label) ≤ target labels label position := Nat.le_add_right _ _
  have upper := target_lt found
  rw [slice, List.getD_eq_getElem?_getD, List.getD_eq_getElem?_getD, offsets_getElem (by omega),
    offsets_getElem (by omega), Option.getD_some, Option.getD_some]
  refine List.mem_of_getElem? (i := target labels label position - labels.countP (· < label)) ?_
  rw [List.getElem?_drop, Nat.add_sub_cancel' lower, List.getElem?_take, if_pos upper]
  exact placed

/-- A label that does not occur has an empty range. -/
theorem slice_eq_nil {keys : List Nat} {label : Nat} (inside : label < buckets)
    (none : labels.count label = 0) : slice keys (offsets (tally buckets labels)) label = [] := by
  rw [slice, List.getD_eq_getElem?_getD, List.getD_eq_getElem?_getD, offsets_getElem (by omega),
    offsets_getElem (by omega), Option.getD_some, Option.getD_some, countP_lt_succ, none, Nat.add_zero,
    List.drop_eq_nil_iff, List.length_take]
  exact min_le_left _ _

end CountingSort

end Optimap.Lib
