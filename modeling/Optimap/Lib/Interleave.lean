import Mathlib.Tactic

/-!
# Rows of nodes and separators

A level of a search tree read from left to right alternates nodes and the
separators between them. Replacing every node by its own row gives the level
below, so cutting, joining and rotating nodes are equations between rows.
-/

set_option autoImplicit false

namespace Optimap.Lib

inductive Item (α β : Type) where
  | node (value : α)
  | sep (value : β)

namespace Item

variable {α β : Type}

/-- Separators with their left neighbours. -/
def lead : List α → List β → List (Item α β)
  | child :: children, key :: keys => .node child :: .sep key :: lead children keys
  | _, _ => []

/-- Separators with their right neighbours. -/
def trail : List β → List α → List (Item α β)
  | key :: keys, child :: children => .sep key :: .node child :: trail keys children
  | _, _ => []

/-- Children with the separators between them. -/
def row : List α → List β → List (Item α β)
  | [], _ => []
  | child :: children, keys => .node child :: trail keys children

def nodes (items : List (Item α β)) : List α :=
  items.filterMap fun
    | .node value => some value
    | .sep _ => none

@[simp] theorem nodes_nil : nodes ([] : List (Item α β)) = [] := rfl

@[simp] theorem nodes_node (value : α) (items : List (Item α β)) :
    nodes (.node value :: items) = value :: nodes items := rfl

@[simp] theorem nodes_sep (value : β) (items : List (Item α β)) :
    nodes (.sep value :: items) = nodes items := rfl

@[simp] theorem nodes_append (left right : List (Item α β)) :
    nodes (left ++ right) = nodes left ++ nodes right := by
  simp [nodes]

def seps (items : List (Item α β)) : List β :=
  items.filterMap fun
    | .node _ => none
    | .sep value => some value

@[simp] theorem seps_nil : seps ([] : List (Item α β)) = [] := rfl

@[simp] theorem seps_node (value : α) (items : List (Item α β)) :
    seps (.node value :: items) = seps items := rfl

@[simp] theorem seps_sep (value : β) (items : List (Item α β)) :
    seps (.sep value :: items) = value :: seps items := rfl

@[simp] theorem seps_append (left right : List (Item α β)) :
    seps (left ++ right) = seps left ++ seps right := by
  simp [seps]

/-- Renaming nodes and separators. -/
def map {γ δ : Type} (onNode : α → γ) (onSep : β → δ) : Item α β → Item γ δ
  | .node value => .node (onNode value)
  | .sep value => .sep (onSep value)

theorem nodes_map {γ δ : Type} (onNode : α → γ) (onSep : β → δ) (items : List (Item α β)) :
    nodes (items.map (map onNode onSep)) = (nodes items).map onNode := by
  induction items with
  | nil => rfl
  | cons item items ih => cases item <;> simp [map, ih]

theorem trail_map {γ δ : Type} (onNode : α → γ) (onSep : β → δ) (keys : List β) (children : List α) :
    (trail keys children).map (map onNode onSep) = trail (keys.map onSep) (children.map onNode) := by
  induction keys generalizing children with
  | nil => cases children <;> rfl
  | cons key keys ih =>
      cases children with
      | nil => rfl
      | cons child children => simp [trail, map, ih]

theorem row_map {γ δ : Type} (onNode : α → γ) (onSep : β → δ) (children : List α) (keys : List β) :
    (row children keys).map (map onNode onSep) = row (children.map onNode) (keys.map onSep) := by
  cases children with
  | nil => rfl
  | cons child children => simp [row, map, trail_map]

theorem mem_nodes {value : α} {items : List (Item α β)} :
    value ∈ nodes items ↔ .node value ∈ items := by
  induction items with
  | nil => simp
  | cons item items ih => cases item <;> simp [ih]

theorem nodes_split {items : List (Item α β)} {before after : List α} {value : α}
    (split : nodes items = before ++ value :: after) :
    ∃ left right, items = left ++ .node value :: right ∧ nodes left = before ∧ nodes right = after := by
  induction items generalizing before with
  | nil => simp at split
  | cons item items ih =>
      cases item with
      | sep key =>
          obtain ⟨left, right, rfl, rfl, rfl⟩ := ih split
          exact ⟨.sep key :: left, right, rfl, rfl, rfl⟩
      | node child =>
          cases before with
          | nil =>
              rw [nodes_node, List.nil_append] at split
              obtain ⟨rfl, rfl⟩ := List.cons.inj split
              exact ⟨[], items, rfl, rfl, rfl⟩
          | cons first before =>
              rw [nodes_node, List.cons_append] at split
              obtain ⟨rfl, rest⟩ := List.cons.inj split
              obtain ⟨left, right, rfl, rfl, rfl⟩ := ih rest
              exact ⟨.node child :: left, right, rfl, rfl, rfl⟩

theorem nodes_trail {keys : List β} {children : List α} (paired : keys.length = children.length) :
    nodes (trail keys children) = children := by
  induction keys generalizing children with
  | nil =>
      cases children with
      | nil => rfl
      | cons child children => simp at paired
  | cons key keys ih =>
      cases children with
      | nil => simp at paired
      | cons child children =>
          simp only [List.length_cons, Nat.add_right_cancel_iff] at paired
          simp [trail, ih paired]

theorem nodes_row {keys : List β} {children : List α} (paired : children.length = keys.length + 1) :
    nodes (row children keys) = children := by
  cases children with
  | nil => simp at paired
  | cons child children =>
      simp only [List.length_cons, Nat.add_right_cancel_iff] at paired
      simp [row, nodes_trail paired.symm]

theorem seps_trail {keys : List β} {children : List α} (paired : keys.length = children.length) :
    seps (trail keys children) = keys := by
  induction keys generalizing children with
  | nil => cases children <;> rfl
  | cons key keys ih =>
      cases children with
      | nil => simp at paired
      | cons child children =>
          simp only [List.length_cons, Nat.add_right_cancel_iff] at paired
          simp [trail, ih paired]

theorem seps_row {keys : List β} {children : List α} (paired : children.length = keys.length + 1) :
    seps (row children keys) = keys := by
  cases children with
  | nil => simp at paired
  | cons child children =>
      simp only [List.length_cons, Nat.add_right_cancel_iff] at paired
      simp [row, seps_trail paired.symm]

theorem trail_append {keys moreKeys : List β} {children moreChildren : List α}
    (paired : keys.length = children.length) :
    trail (keys ++ moreKeys) (children ++ moreChildren) =
      trail keys children ++ trail moreKeys moreChildren := by
  induction keys generalizing children with
  | nil =>
      cases children with
      | nil => simp [trail]
      | cons child children => simp at paired
  | cons key keys ih =>
      cases children with
      | nil => simp at paired
      | cons child children =>
          simp only [List.length_cons, Nat.add_right_cancel_iff] at paired
          simp [trail, ih paired]

theorem lead_concat {before : List α} {keys : List β} (child : α) (key : β)
    (paired : before.length = keys.length) :
    lead (before ++ [child]) (keys ++ [key]) = lead before keys ++ [.node child, .sep key] := by
  induction before generalizing keys with
  | nil =>
      cases keys with
      | nil => rfl
      | cons other keys => simp at paired
  | cons first before ih =>
      cases keys with
      | nil => simp at paired
      | cons other keys =>
          simp only [List.length_cons, Nat.add_right_cancel_iff] at paired
          simp [lead, ih paired]

/-- Joining two rows over a separator. -/
theorem row_append_sep {leftKeys rightKeys : List β} {leftChildren rightChildren : List α} (key : β)
    (leftPaired : leftChildren.length = leftKeys.length + 1) (nonempty : rightChildren ≠ []) :
    row (leftChildren ++ rightChildren) (leftKeys ++ key :: rightKeys) =
      row leftChildren leftKeys ++ .sep key :: row rightChildren rightKeys := by
  cases leftChildren with
  | nil => simp at leftPaired
  | cons child children =>
      cases rightChildren with
      | nil => exact absurd rfl nonempty
      | cons other others =>
          simp only [List.length_cons, Nat.add_right_cancel_iff] at leftPaired
          simp only [List.cons_append, row, trail_append leftPaired.symm, trail]

/-- Cutting a row at one of its separators. -/
theorem row_cut {children : List α} {keys : List β} {key : β} {mid : Nat}
    (paired : children.length = keys.length + 1) (found : keys[mid]? = some key) :
    row children keys = row (children.take (mid + 1)) (keys.take mid) ++
      .sep key :: row (children.drop (mid + 1)) (keys.drop (mid + 1)) := by
  obtain ⟨bound, rfl⟩ := List.getElem?_eq_some_iff.mp found
  have keysEq : keys = keys.take mid ++ keys[mid] :: keys.drop (mid + 1) := by simp
  have joined := @row_append_sep _ _ (keys.take mid) (keys.drop (mid + 1)) (children.take (mid + 1))
    (children.drop (mid + 1)) keys[mid]
    (by simp; omega) (by intro empty; have := congrArg List.length empty; simp at this; omega)
  rw [← keysEq, List.take_append_drop] at joined
  exact joined

/-- A row around one of its children. -/
theorem row_around {before after : List α} {keysBefore keysAfter : List β} (child : α)
    (paired : before.length = keysBefore.length) :
    row (before ++ child :: after) (keysBefore ++ keysAfter) =
      lead before keysBefore ++ .node child :: trail keysAfter after := by
  induction before generalizing keysBefore with
  | nil =>
      cases keysBefore with
      | nil => rfl
      | cons key keys => simp at paired
  | cons first before ih =>
      cases keysBefore with
      | nil => simp at paired
      | cons key keys =>
          simp only [List.length_cons, Nat.add_right_cancel_iff] at paired
          have rest := ih paired
          cases before with
          | nil =>
              cases keys with
              | nil => rfl
              | cons other keys => simp at paired
          | cons second before =>
              simp only [List.cons_append, row, lead, trail] at rest ⊢
              rw [rest]

/-- Every occurrence of a node in a row is one of its children. -/
theorem row_split {children : List α} {keys : List β} {left right : List (Item α β)} {child : α}
    (paired : children.length = keys.length + 1)
    (split : row children keys = left ++ .node child :: right) :
    ∃ before after keysBefore keysAfter, children = before ++ child :: after ∧
      keys = keysBefore ++ keysAfter ∧ before.length = keysBefore.length ∧
      after.length = keysAfter.length ∧ left = lead before keysBefore ∧
      right = trail keysAfter after := by
  induction children generalizing keys left with
  | nil => simp at paired
  | cons first children ih =>
      cases left with
      | nil =>
          simp only [row, List.nil_append, List.cons.injEq, Item.node.injEq] at split
          obtain ⟨rfl, rfl⟩ := split
          exact ⟨[], children, [], keys, rfl, rfl, rfl, by simpa using paired, rfl, rfl⟩
      | cons item left =>
          cases keys with
          | nil =>
              simp only [List.length_cons, List.length_nil] at paired
              obtain rfl : children = [] := List.length_eq_zero_iff.mp (by omega)
              simp [row, trail] at split
          | cons key keys =>
              cases children with
              | nil => simp at paired
              | cons second children =>
                  simp only [List.length_cons, Nat.add_right_cancel_iff] at paired
                  simp only [row, trail, List.cons_append, List.cons.injEq] at split
                  obtain ⟨rfl, split⟩ := split
                  cases left with
                  | nil => simp at split
                  | cons item left =>
                      simp only [List.cons_append, List.cons.injEq] at split
                      obtain ⟨rfl, split⟩ := split
                      obtain ⟨before, after, keysBefore, keysAfter, sameChildren, rfl, beforePaired,
                        afterPaired, rfl, rfl⟩ := @ih keys left
                          (by simp only [List.length_cons]; omega) (by simpa [row] using split)
                      refine ⟨first :: before, after, key :: keysBefore, keysAfter, ?_, rfl, ?_,
                        afterPaired, rfl, rfl⟩
                      · rw [sameChildren]; rfl
                      · simp [beforePaired]

/-- A leading row ends in a separator, unless it is empty. -/
theorem lead_getLast {before : List α} {keys : List β} (paired : before.length = keys.length) :
    lead before keys = [] ∨
      ∃ front key, lead before keys = front ++ [.sep key] ∧ keys.getLast? = some key := by
  induction before generalizing keys with
  | nil => exact .inl (by cases keys <;> rfl)
  | cons child before ih =>
      cases keys with
      | nil => simp at paired
      | cons key keys =>
          right
          simp only [List.length_cons, Nat.add_right_cancel_iff] at paired
          rcases ih paired with empty | ⟨front, last, same, final⟩
          · cases keys with
            | nil => exact ⟨[.node child], key, by simp [lead, empty], rfl⟩
            | cons other keys =>
                cases before with
                | nil => simp at paired
                | cons second before => simp [lead] at empty
          · refine ⟨.node child :: .sep key :: front, last, by simp [lead, same], ?_⟩
            cases keys with
            | nil => simp at final
            | cons other keys => simpa using final

end Item

/-- Where an element of a flattened list comes from. -/
theorem flatMap_split {α β : Type} {f : α → List β} {items : List α} {left right : List β} {value : β}
    (split : items.flatMap f = left ++ value :: right) :
    ∃ before item after front back, items = before ++ item :: after ∧
      f item = front ++ value :: back ∧ left = before.flatMap f ++ front ∧
      right = back ++ after.flatMap f := by
  induction items generalizing left with
  | nil => simp at split
  | cons item items ih =>
      rw [List.flatMap_cons, List.append_eq_append_iff] at split
      rcases split with ⟨middle, rfl, rest⟩ | ⟨middle, same, rest⟩
      · obtain ⟨before, found, after, front, back, rfl, inside, rfl, rfl⟩ := ih rest
        exact ⟨item :: before, found, after, front, back, rfl, inside, by simp, rfl⟩
      · cases middle with
        | nil =>
            simp only [List.append_nil, List.nil_append] at same rest
            obtain ⟨before, found, after, front, back, rfl, inside, empty, rfl⟩ :=
              @ih [] rest.symm
            refine ⟨item :: before, found, after, front, back, rfl, inside, ?_, rfl⟩
            rw [List.flatMap_cons, List.append_assoc, ← empty, same, List.append_nil]
        | cons head middle =>
            simp only [List.cons_append, List.cons.injEq] at rest
            obtain ⟨rfl, rfl⟩ := rest
            exact ⟨[], item, items, left, middle, rfl, same, by simp, rfl⟩

end Optimap.Lib
