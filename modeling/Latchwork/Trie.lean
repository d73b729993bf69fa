import Latchwork.Text.Basic

/-!
# Tries

A trie holds values by the steps that lead to them. Looking up a value and putting one in take as
many moves as there are steps. Main statements: `get?_insert_self` and `get?_insert_of_ne`, by which
a trie is a map from lists of steps to values.
-/

namespace Latchwork

/-- Values by the steps that lead to them: the value where no step is left, and what lies below each
first step. -/
inductive Trie (α : Type) where
  | node (value? : Option α) (children : List (Text × Trie α))
  deriving Repr

namespace Trie

variable {α : Type}

/-- The trie without values. -/
def empty : Trie α := .node none []

/-- The value where no step is left. -/
def value? : Trie α → Option α
  | .node value? _ => value?

/-- What lies below each first step. -/
def children : Trie α → List (Text × Trie α)
  | .node _ children => children

/-- What lies below a step, among the children of a trie. -/
def childIn (step : Text) : List (Text × Trie α) → Trie α
  | [] => empty
  | (other, t) :: rest => if other = step then t else childIn step rest

/-- What lies below some steps. -/
def under (t : Trie α) : List Text → Trie α
  | [] => t
  | step :: rest => (childIn step t.children).under rest

/-- The value that steps lead to. -/
def get? (t : Trie α) (steps : List Text) : Option α := (t.under steps).value?

/-- Children with the one below a step replaced; a new step comes last. -/
def setChildIn (step : Text) (child : Trie α) : List (Text × Trie α) → List (Text × Trie α)
  | [] => [(step, child)]
  | (other, t) :: rest =>
    if other = step then (other, child) :: rest else (other, t) :: setChildIn step child rest

/-- Lets steps lead to a value. -/
def insert (t : Trie α) (value : α) : List Text → Trie α
  | [] => .node (some value) t.children
  | step :: rest =>
    .node t.value? (setChildIn step ((childIn step t.children).insert value rest) t.children)

mutual
/-- The values with the steps that lead to them. -/
def toList : Trie α → List (List Text × α)
  | .node value? children => value?.toList.map (fun value => ([], value)) ++ toListIn children

/-- The values below some children with the steps that lead to them. -/
def toListIn : List (Text × Trie α) → List (List Text × α)
  | [] => []
  | (step, t) :: rest => t.toList.map (fun e => (step :: e.1, e.2)) ++ toListIn rest
end

/-- Below the replaced step lies what it was replaced with. -/
@[simp] theorem childIn_setChildIn_self (step : Text) (child : Trie α)
    (children : List (Text × Trie α)) : childIn step (setChildIn step child children) = child := by
  induction children with
  | nil => simp [setChildIn, childIn]
  | cons c rest ih =>
    obtain ⟨other, t⟩ := c
    by_cases h : other = step <;> simp [setChildIn, childIn, h, ih]

/-- Below other steps lies what lay there. -/
theorem childIn_setChildIn_of_ne {step other : Text} (h : other ≠ step) (child : Trie α)
    (children : List (Text × Trie α)) :
    childIn other (setChildIn step child children) = childIn other children := by
  induction children with
  | nil => simp [setChildIn, childIn, h.symm]
  | cons c rest ih =>
    obtain ⟨first, t⟩ := c
    by_cases hs : first = step
    · subst hs
      simp [setChildIn, childIn, h.symm]
    · by_cases ho : first = other
      · simp [setChildIn, childIn, hs, ← ho]
      · simp [setChildIn, childIn, hs, ho, ih]

/-- Without steps there is the value of the trie itself. -/
@[simp] theorem get?_nil (t : Trie α) : t.get? [] = t.value? := rfl

/-- The first step leads to a child. -/
@[simp] theorem get?_cons (t : Trie α) (step : Text) (rest : List Text) :
    t.get? (step :: rest) = (childIn step t.children).get? rest := rfl

/-- Nothing is found in the trie without values. -/
@[simp] theorem get?_empty (steps : List Text) : (empty : Trie α).get? steps = none := by
  induction steps with
  | nil => rfl
  | cons step rest ih => exact ih

/-- Steps lead to the value that was put there. -/
@[simp] theorem get?_insert_self (t : Trie α) (value : α) (steps : List Text) :
    (t.insert value steps).get? steps = some value := by
  induction steps generalizing t with
  | nil => rfl
  | cons step rest ih => simp [insert, children, ih]

/-- Other steps lead to what they led to. -/
theorem get?_insert_of_ne (t : Trie α) (value : α) {steps others : List Text} (h : others ≠ steps) :
    (t.insert value steps).get? others = t.get? others := by
  induction steps generalizing t others with
  | nil =>
    cases others with
    | nil => exact absurd rfl h
    | cons step rest => rfl
  | cons step rest ih =>
    cases others with
    | nil => rfl
    | cons other others =>
      by_cases hs : other = step
      · subst hs
        have hne : others ≠ rest := fun heq => h (heq ▸ rfl)
        simp [insert, children, ih _ hne]
      · simp [insert, children, childIn_setChildIn_of_ne hs]

end Trie

end Latchwork
