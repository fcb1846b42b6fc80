/-
Sorting by an order that may put different values level:

* `sortBy`: the members of a list in order. It inserts them one by one, which takes one comparison
  each if they are in order already, as the edges of a graph are by nature;
* `perm_sortBy`: nothing is lost or added.
-/

namespace CaptureAutomata

variable {α : Type} {le : α → α → Bool}

/-- Puts `a` before the first member of a list that may stand behind it. -/
def insertBy (le : α → α → Bool) (a : α) : List α → List α
  | [] => [a]
  | b :: l => if le a b then a :: b :: l else b :: insertBy le a l

/-- The members of a list in order, level ones as they were given. -/
def sortBy (le : α → α → Bool) (l : List α) : List α :=
  l.foldr (insertBy le) []

/-- Inserting adds one member. -/
theorem perm_insertBy (a : α) (l : List α) : (insertBy le a l).Perm (a :: l) := by
  induction l with
  | nil => rfl
  | cons b l ih =>
    rw [insertBy]
    split
    · rfl
    · exact (ih.cons b).trans (.swap a b l)

/-- Sorting keeps all members, as often as they occur. -/
theorem perm_sortBy (l : List α) : (sortBy le l).Perm l := by
  induction l with
  | nil => rfl
  | cons a l ih => exact (perm_insertBy a _).trans (ih.cons a)

@[simp] theorem mem_sortBy {a : α} {l : List α} : a ∈ sortBy le l ↔ a ∈ l :=
  (perm_sortBy l).mem_iff

end CaptureAutomata
