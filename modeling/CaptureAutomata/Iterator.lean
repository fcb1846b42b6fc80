/-
Iterators, which give one item at a call and nothing any more when there are none left:

* `Iterator.nth`: what an iterator gives at a call that others came before;
* `Iterator.Lists`: every call gives the first of the items that are left, and leaves the others;
* `Iterator.Lists.nth_eq`: such an iterator gives a list, item by item, and then nothing.
-/
import Mathlib.Tactic.Lemma

namespace CaptureAutomata.Iterator

variable {σ β : Type} {next : σ → Option β × σ} {left : σ → List β}

/-- What the iterator gives at the call that `n` calls come before. -/
def nth (next : σ → Option β × σ) (s : σ) : Nat → Option β
  | 0 => (next s).1
  | n + 1 => nth next (next s).2 n

/-- Every call gives the first of the items that are left, and leaves the others. -/
structure Lists (next : σ → Option β × σ) (left : σ → List β) : Prop where
  /-- The first item is given. -/
  head_eq : ∀ s, (next s).1 = (left s).head?
  /-- The others are left. -/
  tail_eq : ∀ s, left (next s).2 = (left s).tail

namespace Lists

/-- It is enough to look at one call, the one that is made first. -/
lemma of_call (h : ∀ s, (next s).1 = (left s).head? ∧ left (next s).2 = (left s).tail) :
    Lists next left :=
  ⟨fun s => (h s).1, fun s => (h s).2⟩

/-- The items are given one by one, and nothing comes after them. -/
lemma nth_eq (h : Lists next left) (s : σ) (n : Nat) : nth next s n = (left s)[n]? := by
  induction n generalizing s with
  | zero => rw [nth, h.head_eq, List.head?_eq_getElem?]
  | succ n ih => rw [nth, ih, h.tail_eq, List.getElem?_tail]

/-- An item that is given was the first of those left. -/
lemma eq_cons (h : Lists next left) {s s' : σ} {b : β} (hs : next s = (some b, s')) :
    left s = b :: left s' := by
  have hhead := h.head_eq s
  have htail := h.tail_eq s
  rw [hs] at hhead htail
  obtain ⟨rest, hrest⟩ := List.head?_eq_some_iff.1 hhead.symm
  rw [htail, hrest, List.tail_cons]

/-- If nothing is given, nothing was left, and nothing is. -/
lemma eq_nil (h : Lists next left) {s s' : σ} (hs : next s = (none, s')) :
    left s = [] ∧ left s' = [] := by
  have hhead := h.head_eq s
  have htail := h.tail_eq s
  rw [hs] at hhead htail
  have hnil := List.head?_eq_none_iff.1 hhead.symm
  exact ⟨hnil, by rw [htail, hnil, List.tail_nil]⟩

end Lists

end CaptureAutomata.Iterator
