/-
What maps on keys are looked up to:

* `KeyMap.getElem?_insert`, `KeyMap.getD_insert`: what is found after an insertion;
* `KeyMap.getD_insertIfNew_default`, `KeyMap.ext_getD`: maps that are looked up with a default.
-/
import CaptureAutomata.Key
import Mathlib.Tactic.Lemma

namespace CaptureAutomata.KeyMap

variable {α β : Type} [Key α]

lemma getElem?_insert (m : KeyMap α β) (a b : α) (c : β) :
    (m.insert a c)[b]? = if b = a then some c else m[b]? := by
  rw [Std.ExtTreeMap.getElem?_insert]
  simp only [Key.compare_eq_iff, eq_comm (a := a)]

lemma getD_insert (m : KeyMap α β) (a b : α) (c d : β) :
    (m.insert a c).getD b d = if b = a then c else m.getD b d := by
  rw [Std.ExtTreeMap.getD_insert]
  simp only [Key.compare_eq_iff, eq_comm (a := a)]

/-- What a key is mapped to by default may as well be written down. -/
@[simp] lemma getD_insertIfNew_default (m : KeyMap α β) (a b : α) (d : β) :
    (m.insertIfNew a d).getD b d = m.getD b d := by
  rw [Std.ExtTreeMap.getD_insertIfNew]
  split
  next h =>
    obtain ⟨heq, ha⟩ := h
    obtain rfl := Key.compare_eq_iff.1 heq
    rw [Std.ExtTreeMap.getD_eq_fallback ha]
  next => rfl

/-- Maps with the same keys and the same values, by some default, are the same. -/
lemma ext_getD {m m' : KeyMap α β} (d : β) (hmem : ∀ a, a ∈ m ↔ a ∈ m')
    (hget : ∀ a, m.getD a d = m'.getD a d) : m = m' := by
  refine Std.ExtTreeMap.ext_getElem? fun a => ?_
  have hmem := hmem a
  have hget := hget a
  rw [Std.ExtTreeMap.getD_eq_getD_getElem?, Std.ExtTreeMap.getD_eq_getD_getElem?] at hget
  rw [Std.ExtTreeMap.mem_iff_isSome_getElem?, Std.ExtTreeMap.mem_iff_isSome_getElem?] at hmem
  cases hm : m[a]? <;> cases hm' : m'[a]? <;> simp_all

end CaptureAutomata.KeyMap
