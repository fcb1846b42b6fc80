/-
What one step of a run does to one tag:

* `Dfa.getElem?_openTags`: leaving a state opens the tags that start in it;
* `Dfa.getElem?_closeTags`: leaving a state closes the open tags that end in it, in place of what was
  closed before;
* `Dfa.runFrom_stay`, `Dfa.runFrom_leave`, `Dfa.runFrom_dead`: the three things that a run may do on a
  symbol;
* `Dfa.run_bind`: a whole run closes what it closes from the initial state on.
-/
import CaptureAutomata.Dfa.Run
import Mathlib

namespace CaptureAutomata.Dfa

variable {D A T : Type} [Key D] [Key A] [Key T] {m : Dfa D A T} {d d' : D} {position : Nat}
  {opened : KeyMap T Nat} {closed : Spans T} {t : T}

/-! ### Opening and closing -/

/-- The tags that start in a state are open at the position where it is left, the others as before. -/
lemma getElem?_openTags :
    (m.openTags d position opened)[t]? =
      if t ∈ m.tagsStarting d then some position else opened[t]? := by
  have hfold : ∀ (names : List T) (opened : KeyMap T Nat),
      (names.foldl (fun opened name => opened.insert name position) opened)[t]? =
        if t ∈ names then some position else opened[t]? := by
    intro names
    induction names with
    | nil => simp
    | cons name names ih =>
        intro opened
        rw [List.foldl_cons, ih, Std.ExtTreeMap.getElem?_insert]
        by_cases ht : t ∈ names
        · simp [ht]
        · by_cases hname : name = t
          · simp [hname]
          · simp [ht, hname, Ne.symm hname]
  rw [openTags, hfold]
  simp only [Std.ExtTreeSet.mem_toList]

/-- One tag after those of a list with different names were closed. -/
lemma getElem?_foldl_close {ending : KeySet T} {l : List (T × Nat)} {closed : Spans T}
    (hl : l.Pairwise fun p q => p.1 ≠ q.1) :
    (l.foldl (fun closed p =>
        if p.1 ∈ ending then closed.insert p.1 ⟨p.2, position⟩ else closed) closed)[t]? =
      if t ∈ ending then
        ((l.find? fun p => p.1 = t).map fun p => ⟨p.2, position⟩).or closed[t]?
      else closed[t]? := by
  induction l generalizing closed with
  | nil => simp
  | cons p l ih =>
      obtain ⟨hp, hl⟩ := List.pairwise_cons.1 hl
      rw [List.foldl_cons, ih hl]
      by_cases hpt : p.1 = t
      · have hnone : (l.find? fun q => q.1 = t) = none :=
          List.find?_eq_none.2 fun q hq => by
            simpa using fun h => hp q hq (hpt.trans h.symm)
        by_cases hend : t ∈ ending
        · simp [hpt, hend, hnone]
        · simp [hpt, hend]
      · have hother : (if p.1 ∈ ending then closed.insert p.1 ⟨p.2, position⟩ else closed)[t]? =
            closed[t]? := by
          split
          · rw [Std.ExtTreeMap.getElem?_insert, if_neg fun h => hpt (Key.compare_eq_iff.1 h)]
          · rfl
        rw [hother]
        simp [hpt]

/-- An open tag that ends in a state is closed at the position where the state is left. -/
lemma getElem?_closeTags :
    (m.closeTags d position opened closed)[t]? =
      if t ∈ m.tagsEnding d then (opened[t]?.map fun start => ⟨start, position⟩).or closed[t]?
      else closed[t]? := by
  have hdistinct : opened.toList.Pairwise fun p q => p.1 ≠ q.1 :=
    Std.ExtTreeMap.distinct_keys_toList.imp fun h heq => h (Key.compare_eq_iff.2 heq)
  have hfind : ((opened.toList.find? fun p => p.1 = t).map fun p => (⟨p.2, position⟩ : Span)) =
      opened[t]?.map fun start => ⟨start, position⟩ := by
    cases hf : opened.toList.find? fun p => p.1 = t with
    | none =>
        cases h : opened[t]? with
        | none => rfl
        | some start =>
            have hmem := Std.ExtTreeMap.mem_toList_iff_getElem?_eq_some.2 h
            simpa using List.find?_eq_none.1 hf _ hmem
    | some p =>
        obtain rfl : p.1 = t := by simpa using List.find?_some hf
        have hmem := List.mem_of_find?_eq_some hf
        rw [Std.ExtTreeMap.mem_toList_iff_getElem?_eq_some.1 hmem]
        rfl
  rw [closeTags, getElem?_foldl_close hdistinct, hfind]

/-! ### Steps -/

variable {a : A} {rest : List A}

/-- A run stays in a state without touching its tags. -/
lemma runFrom_stay (h : m.next? d a = some d) :
    m.runFrom d position opened closed (a :: rest) =
      m.runFrom d (position + 1) opened closed rest := by
  rw [runFrom]
  simp only [h, if_true]

/-- A run that leaves a state closes and opens its tags. -/
lemma runFrom_leave (h : m.next? d a = some d') (hne : d' ≠ d) :
    m.runFrom d position opened closed (a :: rest) =
      m.runFrom d' (position + 1) (m.openTags d position opened)
        (m.closeTags d position opened closed) rest := by
  rw [runFrom]
  simp only [h, if_neg hne]

/-- A run ends on a symbol without a transition, and closes the tags of its last state. -/
lemma runFrom_dead (h : m.next? d a = none) :
    m.runFrom d position opened closed (a :: rest) =
      (m.closeTags d position opened closed, position + 1) := by
  rw [runFrom]
  simp only [h]

/-- The spans of a run are those that were closed, if any. -/
lemma run_bind (i : Nat) (symbols : List A) (t : T) :
    (m.run i symbols).1.bind (·[t]?) = (m.runFrom m.initial i ∅ ∅ symbols).1[t]? := by
  rw [run]
  by_cases hempty : (m.runFrom m.initial i ∅ ∅ symbols).1.isEmpty = true
  · simp only [hempty, if_true, Option.bind_none]
    rw [Std.ExtTreeMap.isEmpty_iff.1 hempty]
    simp
  · simp only [hempty]
    rfl

end CaptureAutomata.Dfa
