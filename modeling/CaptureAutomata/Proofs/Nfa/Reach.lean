/-
Which states an automaton can be in after reading a word:

* `Run.append_iff`: a run over two words is cut where the first of them has been read;
* `Run.read_iff`: a run over one symbol takes one transition on it, with silent runs around;
* `mem_epsilonClosure`, `exists_epsilonClosure`: the silent closure of some states is there, and holds
  the ends of the silent runs from them;
* `reaches_append_singleton`: the states reached by one more symbol.
-/
import Mathlib
import CaptureAutomata.Nfa.Run
import CaptureAutomata.Proofs.Graph.Edges

namespace CaptureAutomata

namespace Nfa

variable {S A T : Type} [Key S] [Key A] {m : Nfa S A T}

/-! ### Cutting runs -/

/-- A run over two words is a run over the first and then a run over the second. -/
lemma Run.append_iff {s u : S} {w x : List A} :
    m.Run s (w ++ x) u ↔ ∃ t, m.Run s w t ∧ m.Run t x u := by
  refine ⟨fun h => ?_, fun ⟨t, hw, hx⟩ => hw.append hx⟩
  generalize hy : w ++ x = y at h
  induction h generalizing w with
  | nil s =>
      obtain ⟨rfl, rfl⟩ := List.append_eq_nil_iff.1 hy
      exact ⟨s, .nil s, .nil s⟩
  | silent h _ ih =>
      obtain ⟨t, hw, hx⟩ := ih hy
      exact ⟨t, .silent h hw, hx⟩
  | @read s _ _ a y h r ih =>
      cases w with
      | nil =>
          rw [List.nil_append] at hy
          exact ⟨s, .nil s, hy ▸ .read h r⟩
      | cons b w =>
          obtain ⟨rfl, htail⟩ := List.cons.inj hy
          obtain ⟨t, hw, hx⟩ := ih htail
          exact ⟨t, .read h hw, hx⟩

/-- A run over one symbol takes one transition on it, between two silent runs. -/
lemma Run.read_iff {s u : S} {a : A} :
    m.Run s [a] u ↔
      ∃ r t, m.Run s [] r ∧ t ∈ m.graph.targets r (some a) ∧ m.Run t [] u := by
  constructor
  · intro h
    generalize hy : [a] = y at h
    induction h with
    | nil s => cases hy
    | silent h _ ih =>
        obtain ⟨r, t, hr, ht, hu⟩ := ih hy
        exact ⟨r, t, .silent h hr, ht, hu⟩
    | @read s t _ b y h k _ =>
        obtain ⟨rfl, rfl⟩ := List.cons.inj hy
        exact ⟨s, t, .nil s, h, k⟩
  · rintro ⟨r, t, hr, ht, hu⟩
    exact hr.append (.read ht hu)

/-- What is reached by one more symbol lies behind a transition on it and a silent run. -/
lemma reaches_append_singleton {w : List A} {a : A} {u : S} :
    m.Reaches (w ++ [a]) u ↔
      ∃ r t, m.Reaches w r ∧ t ∈ m.graph.targets r (some a) ∧ m.Run t [] u := by
  rw [Reaches, Run.append_iff]
  constructor
  · rintro ⟨s, hs, hu⟩
    obtain ⟨r, t, hr, ht, hu⟩ := Run.read_iff.1 hu
    exact ⟨r, t, by simpa [Reaches] using hs.append hr, ht, hu⟩
  · rintro ⟨r, t, hr, ht, hu⟩
    exact ⟨r, hr, .read ht hu⟩

lemma Reaches.silent {w : List A} {s t : S} (h : m.Reaches w s) (k : m.Run s [] t) :
    m.Reaches w t := by
  simpa [Reaches] using Run.append h k

/-- A state that is left is a state of the automaton, and so is every state entered. -/
lemma mem_states_of_reaches {w : List A} {s : S} (h : m.Reaches w s) : s ∈ m.states := by
  have hrun : ∀ {r u : S} {x : List A}, m.Run r x u → r ∈ m.states → u ∈ m.states := by
    intro r u x h
    induction h with
    | nil _ => exact id
    | silent h _ ih =>
        exact fun _ => ih (NondeterministicGraph.mem_vertices_of_mem_targets h).2
    | read h _ ih =>
        exact fun _ => ih (NondeterministicGraph.mem_vertices_of_mem_targets h).2
  exact hrun h (Std.ExtTreeMap.mem_keys.2 (Std.ExtTreeMap.contains_iff_mem.1 m.initial_mem))

/-! ### Silent closures -/

/-- What is reachable without reading is the end of a silent run. -/
lemma reachable_iff_run {states : List S} {s : S} :
    m.graph.toDigraph.Reachable (silent : Traversal S (Option A)).accepts states s ↔
      ∃ r ∈ states, m.Run r [] s := by
  constructor
  · intro h
    induction h with
    | start h => exact ⟨_, h, .nil _⟩
    | @step v e _ he hf ih =>
        obtain ⟨r, hr, hv⟩ := ih
        obtain ⟨rfl, ht⟩ := NondeterministicGraph.mem_edgesFrom.1 he
        have hl : e.label = none := by simpa [silent] using hf
        rw [hl] at ht
        exact ⟨r, hr, by simpa using hv.append (.silent ht (.nil _))⟩
  · rintro ⟨r, hr, h⟩
    have hrun : ∀ {r u : S} {x : List A}, m.Run r x u → x = [] →
        m.graph.toDigraph.Reachable (silent : Traversal S (Option A)).accepts states r →
        m.graph.toDigraph.Reachable (silent : Traversal S (Option A)).accepts states u := by
      intro r u x h
      induction h with
      | nil _ => exact fun _ hr => hr
      | @silent s t _ _ h _ ih =>
          intro hx hr
          have he : (⟨s, none, t⟩ : Edge S (Option A)) ∈ m.graph.toDigraph.edgesFrom s :=
            NondeterministicGraph.mem_edgesFrom.2 ⟨rfl, h⟩
          exact ih hx (hr.step he rfl)
      | read _ _ _ => exact fun hx => by cases hx
    exact hrun h rfl (.start hr)

/-- The silent closure of some states holds the ends of the silent runs from them. -/
lemma mem_epsilonClosure {states : List S} {closed : KeySet S} {s : S}
    (h : m.epsilonClosure states = .ok closed) : s ∈ closed ↔ ∃ r ∈ states, m.Run r [] s := by
  rw [Traversal.mem_closure h, reachable_iff_run]

/-- States of the automaton have a silent closure. -/
lemma exists_epsilonClosure {states : List S} (h : ∀ s ∈ states, s ∈ m.states) :
    ∃ closed, m.epsilonClosure states = .ok closed := by
  obtain ⟨starts, hstarts⟩ : ∃ starts,
      (silent : Traversal S (Option A)).starts m.graph.toDigraph states = .ok starts :=
    Traversal.exists_starts h
  exact ⟨_, by rw [epsilonClosure, Traversal.closure, hstarts]; rfl⟩

end Nfa

end CaptureAutomata
