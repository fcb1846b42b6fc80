/-
What building a deterministic automaton keeps:

* `DeterministicGraph.Builder.target?`: the target that a builder has for a vertex and a label;
  `target?_vertex`, `target?_edges`, `target?_path` and `mem_vertex`, `mem_edges`, `mem_path` say what an
  addition changes;
* `target?_foldl_path`: edges that do not contradict each other are all there after they were added;
* `DeterministicGraph.Builder.exists_build`: a builder whose targets are vertices can be built;
* `Dfa.Builder.exists_build`: so can an automaton whose initial state and tagged states are vertices,
  and it keeps all that was collected.
-/
import CaptureAutomata.Dfa.Basic
import CaptureAutomata.Proofs.Key
import Mathlib

namespace CaptureAutomata

/-! ### Graphs -/

namespace DeterministicGraph

variable {V E : Type} [Key V] [Key E]

/-- The target of a vertex and a label, read off the adjacency with defaults. -/
lemma target?_eq (g : DeterministicGraph V E) (v : V) (l : E) :
    g.target? v l = (g.adjacency.getD v ∅)[l]? := by
  rw [target?, Std.ExtTreeMap.getD_eq_getD_getElem?]
  cases g.adjacency[v]? <;> simp

lemma ext_adjacency {g h : DeterministicGraph V E} (hgh : g.adjacency = h.adjacency) : g = h := by
  cases g
  cases h
  cases hgh
  rfl

lemma contains_of_target? {g : DeterministicGraph V E} {v w : V} {l : E}
    (h : g.target? v l = some w) : g.contains w = true := by
  obtain ⟨targets, hv, hl⟩ := Option.bind_eq_some_iff.1 h
  exact g.target_mem ⟨v, l, w⟩ (mem_edgesOf.2 ⟨targets, hv, hl⟩)

namespace Builder

/-- The target that has been collected for a vertex and a label. -/
def target? (b : Builder V E) (v : V) (l : E) : Option V :=
  (b.adjacency.getD v ∅)[l]?

variable {b : Builder V E} {v w s t : V} {k l : E}

@[simp] lemma target?_vertex : (b.vertex w).target? v l = b.target? v l := by
  rw [target?, vertex, KeyMap.getD_insertIfNew_default, target?]

lemma target?_edges {targets : KeyMap E V} :
    (b.edges s targets).target? v k = if v = s then targets[k]? else b.target? v k := by
  rw [target?, target?, edges, KeyMap.getD_insert]
  split <;> rfl

/-- An added edge is the only one with its source and label. -/
lemma target?_path :
    (b.path s l t).target? v k = if v = s ∧ k = l then some t else b.target? v k := by
  rw [← target?_vertex (b := b) (w := t), target?, target?, path, KeyMap.getD_insert]
  by_cases hv : v = s
  · subst hv
    rw [if_pos rfl, KeyMap.getElem?_insert]
    simp
  · simp [hv]

@[simp] lemma mem_vertex : v ∈ (b.vertex s).adjacency ↔ v = s ∨ v ∈ b.adjacency := by
  rw [vertex, Std.ExtTreeMap.mem_insertIfNew, Key.compare_eq_iff, eq_comm]

@[simp] lemma mem_edges {targets : KeyMap E V} :
    v ∈ (b.edges s targets).adjacency ↔ v = s ∨ v ∈ b.adjacency := by
  rw [edges, Std.ExtTreeMap.mem_insert, Key.compare_eq_iff, eq_comm]

@[simp] lemma mem_path : v ∈ (b.path s l t).adjacency ↔ v = s ∨ v = t ∨ v ∈ b.adjacency := by
  simp only [path, vertex, Std.ExtTreeMap.mem_insert, Std.ExtTreeMap.mem_insertIfNew,
    Key.compare_eq_iff]
  simp only [eq_comm]

/-- Edges that were added bring their ends, and nothing else. -/
lemma mem_foldl_path {es : List (Edge V E)} :
    v ∈ (es.foldl (fun b e => b.path e.source e.label e.target) b).adjacency ↔
      v ∈ b.adjacency ∨ ∃ e ∈ es, v = e.source ∨ v = e.target := by
  induction es generalizing b with
  | nil => simp
  | cons e es ih =>
      rw [List.foldl_cons, ih, mem_path]
      simp only [List.mem_cons, exists_eq_or_imp]
      grind

/-- Edges that agree with each other and with those before them are all there after they were
added, and no others are. -/
lemma target?_foldl_path {es : List (Edge V E)}
    (hes : ∀ e ∈ es, ∀ f ∈ es, e.source = f.source → e.label = f.label → e.target = f.target)
    (hb : ∀ e ∈ es, ∀ u, b.target? e.source e.label = some u → u = e.target) :
    (es.foldl (fun b e => b.path e.source e.label e.target) b).target? v l = some w ↔
      b.target? v l = some w ∨ ⟨v, l, w⟩ ∈ es := by
  induction es generalizing b with
  | nil => simp
  | cons e es ih =>
      rw [List.foldl_cons, ih]
      · rw [target?_path, List.mem_cons]
        split
        next h =>
          obtain ⟨rfl, rfl⟩ := h
          constructor
          · rintro (h | h)
            · obtain rfl := Option.some.inj h
              exact Or.inr (Or.inl rfl)
            · exact Or.inr (Or.inr h)
          · rintro (h | h | h)
            · exact Or.inl (by rw [hb e (.head _) w h])
            · exact Or.inl (by rw [← h])
            · exact Or.inr h
        next h =>
          have hne : (⟨v, l, w⟩ : Edge V E) ≠ e := fun he => h (by rw [← he]; exact ⟨rfl, rfl⟩)
          simp [hne]
      · exact fun f hf f' hf' => hes f (.tail _ hf) f' (.tail _ hf')
      · intro f hf u hu
        rw [target?_path] at hu
        split at hu
        next h =>
          obtain rfl := Option.some.inj hu
          exact hes e (.head _) f (.tail _ hf) h.1.symm h.2.symm
        next => exact hb f (.tail _ hf) u hu

/-- Building succeeds when no edge is dangling, and keeps all that was collected. -/
lemma build_eq_ok_iff {b : Builder V E} {g : DeterministicGraph V E} :
    b.build = .ok g ↔ b.dangling? = none ∧ g.adjacency = b.adjacency := by
  rw [build]
  split
  next e h => simp [h]
  next h =>
    rw [Except.ok.injEq]
    exact ⟨fun hg => hg ▸ ⟨h, rfl⟩, fun hg => ext_adjacency hg.2.symm⟩

/-- Building fails with the first dangling edge. -/
lemma build_eq_error_iff {b : Builder V E} {u : Undefined V E} :
    b.build = .error u ↔ ∃ e, b.dangling? = some e ∧ u = .edgeEnd e := by
  rw [build]
  split
  next e h => simp [h, eq_comm]
  next h => simp [h]

/-- A builder whose targets are vertices can be built, and keeps all that was collected. -/
lemma exists_build (h : ∀ v l t, b.target? v l = some t → t ∈ b.adjacency) :
    ∃ g, b.build = .ok g ∧ g.adjacency = b.adjacency := by
  have hd : b.dangling? = none := by
    refine List.find?_eq_none.2 fun e he => ?_
    obtain ⟨targets, hs, ht⟩ := mem_edgesOf.1 he
    have hmem := h e.source e.label e.target
      (by rw [target?, Std.ExtTreeMap.getD_eq_getD_getElem?, hs]; exact ht)
    simpa [contains] using hmem
  exact ⟨⟨b.adjacency, target_mem_of_dangling? hd⟩, build_eq_ok_iff.2 ⟨hd, rfl⟩, rfl⟩

end Builder

end DeterministicGraph

/-! ### Automata -/

/-- Transitions leave states. -/
lemma Dfa.mem_states_of_next? {D A T : Type} [Key D] [Key A] [Key T] {m : Dfa D A T} {d d' : D}
    {a : A} (h : m.next? d a = some d') : d ∈ m.states := by
  rw [states, Std.ExtTreeMap.mem_keys]
  by_contra hd
  rw [next?, DeterministicGraph.target?_eq, Std.ExtTreeMap.getD_eq_fallback hd] at h
  simp at h

/-- A symbol on which no state has a transition leads nowhere. -/
lemma Dfa.next?_eq_none {D A T : Type} [Key D] [Key A] [Key T] {m : Dfa D A T} {a : A}
    (h : ∀ d ∈ m.states, m.next? d a = none) (d : D) : m.next? d a = none := by
  by_contra hnext
  obtain ⟨d', hd'⟩ := Option.ne_none_iff_exists'.1 hnext
  exact hnext (h d (mem_states_of_next? hd'))

namespace Dfa.Builder

variable {D A T : Type} [Key D] [Key A] [Key T] {b : Builder D A T}

/-- An automaton whose targets, initial state and tagged states are vertices can be built, and keeps
all that was collected. -/
lemma exists_build (ht : ∀ v l t, b.graph.target? v l = some t → t ∈ b.graph.adjacency)
    (hi : b.initial ∈ b.graph.adjacency) (hs : ∀ d ∈ b.starting, d ∈ b.graph.adjacency)
    (he : ∀ d ∈ b.ending, d ∈ b.graph.adjacency) :
    ∃ d, b.build = .ok d ∧ d.initial = b.initial ∧ d.graph.adjacency = b.graph.adjacency ∧
      d.starting = b.starting ∧ d.ending = b.ending := by
  obtain ⟨g, hg, hadj⟩ := DeterministicGraph.Builder.exists_build ht
  have hcontains : ∀ {d}, d ∈ b.graph.adjacency → g.contains d = true := fun h => by
    rw [DeterministicGraph.contains, hadj]
    exact Std.ExtTreeMap.contains_iff_mem.2 h
  have hmissing : ∀ {tags : KeyMap D (KeySet T)}, (∀ d ∈ tags, d ∈ b.graph.adjacency) →
      missing? g tags = none := fun h =>
    List.find?_eq_none.2 fun d hd => by simp [hcontains (h d (Std.ExtTreeMap.mem_keys.1 hd))]
  rw [build, hg]
  simp only [hcontains hi, ↓reduceDIte]
  split
  next d hd => exact absurd hd (by rw [hmissing hs]; exact Option.some_ne_none d ∘ Eq.symm)
  next =>
    split
    next d hd => exact absurd hd (by rw [hmissing he]; exact Option.some_ne_none d ∘ Eq.symm)
    next => exact ⟨_, rfl, rfl, hadj, rfl, rfl⟩

end Dfa.Builder

end CaptureAutomata
