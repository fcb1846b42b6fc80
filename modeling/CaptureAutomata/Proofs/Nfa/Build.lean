/-
What building a nondeterministic automaton keeps:

* `NondeterministicGraph.Builder.HasEdge`: the edges that a builder has; `hasEdge_vertex`, `hasEdge_edges`
  and `hasEdge_path` say what an addition changes, `mem_vertex`, `mem_edges`, `mem_path` and `size_vertex`,
  `size_path` what it does to the vertices;
* `NondeterministicGraph.Builder.exists_build`: a builder whose edges enter vertices can be built;
* `Nfa.Builder.exists_build`: so can an automaton whose initial state and tagged states are vertices,
  and it keeps all that was collected.
-/
import CaptureAutomata.Nfa.Basic
import CaptureAutomata.Proofs.Graph.Edges
import CaptureAutomata.Proofs.Key

namespace CaptureAutomata

/-! ### Graphs -/

namespace NondeterministicGraph

variable {V E : Type} [Key V] [Key E]

lemma ext_adjacency {g h : NondeterministicGraph V E} (hgh : g.adjacency = h.adjacency) :
    g = h := by
  cases g
  cases h
  cases hgh
  rfl

namespace Builder

/-- The builder has an edge from `v` to `w` with the label `l`. -/
def HasEdge (b : Builder V E) (v : V) (l : E) (w : V) : Prop :=
  w ∈ (b.adjacency.getD v ∅).getD l ∅

variable {b : Builder V E} {v w s t : V} {k l : E}

lemma HasEdge.mem (h : b.HasEdge v l w) : v ∈ b.adjacency := by
  by_contra hv
  rw [HasEdge, Std.ExtTreeMap.getD_eq_fallback hv] at h
  simp at h

@[simp] lemma mem_vertex : v ∈ (b.vertex s).adjacency ↔ v = s ∨ v ∈ b.adjacency := by
  rw [vertex, Std.ExtTreeMap.mem_insertIfNew, Key.compare_eq_iff, eq_comm]

@[simp] lemma hasEdge_vertex : (b.vertex s).HasEdge v l w ↔ b.HasEdge v l w := by
  rw [HasEdge, vertex, KeyMap.getD_insertIfNew_default, HasEdge]

/-- Added edges are there besides those that were there before. -/
@[simp] lemma hasEdge_edges {ends : List V} :
    (b.edges s l ends).HasEdge v k w ↔ v = s ∧ k = l ∧ w ∈ ends ∨ b.HasEdge v k w := by
  rw [HasEdge, HasEdge, edges, KeyMap.getD_insert]
  by_cases hv : v = s
  · subst hv
    rw [if_pos rfl, KeyMap.getD_insert]
    by_cases hk : k = l
    · subst hk
      rw [if_pos rfl, Std.ExtTreeSet.mem_insertMany_list]
      simp [or_comm]
    · simp [hk]
  · simp [hv]

@[simp] lemma mem_edges {ends : List V} :
    v ∈ (b.edges s l ends).adjacency ↔ v = s ∨ v ∈ b.adjacency := by
  rw [edges, Std.ExtTreeMap.mem_insert, Key.compare_eq_iff, eq_comm]

@[simp] lemma hasEdge_path :
    (b.path s l t).HasEdge v k w ↔ v = s ∧ k = l ∧ w = t ∨ b.HasEdge v k w := by
  rw [path, hasEdge_edges, hasEdge_vertex, List.mem_singleton]

@[simp] lemma mem_path : v ∈ (b.path s l t).adjacency ↔ v = s ∨ v = t ∨ v ∈ b.adjacency := by
  rw [path, mem_edges, mem_vertex]

/-- A vertex that was not there adds one to the size. -/
lemma size_vertex (h : s ∉ b.adjacency) : (b.vertex s).size = b.size + 1 := by
  rw [size, vertex, Std.ExtTreeMap.size_insertIfNew, if_neg h, size]

lemma size_path (hs : s ∈ b.adjacency) (ht : t ∈ b.adjacency) : (b.path s l t).size = b.size := by
  have hs' : s ∈ (b.vertex t).adjacency := mem_vertex.2 (Or.inr hs)
  rw [size, path, edges, Std.ExtTreeMap.size_insert,
    if_pos (Std.ExtTreeMap.contains_iff_mem.2 hs'), vertex, Std.ExtTreeMap.size_insertIfNew,
    if_pos ht, size]

/-- Building succeeds when no edge is dangling, and keeps all that was collected. -/
lemma build_eq_ok_iff {b : Builder V E} {g : NondeterministicGraph V E} :
    b.build = .ok g ↔ b.dangling? = none ∧ g.adjacency = b.adjacency := by
  rw [build]
  split
  next e h => simp [h]
  next h =>
    rw [Except.ok.injEq]
    exact ⟨fun hg => hg ▸ ⟨h, rfl⟩, fun hg => ext_adjacency hg.2.symm⟩

/-- Building fails with the first dangling edge. -/
lemma build_eq_error_iff {b : Builder V E} {u : Undefined V E} :
    b.build = .error u ↔ ∃ e, b.dangling? = some e ∧ u = .transitionEnd e := by
  rw [build]
  split
  next e h => simp [h, eq_comm]
  next h => simp [h]

/-- A builder whose edges enter vertices can be built, and keeps all that was collected. -/
lemma exists_build (h : ∀ v l w, b.HasEdge v l w → w ∈ b.adjacency) :
    ∃ g, b.build = .ok g ∧ g.adjacency = b.adjacency := by
  have hd : b.dangling? = none := by
    refine List.find?_eq_none.2 fun e he => ?_
    obtain ⟨targets, hs, ht⟩ := mem_edgesOf.1 he
    obtain ⟨ends, hl, ht⟩ := mem_successorsOf.1 ht
    have hedge : b.HasEdge e.source e.label e.target := by
      simpa [HasEdge, Std.ExtTreeMap.getD_eq_getD_getElem?, hs, hl] using ht
    simpa [contains] using h _ _ _ hedge
  exact ⟨⟨b.adjacency, target_mem_of_dangling? hd⟩, build_eq_ok_iff.2 ⟨hd, rfl⟩, rfl⟩

end Builder

end NondeterministicGraph

/-! ### Automata -/

namespace Nfa.Builder

variable {S A T : Type} [Key S] [Key A] {b : Builder S A T}

/-- An automaton whose targets, initial state and tagged states are vertices can be built, and keeps
all that was collected. -/
lemma exists_build (ht : ∀ s l t, b.graph.HasEdge s l t → t ∈ b.graph.adjacency)
    (hi : b.initial ∈ b.graph.adjacency)
    (htags : ∀ t ∈ b.tags, t.start ∈ b.graph.adjacency ∧ t.stop ∈ b.graph.adjacency) :
    ∃ m, b.build = .ok m ∧ m.initial = b.initial ∧ m.graph.adjacency = b.graph.adjacency ∧
      m.tags = b.tags := by
  obtain ⟨g, hg, hadj⟩ := NondeterministicGraph.Builder.exists_build ht
  have hcontains : ∀ {s}, s ∈ b.graph.adjacency → g.contains s = true := fun h => by
    rw [NondeterministicGraph.contains, hadj]
    exact Std.ExtTreeMap.contains_iff_mem.2 h
  have htag : b.tags.findSome? (undefinedTag? g) = none :=
    List.findSome?_eq_none_iff.2 fun t hmem => by
      simp [undefinedTag?, hcontains (htags t hmem).1, hcontains (htags t hmem).2]
  rw [build, hg]
  simp only [ofGraph, hcontains hi, ↓reduceDIte]
  split
  next u hu => exact absurd hu (by rw [htag]; exact Option.some_ne_none u ∘ Eq.symm)
  next => exact ⟨_, rfl, rfl, hadj, rfl⟩

end Nfa.Builder

end CaptureAutomata
