/-
The edges and the starts of a traversal:

* `NondeterministicGraph.mem_edgesFrom`, `DeterministicGraph.mem_edgesFrom`: the edges that a traversal
  meets are those that are found by looking them up;
* `LabelledGraph.mem_edgesFrom`, `LabelledGraph.nodup_edgesFrom`: so are those of a graph of either kind,
  and each of them is met once; a traversal that goes over all edges misses none (`mem_allPaths`);
* `Traversal.starts_eq_error_iff`, `Traversal.exists_starts`: a traversal starts from all of the given
  vertices, unless one of them is missing, of which it names the first;
* `Traversal.mem_paths`, `Traversal.exists_paths`: its paths are the edges that leave them.
-/
import Mathlib
import CaptureAutomata.Graph.Labelled
import CaptureAutomata.Graph.Traversal
import CaptureAutomata.Proofs.Outcome

namespace CaptureAutomata

variable {V E : Type} [Key V] [Key E]

/-! ### Edges as a traversal meets them -/

omit [Key V] [Key E] in
lemma Digraph.source_of_mem_edgesFrom {g : Digraph V E} {v : V} {e : Edge V E}
    (h : e ∈ g.edgesFrom v) : e.source = v := by
  obtain ⟨p, -, rfl⟩ := List.mem_map.1 h
  rfl

omit [Key V] [Key E] in
lemma Digraph.source_mem_vertices {g : Digraph V E} {v : V} {e : Edge V E} (h : e ∈ g.edgesFrom v) :
    v ∈ g.vertices := by
  by_contra hv
  rw [← g.isSome_successors? v, Option.not_isSome_iff_eq_none] at hv
  simp [Digraph.edgesFrom, hv] at h

namespace NondeterministicGraph

@[simp] lemma mem_successorsOf {targets : KeyMap E (KeySet V)} {p : E × V} :
    p ∈ successorsOf targets ↔ ∃ ends, targets[p.1]? = some ends ∧ p.2 ∈ ends := by
  simp only [successorsOf, List.mem_flatMap, List.mem_map, Prod.exists,
    Std.ExtTreeMap.mem_toList_iff_getElem?_eq_some, Std.ExtTreeSet.mem_toList]
  constructor
  · rintro ⟨l, ends, hl, v, hv, rfl⟩
    exact ⟨ends, hl, hv⟩
  · rintro ⟨ends, hl, hv⟩
    exact ⟨p.1, ends, hl, p.2, hv, rfl⟩

/-- The targets under a label are those that the adjacency of the vertex has there. -/
lemma mem_targets {g : NondeterministicGraph V E} {v w : V} {l : E} :
    w ∈ g.targets v l ↔
      ∃ ends, g.adjacency[v]? = some ends ∧ (l, w) ∈ successorsOf ends := by
  simp only [targets, Std.ExtTreeMap.getD_eq_getD_getElem?, mem_successorsOf]
  cases g.adjacency[v]? with
  | none => simp
  | some ends => cases hl : ends[l]? <;> simp [hl]

/-- The edges that leave a vertex lead to its targets. -/
lemma mem_edgesFrom {g : NondeterministicGraph V E} {v : V} {e : Edge V E} :
    e ∈ g.toDigraph.edgesFrom v ↔ e.source = v ∧ e.target ∈ g.targets v e.label := by
  have hsucc : g.toDigraph.successors? v = g.adjacency[v]?.map successorsOf := rfl
  rw [Digraph.edgesFrom, hsucc, mem_targets]
  cases g.adjacency[v]? with
  | none => simp
  | some ends =>
      simp only [Option.map_some, Option.getD_some, List.mem_map, Option.some.injEq,
        exists_eq_left']
      constructor
      · rintro ⟨p, hp, rfl⟩
        exact ⟨rfl, hp⟩
      · rintro ⟨rfl, hp⟩
        exact ⟨(e.label, e.target), hp, rfl⟩

/-- Only vertices have targets, and targets are vertices. -/
lemma mem_vertices_of_mem_targets {g : NondeterministicGraph V E} {v w : V} {l : E}
    (h : w ∈ g.targets v l) : v ∈ g.vertices ∧ w ∈ g.vertices := by
  have he : (⟨v, l, w⟩ : Edge V E) ∈ g.toDigraph.edgesFrom v := mem_edgesFrom.2 ⟨rfl, h⟩
  obtain ⟨ends, hv, -⟩ := mem_targets.1 h
  refine ⟨Std.ExtTreeMap.mem_keys.2 ?_, Digraph.target_mem_vertices he⟩
  rw [Std.ExtTreeMap.mem_iff_isSome_getElem?, hv]
  rfl

/-- A label and a target of a vertex are listed once. -/
lemma nodup_successorsOf (targets : KeyMap E (KeySet V)) : (successorsOf targets).Nodup := by
  refine List.nodup_flatMap.2 ⟨fun entry _ => ?_, ?_⟩
  · have hdistinct : entry.2.toList.Nodup :=
      Std.ExtTreeSet.distinct_toList.imp fun hne h => hne (Key.compare_eq_iff.2 h)
    exact hdistinct.map fun v w h => (Prod.mk.inj h).2
  · refine Std.ExtTreeMap.distinct_keys_toList.imp fun {a b} hne => ?_
    intro p ha hb
    obtain ⟨v, -, rfl⟩ := List.mem_map.1 ha
    obtain ⟨w, -, hw⟩ := List.mem_map.1 hb
    exact hne (Key.compare_eq_iff.2 (Prod.mk.inj hw).1.symm)

end NondeterministicGraph

namespace DeterministicGraph

/-- The edges that leave a vertex lead to its targets. -/
lemma mem_edgesFrom {g : DeterministicGraph V E} {v : V} {e : Edge V E} :
    e ∈ g.toDigraph.edgesFrom v ↔ e.source = v ∧ g.target? v e.label = some e.target := by
  have hsucc : g.toDigraph.successors? v = g.adjacency[v]?.map fun targets => targets.toList := rfl
  rw [Digraph.edgesFrom, hsucc, target?]
  cases g.adjacency[v]? with
  | none => simp
  | some targets =>
      simp only [Option.map_some, Option.getD_some, List.mem_map, Option.bind_eq_bind,
        Option.bind_some]
      constructor
      · rintro ⟨p, hp, rfl⟩
        exact ⟨rfl, Std.ExtTreeMap.mem_toList_iff_getElem?_eq_some.1 hp⟩
      · rintro ⟨rfl, hp⟩
        exact ⟨(e.label, e.target), Std.ExtTreeMap.mem_toList_iff_getElem?_eq_some.2 hp, rfl⟩

end DeterministicGraph

/-! ### Graphs of either kind -/

namespace LabelledGraph

variable {g : LabelledGraph V E} {v : V} {e : Edge V E}

/-- The edges that a traversal meets are those that are found by looking them up. -/
lemma mem_edgesFrom : e ∈ g.toDigraph.edgesFrom v ↔ e.source = v ∧ g.HasEdge e := by
  cases g with
  | deterministic g =>
      refine DeterministicGraph.mem_edgesFrom.trans ⟨?_, ?_⟩ <;> rintro ⟨rfl, h⟩ <;> exact ⟨rfl, h⟩
  | nondeterministic g =>
      refine NondeterministicGraph.mem_edgesFrom.trans ⟨?_, ?_⟩ <;> rintro ⟨rfl, h⟩ <;>
        exact ⟨rfl, h⟩

@[simp] lemma hasEdge_toDigraph : g.toDigraph.HasEdge e ↔ g.HasEdge e := by
  rw [Digraph.HasEdge, mem_edgesFrom]
  exact and_iff_right rfl

@[simp] lemma mem_vertices_iff : v ∈ g.toDigraph.vertices ↔ g.contains v = true := by
  cases g with
  | deterministic g => exact Std.ExtTreeMap.mem_keys.trans Std.ExtTreeMap.contains_iff_mem.symm
  | nondeterministic g => exact Std.ExtTreeMap.mem_keys.trans Std.ExtTreeMap.contains_iff_mem.symm

/-- An edge that leaves a vertex is met once. -/
lemma nodup_edgesFrom (g : LabelledGraph V E) (v : V) : (g.toDigraph.edgesFrom v).Nodup := by
  have hsuccs : ((g.toDigraph.successors? v).getD []).Nodup := by
    cases g with
    | deterministic g =>
        show ((g.adjacency[v]?.map fun targets => targets.toList).getD []).Nodup
        cases g.adjacency[v]? with
        | none => exact .nil
        | some targets =>
            exact Std.ExtTreeMap.distinct_keys_toList.imp fun hne h =>
              hne (Key.compare_eq_iff.2 (congrArg Prod.fst h))
    | nondeterministic g =>
        show ((g.adjacency[v]?.map NondeterministicGraph.successorsOf).getD []).Nodup
        cases g.adjacency[v]? with
        | none => exact .nil
        | some targets => exact NondeterministicGraph.nodup_successorsOf targets
  refine hsuccs.map fun p q h => ?_
  obtain ⟨-, hlabel, htarget⟩ := Edge.mk.inj h
  exact Prod.ext hlabel htarget

/-- All edges of a graph are gone over, whatever the orders. -/
lemma mem_allPaths (vertexOrder : V → V → Ordering) (labelOrder : E → E → Ordering) :
    e ∈ ({ vertexOrder, labelOrder } : Traversal V E).allPaths g.toDigraph ↔ g.HasEdge e := by
  simp only [Traversal.allPaths, Traversal.pathsFrom, Traversal.edgesFrom, List.mem_flatMap,
    List.mem_filter, mem_sortBy, and_true, mem_edgesFrom]
  constructor
  · rintro ⟨v, -, -, he⟩
    exact he
  · intro he
    exact ⟨e.source, Digraph.source_mem_vertices (mem_edgesFrom.2 ⟨rfl, he⟩), rfl, he⟩

end LabelledGraph

/-! ### Starts -/

namespace Traversal

variable {t : Traversal V E} {g : Digraph V E} {vs : List V}

omit [Key V] [Key E] in
/-- The first of the given vertices that is missing comes behind vertices. -/
lemma find?_missing_eq_some_iff {v : V} :
    vs.find? (fun v => !g.contains v) = some v ↔
      ∃ before after, vs = before ++ v :: after ∧ (∀ w ∈ before, w ∈ g.vertices) ∧
        v ∉ g.vertices := by
  rw [List.find?_eq_some_iff_append]
  simp only [Bool.not_eq_true', Bool.not_not, Digraph.contains_iff, ← Bool.not_eq_true]
  constructor
  · rintro ⟨hv, before, after, rfl, hbefore⟩
    exact ⟨before, after, rfl, hbefore, hv⟩
  · rintro ⟨before, after, rfl, hbefore, hv⟩
    exact ⟨hv, before, after, rfl, hbefore⟩

/-- A traversal fails with the first of the given vertices that is missing. -/
lemma starts_eq_error_iff {u : Undefined V E} :
    t.starts g vs = .error u ↔
      ∃ v before after, vs = before ++ v :: after ∧ (∀ w ∈ before, w ∈ g.vertices) ∧
        v ∉ g.vertices ∧ u = .traversalStart v := by
  have hstarts : t.starts g vs = .error u ↔
      ∃ v, vs.find? (fun v => !g.contains v) = some v ∧ u = .traversalStart v := by
    rw [starts]
    split
    next v hv => simp [hv, eq_comm]
    next hv => simp [hv]
  rw [hstarts]
  simp only [find?_missing_eq_some_iff]
  constructor
  · rintro ⟨v, ⟨before, after, hvs, hbefore, hv⟩, hu⟩
    exact ⟨v, before, after, hvs, hbefore, hv, hu⟩
  · rintro ⟨v, before, after, hvs, hbefore, hv, hu⟩
    exact ⟨v, ⟨before, after, hvs, hbefore, hv⟩, hu⟩

/-- A traversal of vertices starts from them. -/
lemma exists_starts (h : ∀ v ∈ vs, v ∈ g.vertices) : ∃ ss, t.starts g vs = .ok ss := by
  cases hs : t.starts g vs with
  | ok ss => exact ⟨ss, rfl⟩
  | error u =>
      obtain ⟨v, before, after, rfl, -, hv, -⟩ := starts_eq_error_iff.1 hs
      exact absurd (h v (by simp)) hv

/-! ### Paths -/

/-- The paths of a traversal are the edges that leave its starts and pass its test. -/
lemma mem_paths {es : List (Edge V E)} {e : Edge V E} (h : t.paths g vs = .ok es) :
    e ∈ es ↔ ∃ v ∈ vs, e ∈ g.edgesFrom v ∧ t.accepts e = true := by
  obtain ⟨ss, hs, rfl⟩ := map_eq_ok.1 h
  simp only [pathsFrom, edgesFrom, List.mem_flatMap, List.mem_filter, mem_sortBy, mem_starts hs]

/-- A traversal that starts from vertices has its paths. -/
lemma exists_paths (h : ∀ v ∈ vs, v ∈ g.vertices) : ∃ es, t.paths g vs = .ok es := by
  obtain ⟨ss, hs⟩ := exists_starts (t := t) h
  exact ⟨_, by rw [paths, hs]; rfl⟩

end Traversal

end CaptureAutomata
