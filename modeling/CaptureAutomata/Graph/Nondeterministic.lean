/-
Graphs in which a vertex and a label lead to any number of targets:

* `NondeterministicGraph`: such a graph, with every edge entering one of its vertices;
* `NondeterministicGraph.Builder`: collects vertices and edges; `Builder.build` accepts them when
  no edge is dangling, and otherwise names the dangling edge that comes first by source, label and
  target;
* `NondeterministicGraph.toDigraph`: the graph as a traversal sees it.
-/
import CaptureAutomata.Undefined

namespace CaptureAutomata

variable {V E : Type} [Key V] [Key E]

namespace NondeterministicGraph

/-- The labels and targets of one vertex, by label and then by target. -/
def successorsOf (targets : KeyMap E (KeySet V)) : List (E × V) :=
  targets.toList.flatMap fun entry => entry.2.toList.map fun v => (entry.1, v)

/-- The edges of an adjacency map, by source, then by label, then by target. -/
def edgesOf (adjacency : KeyMap V (KeyMap E (KeySet V))) : List (Edge V E) :=
  adjacency.toList.flatMap fun entry =>
    (successorsOf entry.2).map fun p => ⟨entry.1, p.1, p.2⟩

/-- An edge is listed when its target is among those of its source and label. -/
theorem mem_edgesOf {adjacency : KeyMap V (KeyMap E (KeySet V))} {e : Edge V E} :
    e ∈ edgesOf adjacency ↔
      ∃ targets, adjacency[e.source]? = some targets ∧
        (e.label, e.target) ∈ successorsOf targets := by
  simp only [edgesOf, List.mem_flatMap, List.mem_map, Prod.exists,
    Std.ExtTreeMap.mem_toList_iff_getElem?_eq_some]
  constructor
  · rintro ⟨v, targets, hv, l, t, ht, rfl⟩
    exact ⟨targets, hv, ht⟩
  · rintro ⟨targets, hv, ht⟩
    exact ⟨e.source, targets, hv, e.label, e.target, ht, rfl⟩

end NondeterministicGraph

/-- A graph in which a vertex and a label lead to any number of targets. -/
structure NondeterministicGraph (V E : Type) [Key V] [Key E] where
  /-- The targets by source and label. -/
  adjacency : KeyMap V (KeyMap E (KeySet V))
  /-- Every edge enters a vertex. -/
  target_mem : ∀ e ∈ NondeterministicGraph.edgesOf adjacency, e.target ∈ adjacency

namespace NondeterministicGraph

/-- The graph's own copy of `v`, if `v` is a vertex. -/
def vertex? (g : NondeterministicGraph V E) (v : V) : Option V :=
  g.adjacency.getKey? v

/-- Whether `v` is a vertex. -/
def contains (g : NondeterministicGraph V E) (v : V) : Bool :=
  g.adjacency.contains v

/-- The number of vertices. -/
def size (g : NondeterministicGraph V E) : Nat :=
  g.adjacency.size

/-- Whether there is no vertex. -/
def isEmpty (g : NondeterministicGraph V E) : Bool :=
  g.adjacency.isEmpty

/-- The vertices, in ascending order. -/
def vertices (g : NondeterministicGraph V E) : List V :=
  g.adjacency.keys

/-- The sets of targets of a vertex by label. -/
def edges? (g : NondeterministicGraph V E) (v : V) : Option (KeyMap E (KeySet V)) :=
  g.adjacency[v]?

/-- The targets of the edges leaving `v` with the label `l`. -/
def targets (g : NondeterministicGraph V E) (v : V) (l : E) : KeySet V :=
  (g.adjacency.getD v ∅).getD l ∅

/-- The graph as a traversal sees it. -/
def toDigraph (g : NondeterministicGraph V E) : Digraph V E where
  vertices := g.vertices
  successors? v := g.adjacency[v]?.map successorsOf
  isSome_successors? v := by
    rw [Option.isSome_map, vertices, Std.ExtTreeMap.mem_keys,
      Std.ExtTreeMap.mem_iff_isSome_getElem?]
  target_mem v succs p hv hp := by
    obtain ⟨targets, ht, rfl⟩ := Option.map_eq_some_iff.1 hv
    rw [vertices, Std.ExtTreeMap.mem_keys]
    exact g.target_mem ⟨v, p.1, p.2⟩ (mem_edgesOf.2 ⟨targets, ht, hp⟩)

/-! ### Building -/

/-- Vertices and edges collected for a graph. -/
structure Builder (V E : Type) [Key V] [Key E] where
  /-- The targets by source and label. -/
  adjacency : KeyMap V (KeyMap E (KeySet V)) := ∅

namespace Builder

/-- Adds a vertex without edges, unless it is there already. -/
def vertex (b : Builder V E) (v : V) : Builder V E :=
  ⟨b.adjacency.insertIfNew v ∅⟩

/-- Adds edges from `source` with the label `label` to all of `ends`, without adding their
targets. -/
def edges (b : Builder V E) (source : V) (label : E) (ends : List V) : Builder V E :=
  let targets := b.adjacency.getD source ∅
  ⟨b.adjacency.insert source (targets.insert label ((targets.getD label ∅).insertMany ends))⟩

/-- Adds an edge and both its ends. -/
def path (b : Builder V E) (source : V) (label : E) (target : V) : Builder V E :=
  (b.vertex target).edges source label [target]

/-- Whether `v` is a vertex. -/
def contains (b : Builder V E) (v : V) : Bool :=
  b.adjacency.contains v

/-- The number of vertices. -/
def size (b : Builder V E) : Nat :=
  b.adjacency.size

/-- Whether there is no vertex. -/
def isEmpty (b : Builder V E) : Bool :=
  b.adjacency.isEmpty

/-- The first edge, by source, then by label, then by target, that enters no vertex. -/
def dangling? (b : Builder V E) : Option (Edge V E) :=
  (edgesOf b.adjacency).find? fun e => !b.contains e.target

/-- Without a dangling edge every edge enters a vertex. -/
theorem target_mem_of_dangling? {b : Builder V E} (h : b.dangling? = none) :
    ∀ e ∈ edgesOf b.adjacency, e.target ∈ b.adjacency := by
  intro e he
  have := List.find?_eq_none.1 h e he
  simpa [contains] using this

/-- The collected graph, unless an edge is dangling. -/
def build (b : Builder V E) : Except (Undefined V E) (NondeterministicGraph V E) :=
  match h : b.dangling? with
  | some e => .error (.transitionEnd e)
  | none => .ok ⟨b.adjacency, target_mem_of_dangling? h⟩

end Builder

end NondeterministicGraph

end CaptureAutomata
