/-
Graphs in which a vertex and a label lead to at most one target:

* `DeterministicGraph`: such a graph, with every edge entering one of its vertices;
* `DeterministicGraph.Builder`: collects vertices and edges; `Builder.build` accepts them when no
  edge is dangling, and otherwise names the dangling edge that comes first by source, label and
  target;
* `DeterministicGraph.toDigraph`: the graph as a traversal sees it.
-/
import CaptureAutomata.Undefined

namespace CaptureAutomata

variable {V E : Type} [Key V] [Key E]

namespace DeterministicGraph

/-- The edges of an adjacency map, by source and then by label. -/
def edgesOf (adjacency : KeyMap V (KeyMap E V)) : List (Edge V E) :=
  adjacency.toList.flatMap fun entry => entry.2.toList.map fun p => ⟨entry.1, p.1, p.2⟩

/-- An edge is listed when its source has its target under its label. -/
theorem mem_edgesOf {adjacency : KeyMap V (KeyMap E V)} {e : Edge V E} :
    e ∈ edgesOf adjacency ↔
      ∃ targets, adjacency[e.source]? = some targets ∧ targets[e.label]? = some e.target := by
  simp only [edgesOf, List.mem_flatMap, List.mem_map, Prod.exists,
    Std.ExtTreeMap.mem_toList_iff_getElem?_eq_some]
  constructor
  · rintro ⟨v, targets, hv, l, t, ht, rfl⟩
    exact ⟨targets, hv, ht⟩
  · rintro ⟨targets, hv, ht⟩
    exact ⟨e.source, targets, hv, e.label, e.target, ht, rfl⟩

end DeterministicGraph

/-- A graph in which a vertex and a label lead to at most one target. -/
structure DeterministicGraph (V E : Type) [Key V] [Key E] where
  /-- The targets by source and label. -/
  adjacency : KeyMap V (KeyMap E V)
  /-- Every edge enters a vertex. -/
  target_mem : ∀ e ∈ DeterministicGraph.edgesOf adjacency, e.target ∈ adjacency

namespace DeterministicGraph

/-- The graph's own copy of `v`, if `v` is a vertex. -/
def vertex? (g : DeterministicGraph V E) (v : V) : Option V :=
  g.adjacency.getKey? v

/-- Whether `v` is a vertex. -/
def contains (g : DeterministicGraph V E) (v : V) : Bool :=
  g.adjacency.contains v

/-- The number of vertices. -/
def size (g : DeterministicGraph V E) : Nat :=
  g.adjacency.size

/-- Whether there is no vertex. -/
def isEmpty (g : DeterministicGraph V E) : Bool :=
  g.adjacency.isEmpty

/-- The targets of a vertex by label. -/
def edges? (g : DeterministicGraph V E) (v : V) : Option (KeyMap E V) :=
  g.adjacency[v]?

/-- The target of the edge leaving `v` with the label `l`. -/
def target? (g : DeterministicGraph V E) (v : V) (l : E) : Option V :=
  g.adjacency[v]? >>= fun targets => targets[l]?

/-- The graph as a traversal sees it. -/
def toDigraph (g : DeterministicGraph V E) : Digraph V E where
  vertices := g.adjacency.keys
  successors? v := g.adjacency[v]?.map fun targets => targets.toList
  isSome_successors? v := by
    rw [Option.isSome_map, Std.ExtTreeMap.mem_keys, Std.ExtTreeMap.mem_iff_isSome_getElem?]
  target_mem v succs p hv hp := by
    obtain ⟨targets, ht, rfl⟩ := Option.map_eq_some_iff.1 hv
    rw [Std.ExtTreeMap.mem_keys]
    exact g.target_mem ⟨v, p.1, p.2⟩
      (mem_edgesOf.2 ⟨targets, ht, Std.ExtTreeMap.mem_toList_iff_getElem?_eq_some.1 hp⟩)

/-! ### Building -/

/-- Vertices and edges collected for a graph. -/
structure Builder (V E : Type) [Key V] [Key E] where
  /-- The targets by source and label. -/
  adjacency : KeyMap V (KeyMap E V) := ∅

namespace Builder

/-- Adds a vertex without edges, unless it is there already. -/
def vertex (b : Builder V E) (v : V) : Builder V E :=
  ⟨b.adjacency.insertIfNew v ∅⟩

/-- Adds an edge and both its ends, in place of an edge with the same source and label. -/
def path (b : Builder V E) (source : V) (label : E) (target : V) : Builder V E :=
  let adjacency := (b.vertex target).adjacency
  ⟨adjacency.insert source ((adjacency.getD source ∅).insert label target)⟩

/-- Makes `targets` all the edges of `source`, without adding their targets. -/
def edges (b : Builder V E) (source : V) (targets : KeyMap E V) : Builder V E :=
  ⟨b.adjacency.insert source targets⟩

/-- Whether `v` is a vertex. -/
def contains (b : Builder V E) (v : V) : Bool :=
  b.adjacency.contains v

/-- The number of vertices. -/
def size (b : Builder V E) : Nat :=
  b.adjacency.size

/-- Whether there is no vertex. -/
def isEmpty (b : Builder V E) : Bool :=
  b.adjacency.isEmpty

/-- The first edge, by source and then by label, that enters no vertex. -/
def dangling? (b : Builder V E) : Option (Edge V E) :=
  (edgesOf b.adjacency).find? fun e => !b.contains e.target

/-- Without a dangling edge every edge enters a vertex. -/
theorem target_mem_of_dangling? {b : Builder V E} (h : b.dangling? = none) :
    ∀ e ∈ edgesOf b.adjacency, e.target ∈ b.adjacency := by
  intro e he
  have := List.find?_eq_none.1 h e he
  simpa [contains] using this

/-- The collected graph, unless an edge is dangling. -/
def build (b : Builder V E) : Except (Undefined V E) (DeterministicGraph V E) :=
  match h : b.dangling? with
  | some e => .error (.edgeEnd e)
  | none => .ok ⟨b.adjacency, target_mem_of_dangling? h⟩

end Builder

end DeterministicGraph

end CaptureAutomata
