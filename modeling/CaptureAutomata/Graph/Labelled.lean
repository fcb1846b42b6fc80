/-
Graphs of either kind, whose edges are told by looking them up:

* `LabelledGraph`: a deterministic or a nondeterministic graph;
* `LabelledGraph.HasEdge`: an edge is there if its target is found under its source and label;
* `Digraph.HasEdge`: the same of a graph as a traversal sees it;
* `Walk`: the vertices that some edges lead to from some starts, by the number of edges taken;
* `Distance`: the least number of edges on the way to a vertex.
-/
import CaptureAutomata.Graph.Deterministic
import CaptureAutomata.Graph.Nondeterministic

namespace CaptureAutomata

/-! ### Both kinds of graphs -/

/-- A graph of either kind. -/
inductive LabelledGraph (V E : Type) [Key V] [Key E]
  /-- A vertex and a label lead to at most one target. -/
  | deterministic (g : DeterministicGraph V E)
  /-- A vertex and a label lead to any number of targets. -/
  | nondeterministic (g : NondeterministicGraph V E)

namespace LabelledGraph

variable {V E : Type} [Key V] [Key E]

/-- The graph as a traversal sees it. -/
def toDigraph : LabelledGraph V E → Digraph V E
  | deterministic g => g.toDigraph
  | nondeterministic g => g.toDigraph

/-- Whether `v` is a vertex. -/
def contains : LabelledGraph V E → V → Bool
  | deterministic g => g.contains
  | nondeterministic g => g.contains

/-- The target of the edge is found under its source and label. -/
def HasEdge : LabelledGraph V E → Edge V E → Prop
  | deterministic g, e => g.target? e.source e.label = some e.target
  | nondeterministic g, e => e.target ∈ g.targets e.source e.label

end LabelledGraph

section Walk

variable {V E : Type}

/-- The graph has the edge among those that leave its source. -/
def Digraph.HasEdge (g : Digraph V E) (e : Edge V E) : Prop :=
  e ∈ g.edgesFrom e.source

/-! ### Walks -/

/-- `n` edges of the kind `P` lead from one of the starts to a vertex. -/
inductive Walk (P : Edge V E → Prop) (starts : List V) : Nat → V → Prop
  /-- A start is where it is. -/
  | start {v : V} (h : v ∈ starts) : Walk P starts 0 v
  /-- One more edge leads on. -/
  | step {n : Nat} {e : Edge V E} (h : Walk P starts n e.source) (he : P e) :
      Walk P starts (n + 1) e.target

/-- `n` edges lead from the starts to `v`, and fewer do not. -/
def Distance (P : Edge V E → Prop) (starts : List V) (v : V) (n : Nat) : Prop :=
  Walk P starts n v ∧ ∀ m, Walk P starts m v → n ≤ m

end Walk

end CaptureAutomata
