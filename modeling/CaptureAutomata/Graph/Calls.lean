/-
Graphs of either kind, collected by one call after the other:

* `LabelledGraph.Kind`, `LabelledGraph.Builder`: the two kinds of graphs, and a builder for each of them;
* `LabelledGraph.Call`, `Builder.call`: what can be added to a builder. `Call.Names`, `Call.Puts` and
  `Call.Replaces` say which vertices, which edges, and in place of which others;
* `LabelledGraph.Named`, `LabelledGraph.Leaves`: the vertices and edges that a replay of calls comes to.
  The last call that puts an edge in counts, unless a later one replaces it;
* `LabelledGraph.additions`: the calls that add some vertices and then some edges;
* `LabelledGraph.FirstDangling`: the first of these edges that enters no vertex, by source, then by label,
  then by target;
* `LabelledGraph.Request`, `Builder.answers`: calls with attempts to build between them, and what these
  come to.
-/
import CaptureAutomata.Graph.Labelled

namespace CaptureAutomata

variable {V E : Type} [Key V] [Key E]

/-- Edges are compared by source, then by label, then by target. -/
def Edge.order (e f : Edge V E) : Ordering :=
  (compare e.source f.source).then ((compare e.label f.label).then (compare e.target f.target))

namespace LabelledGraph

/-- The kinds of graphs. -/
inductive Kind
  /-- A vertex and a label lead to at most one target. -/
  | deterministic
  /-- A vertex and a label lead to any number of targets. -/
  | nondeterministic
deriving DecidableEq, Repr

/-- The error for an edge of a graph that enters no vertex. -/
def Kind.undefinedEnd : Kind → Edge V E → Undefined V E
  | deterministic => .edgeEnd
  | nondeterministic => .transitionEnd

/-! ### Calls -/

/-- A call on a builder of a kind of graphs. -/
inductive Call (V E : Type) [Key V] [Key E] : Kind → Type
  /-- Adds a vertex. -/
  | vertex {k : Kind} (v : V) : Call V E k
  /-- Adds an edge and both its ends. -/
  | path {k : Kind} (e : Edge V E) : Call V E k
  /-- Makes `targets` all the edges of `source`, by label. -/
  | replace (source : V) (targets : KeyMap E V) : Call V E .deterministic
  /-- Adds edges from `source` with the label `label` to all of `ends`. -/
  | extend (source : V) (label : E) (ends : List V) : Call V E .nondeterministic

namespace Call

variable {k : Kind}

/-- The call makes `v` a vertex. -/
def Names : Call V E k → V → Prop
  | vertex w, v => v = w
  | path e, v => v = e.source ∨ v = e.target
  | replace source _, v => v = source
  | extend source _ _, v => v = source

/-- The call puts an edge in. -/
def Puts : Call V E k → Edge V E → Prop
  | vertex _, _ => False
  | path e, f => f = e
  | replace source targets, f => f.source = source ∧ targets[f.label]? = some f.target
  | extend source label ends, f => f.source = source ∧ f.label = label ∧ f.target ∈ ends

/-- An edge that was put in before the call is not kept by it. -/
def Replaces : {k : Kind} → Call V E k → Edge V E → Prop
  | .deterministic, path e, f => f.source = e.source ∧ f.label = e.label
  | .deterministic, replace source _, f => f.source = source
  | _, _, _ => False

/-- The call extends the set of targets of a vertex and a label, if only by nothing. -/
def Extends : Call V E k → V → E → Prop
  | extend source label _, v, l => v = source ∧ l = label
  | _, _, _ => False

end Call

variable {k : Kind}

/-- One of the calls makes `v` a vertex. -/
def Named (calls : List (Call V E k)) (v : V) : Prop :=
  ∃ c ∈ calls, c.Names v

/-- One of the calls puts the edge in, and no later one replaces it. -/
def Leaves (calls : List (Call V E k)) (e : Edge V E) : Prop :=
  ∃ before c after, calls = before ++ c :: after ∧ c.Puts e ∧ ∀ d ∈ after, ¬ d.Replaces e

/-- The calls that add some vertices and then some edges. -/
def additions (vertices : List V) (edges : List (Edge V E)) : List (Call V E k) :=
  vertices.map .vertex ++ edges.map .path

/-- Of the edges that the calls leave and that enter no vertex, `e` is the first. -/
def FirstDangling (calls : List (Call V E k)) (e : Edge V E) : Prop :=
  (Leaves calls e ∧ ¬ Named calls e.target) ∧
    ∀ f, Leaves calls f ∧ ¬ Named calls f.target → (e.order f).isLE

/-! ### Builders -/

/-- What has been collected for a graph of a kind. -/
inductive Builder (V E : Type) [Key V] [Key E] : Kind → Type
  /-- It has at most one edge for each source and label. -/
  | deterministic (b : DeterministicGraph.Builder V E) : Builder V E .deterministic
  /-- It has any number of edges for each source and label. -/
  | nondeterministic (b : NondeterministicGraph.Builder V E) : Builder V E .nondeterministic

namespace Builder

/-- Nothing has been collected. -/
def empty : (k : Kind) → Builder V E k
  | .deterministic => .deterministic {}
  | .nondeterministic => .nondeterministic {}

/-- Carries out a call. -/
def call : {k : Kind} → Builder V E k → Call V E k → Builder V E k
  | _, .deterministic b, .vertex v => .deterministic (b.vertex v)
  | _, .deterministic b, .path e => .deterministic (b.path e.source e.label e.target)
  | _, .deterministic b, .replace source targets => .deterministic (b.edges source targets)
  | _, .nondeterministic b, .vertex v => .nondeterministic (b.vertex v)
  | _, .nondeterministic b, .path e => .nondeterministic (b.path e.source e.label e.target)
  | _, .nondeterministic b, .extend source label ends =>
    .nondeterministic (b.edges source label ends)

/-- Carries out some calls, one after the other. -/
def run (b : Builder V E k) (calls : List (Call V E k)) : Builder V E k :=
  calls.foldl call b

/-- Whether `v` is a vertex. -/
def contains : Builder V E k → V → Bool
  | deterministic b => b.contains
  | nondeterministic b => b.contains

/-- The collected graph, unless an edge is dangling. -/
def build : Builder V E k → Except (Undefined V E) (LabelledGraph V E)
  | deterministic b => .deterministic <$> b.build
  | nondeterministic b => .nondeterministic <$> b.build

end Builder

/-! ### Attempts to build -/

/-- What is asked of a builder. -/
inductive Request (V E : Type) [Key V] [Key E] (k : Kind)
  /-- That it carries out a call. -/
  | call (c : Call V E k)
  /-- That it builds what has been collected. -/
  | build

/-- The call that is asked for, if it is one. -/
def Request.call? : Request V E k → Option (Call V E k)
  | call c => some c
  | build => none

/-- The calls among some requests. -/
def callsOf (requests : List (Request V E k)) : List (Call V E k) :=
  requests.filterMap Request.call?

/-- What the attempts to build come to. They leave the builder as it is. -/
def Builder.answers :
    Builder V E k → List (Request V E k) → List (Except (Undefined V E) (LabelledGraph V E))
  | _, [] => []
  | b, .call c :: requests => (b.call c).answers requests
  | b, .build :: requests => b.build :: b.answers requests

end LabelledGraph

end CaptureAutomata
