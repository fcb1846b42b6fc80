/-
Nondeterministic automata with tags:

* `Tag`: a name, the state it starts in and the state it ends in;
* `Nfa`: an initial state, a graph whose labels are symbols or nothing, and a list of tags; the
  initial state and the states of the tags are states of the graph;
* `Nfa.ofGraph`: an automaton on a given graph, unless a state is missing;
* `Nfa.Builder`: collects states, transitions and tags;
* `Nfa.epsilonClosure`: some states and all that are reached from them without reading a symbol.
-/
import CaptureAutomata.Graph.Nondeterministic
import CaptureAutomata.Graph.Traversal

namespace CaptureAutomata

/-- A named pair of states. -/
structure Tag (T S : Type) where
  /-- What is tagged. -/
  name : T
  /-- The state the tag starts in. -/
  start : S
  /-- The state the tag ends in. -/
  stop : S
deriving DecidableEq, Repr

/-- An automaton over the symbols `A` with states `S` and tags named by `T`. A transition without a
symbol is taken without reading one. -/
structure Nfa (S A T : Type) [Key S] [Key A] where
  /-- The state a run starts in. -/
  initial : S
  /-- The states and transitions. -/
  graph : NondeterministicGraph S (Option A)
  /-- The tags, in the order they were added. -/
  tags : List (Tag T S)
  /-- A run starts in a state. -/
  initial_mem : graph.contains initial = true
  /-- Tags start and end in states. -/
  tags_mem : ∀ t ∈ tags, graph.contains t.start = true ∧ graph.contains t.stop = true

namespace Nfa

variable {S A T : Type} [Key S] [Key A]

/-- The state that a tag mentions and the graph does not have, its start before its end. -/
def undefinedTag? (g : NondeterministicGraph S (Option A)) (t : Tag T S) :
    Option (Undefined S (Option A)) :=
  if !g.contains t.start then some (.tagStart t.start)
  else if !g.contains t.stop then some (.tagEnd t.stop)
  else none

/-- If no tag mentions a missing state, tags start and end in states. -/
theorem tags_mem_of_undefinedTag? {g : NondeterministicGraph S (Option A)} {tags : List (Tag T S)}
    (h : tags.findSome? (undefinedTag? g) = none) :
    ∀ t ∈ tags, g.contains t.start = true ∧ g.contains t.stop = true := by
  intro t ht
  have := List.findSome?_eq_none_iff.1 h t ht
  rw [undefinedTag?] at this
  split at this
  · contradiction
  · split at this
    · contradiction
    · simp_all

/-- The automaton with this graph, if the initial state and the states of the tags are there. -/
def ofGraph (initial : S) (graph : NondeterministicGraph S (Option A)) (tags : List (Tag T S)) :
    Except (Undefined S (Option A)) (Nfa S A T) :=
  if hi : graph.contains initial = true then
    match ht : tags.findSome? (undefinedTag? graph) with
    | some u => .error u
    | none => .ok ⟨initial, graph, tags, hi, tags_mem_of_undefinedTag? ht⟩
  else .error (.initialState initial)

/-- The states, in ascending order. -/
def states (m : Nfa S A T) : List S :=
  m.graph.vertices

/-- The traversal that follows transitions without a symbol. -/
def silent : Traversal S (Option A) where
  accepts e := e.label.isNone

/-- The traversal that follows transitions on symbols. -/
def reading : Traversal S (Option A) where
  accepts e := e.label.isSome

/-- The given states and all that are reached from them without reading a symbol. -/
def epsilonClosure (m : Nfa S A T) (states : List S) :
    Except (Undefined S (Option A)) (KeySet S) :=
  silent.closure m.graph.toDigraph states

/-! ### Building -/

/-- States, transitions and tags collected for an automaton. -/
structure Builder (S A T : Type) [Key S] [Key A] where
  /-- The state a run starts in. -/
  initial : S
  /-- The states and transitions. -/
  graph : NondeterministicGraph.Builder S (Option A)
  /-- The tags, in the order they were added. -/
  tags : List (Tag T S) := []

namespace Builder

/-- Nothing but the initial state. -/
def ofInitial (initial : S) : Builder S A T :=
  { initial, graph := ({} : NondeterministicGraph.Builder S (Option A)).vertex initial }

/-- Adds a state. -/
def state (b : Builder S A T) (s : S) : Builder S A T :=
  { b with graph := b.graph.vertex s }

/-- Adds a transition and both its ends. -/
def transition (b : Builder S A T) (source : S) (symbol : Option A) (target : S) :
    Builder S A T :=
  { b with graph := b.graph.path source symbol target }

/-- Adds a tag, without adding its states. -/
def tag (b : Builder S A T) (name : T) (start stop : S) : Builder S A T :=
  { b with tags := b.tags ++ [⟨name, start, stop⟩] }

/-- The number of states. -/
def stateCount (b : Builder S A T) : Nat :=
  b.graph.size

/-- The number of tags. -/
def tagCount (b : Builder S A T) : Nat :=
  b.tags.length

/-- The collected automaton, if all states that it mentions are there. -/
def build (b : Builder S A T) : Except (Undefined S (Option A)) (Nfa S A T) :=
  match b.graph.build with
  | .error u => .error u
  | .ok graph => ofGraph b.initial graph b.tags

end Builder

end Nfa

end CaptureAutomata
