/-
Deterministic automata whose states open and close tags:

* `Dfa`: an initial state, a graph with at most one transition per state and symbol, and the names
  of the tags that start and end in each state;
* `Dfa.Builder`: collects states, transitions and tags; `Builder.build` accepts them when every
  state that is mentioned is there, and otherwise names a missing one.
-/
import CaptureAutomata.Graph.Deterministic

namespace CaptureAutomata

/-- An automaton over the symbols `A` with states `D` and tags named by `T`. A missing transition
is dead. -/
structure Dfa (D A T : Type) [Key D] [Key A] [Key T] where
  /-- The state a run starts in. -/
  initial : D
  /-- The states and transitions. -/
  graph : DeterministicGraph D A
  /-- The names of the tags that start in a state. -/
  starting : KeyMap D (KeySet T)
  /-- The names of the tags that end in a state. -/
  ending : KeyMap D (KeySet T)
  /-- A run starts in a state. -/
  initial_mem : graph.contains initial = true
  /-- Tags start in states. -/
  starting_mem : ∀ d ∈ starting, graph.contains d = true
  /-- Tags end in states. -/
  ending_mem : ∀ d ∈ ending, graph.contains d = true

namespace Dfa

variable {D A T : Type} [Key D] [Key A] [Key T]

/-- The states, in ascending order. -/
def states (m : Dfa D A T) : List D :=
  m.graph.adjacency.keys

/-- The transitions that leave a state, by symbol. -/
def transitionsFrom (m : Dfa D A T) (d : D) : List (A × D) :=
  (m.graph.adjacency.getD d ∅).toList

/-- The state reached from `d` on `a`, unless the transition is dead. -/
def next? (m : Dfa D A T) (d : D) (a : A) : Option D :=
  m.graph.target? d a

/-- The names of the tags that start in `d`. -/
def tagsStarting (m : Dfa D A T) (d : D) : KeySet T :=
  m.starting.getD d ∅

/-- The names of the tags that end in `d`. -/
def tagsEnding (m : Dfa D A T) (d : D) : KeySet T :=
  m.ending.getD d ∅

/-! ### Building -/

/-- States, transitions and tags collected for an automaton. -/
structure Builder (D A T : Type) [Key D] [Key A] [Key T] where
  /-- The state a run starts in. -/
  initial : D
  /-- The states and transitions. -/
  graph : DeterministicGraph.Builder D A
  /-- The names of the tags that start in a state. -/
  starting : KeyMap D (KeySet T)
  /-- The names of the tags that end in a state. -/
  ending : KeyMap D (KeySet T)

namespace Builder

/-- Nothing but the initial state. -/
def ofInitial (initial : D) : Builder D A T :=
  ⟨initial, ({} : DeterministicGraph.Builder D A).vertex initial, ∅, ∅⟩

/-- Adds a state. -/
def state (b : Builder D A T) (d : D) : Builder D A T :=
  { b with graph := b.graph.vertex d }

/-- Adds a transition and both its ends, in place of one from the same state on the same symbol. -/
def transition (b : Builder D A T) (source : D) (symbol : A) (target : D) : Builder D A T :=
  { b with graph := b.graph.path source symbol target }

/-- Lets a tag start in a state. -/
def tagStart (b : Builder D A T) (d : D) (name : T) : Builder D A T :=
  { b with starting := b.starting.insert d ((b.starting.getD d ∅).insert name) }

/-- Lets a tag end in a state. -/
def tagEnd (b : Builder D A T) (d : D) (name : T) : Builder D A T :=
  { b with ending := b.ending.insert d ((b.ending.getD d ∅).insert name) }

/-- Lets a tag start in one state and end in another. -/
def tag (b : Builder D A T) (name : T) (start stop : D) : Builder D A T :=
  (b.tagStart start name).tagEnd stop name

/-- The least key of `m` that is no state of `g`. -/
def missing? (g : DeterministicGraph D A) (m : KeyMap D (KeySet T)) : Option D :=
  m.keys.find? fun d => !g.contains d

/-- Without a missing key, all keys are states. -/
theorem contains_of_missing? {g : DeterministicGraph D A} {m : KeyMap D (KeySet T)}
    (h : missing? g m = none) : ∀ d ∈ m, g.contains d = true := by
  intro d hd
  have := List.find?_eq_none.1 h d (Std.ExtTreeMap.mem_keys.2 hd)
  simpa using this

/-- The collected automaton, if all states that it mentions are there. -/
def build (b : Builder D A T) : Except (Undefined D A) (Dfa D A T) :=
  match b.graph.build with
  | .error u => .error u
  | .ok graph =>
    if hi : graph.contains b.initial = true then
      match hs : missing? graph b.starting with
      | some d => .error (.tagStart d)
      | none =>
        match he : missing? graph b.ending with
        | some d => .error (.tagEnd d)
        | none =>
          .ok ⟨b.initial, graph, b.starting, b.ending, hi, contains_of_missing? hs,
            contains_of_missing? he⟩
    else .error (.initialState b.initial)

end Builder

end Dfa

end CaptureAutomata
