/-
Drawings of automata in the dot language:

* `Drawing.Line`: a line that draws a state or an arrow;
* `Drawing.render`: a drawing as text;
* `Nfa.drawing`: the states, the initial one as a box, the transitions, and the tags as dashed
  arrows;
* `Dfa.drawing`: the states with the names of the tags that start and end in them, those in which a
  tag ends as double circles, and the transitions.
-/
import CaptureAutomata.Dfa.Basic
import CaptureAutomata.Nfa.Basic

namespace CaptureAutomata

namespace Drawing

/-- A character inside the quotes of a label. -/
def escapeChar (c : Char) : List Char :=
  if c = '\\' ∨ c = '"' then ['\\', c] else [c]

/-- The text of a value inside the quotes of a label. -/
def label {α : Type} [Quoted α] (a : α) : String :=
  String.ofList ((quote a).toList.flatMap escapeChar)

/-- The shape of a state. -/
inductive Shape
  /-- The shape that states have if nothing is said. -/
  | plain
  /-- A box. -/
  | box
  /-- A double circle. -/
  | doubleCircle
deriving DecidableEq, Repr

/-- The attribute for a shape. -/
def Shape.render : Shape → String
  | plain => ""
  | box => ", shape=box"
  | doubleCircle => ", shape=doublecircle"

/-- A line of a drawing. -/
inductive Line
  /-- A state with its label, shape and number. -/
  | state (label : String) (shape : Shape) (id : Nat)
  /-- A transition from one state to another. -/
  | transition (source target : Nat) (label : String)
  /-- A tag from one state to another. -/
  | tag (source target : Nat) (label : String)
deriving DecidableEq, Repr

/-- The name of a state. -/
def node (id : Nat) : String :=
  "id" ++ toString id

/-- The text of a line, without its line break. -/
def Line.render : Line → String
  | state label shape id => "node[label=\"" ++ label ++ "\"" ++ shape.render ++ "] " ++ node id
  | transition source target label =>
    node source ++ " -> " ++ node target ++ " [label=\"" ++ label ++ "\"]"
  | tag source target label =>
    node source ++ " -> " ++ node target ++ " [label=\"" ++ label ++ "\", style=dashed]"

/-- The text of a drawing. -/
def render (lines : List Line) : String :=
  String.join ((["digraph \x7b"] ++ lines.map Line.render ++ ["\x7d"]).map fun line => line ++ "\n")

end Drawing

open Drawing (label)

section Nfa

variable {S A T : Type} [Key S] [Key A]

/-- The number of a state. -/
def Nfa.stateId (m : Nfa S A T) (s : S) : Nat :=
  m.states.idxOf s

variable [Quoted S] [Quoted A] [Quoted T]

/-- The lines that draw an automaton. -/
def Nfa.drawing (m : Nfa S A T) : List Drawing.Line :=
  (m.states.map fun s =>
    .state (label s) (if s = m.initial then .box else .plain) (m.stateId s)) ++
  (({} : Traversal S (Option A)).allPaths m.graph.toDigraph).map (fun e =>
    .transition (m.stateId e.source) (m.stateId e.target) ((e.label.map label).getD "ε")) ++
  m.tags.map fun t => .tag (m.stateId t.start) (m.stateId t.stop) (label t.name)

end Nfa

section Dfa

variable {D A T : Type} [Key D] [Key A] [Key T]

/-- The number of a state. -/
def Dfa.stateId (m : Dfa D A T) (d : D) : Nat :=
  m.states.idxOf d

variable [Quoted A] [Quoted T]

/-- The labels of some names, between brackets. -/
def Dfa.tagList (names : KeySet T) : String :=
  "[" ++ ",".intercalate (names.toList.map label) ++ "]"

/-- The line that draws a state. -/
def Dfa.stateLine (m : Dfa D A T) (d : D) : Drawing.Line :=
  .state
    (toString (m.stateId d) ++ " +" ++ tagList (m.tagsStarting d) ++ " -" ++
      tagList (m.tagsEnding d))
    (if (m.tagsEnding d).isEmpty then .plain else .doubleCircle) (m.stateId d)

/-- The lines that draw an automaton: every state is followed by the transitions that leave it. -/
def Dfa.drawing (m : Dfa D A T) : List Drawing.Line :=
  m.states.flatMap fun d =>
    m.stateLine d :: (m.transitionsFrom d).map fun p =>
      .transition (m.stateId d) (m.stateId p.2) (label p.1)

end Dfa

end CaptureAutomata
