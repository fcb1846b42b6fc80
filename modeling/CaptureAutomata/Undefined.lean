/-
States and edge ends that are mentioned but missing:

* `Undefined`: what mentions the missing state or edge end;
* `Undefined.role`, `Undefined.offender`, `Undefined.message`: how that is told.
-/
import CaptureAutomata.Graph.Basic
import CaptureAutomata.Text.Quote

namespace CaptureAutomata

variable {V E : Type}

/-- An edge is written with its source, label and target by name. -/
instance [Quoted V] [Quoted E] : Quoted (Edge V E) where
  quote e :=
    "Path \x7b start: " ++ quote e.source ++ ", edge: " ++ quote e.label ++ ", end: " ++
      quote e.target ++ " \x7d"

/-- A mention of a vertex or state that a graph or automaton does not have. -/
inductive Undefined (V E : Type)
  /-- A traversal starts there. -/
  | traversalStart (vertex : V)
  /-- The only edge with its source and label ends there. -/
  | edgeEnd (edge : Edge V E)
  /-- One of the edges with its source and label ends there. -/
  | transitionEnd (edge : Edge V E)
  /-- An automaton starts there. -/
  | initialState (state : V)
  /-- A tag starts there. -/
  | tagStart (state : V)
  /-- A tag ends there. -/
  | tagEnd (state : V)
deriving DecidableEq, Repr

namespace Undefined

/-- What the missing vertex or state was mentioned as. -/
def role : Undefined V E → String
  | traversalStart _ => "traversal start"
  | edgeEnd _ => "edge end"
  | transitionEnd _ => "transition end"
  | initialState _ => "initial state"
  | tagStart _ => "tag start"
  | tagEnd _ => "tag end"

/-- The missing vertex or state, with the whole edge if it is the end of one. -/
def offender [Quoted V] [Quoted E] : Undefined V E → String
  | traversalStart v | initialState v | tagStart v | tagEnd v => quote v
  | edgeEnd e | transitionEnd e => quote e

/-- The text of the error. -/
def message [Quoted V] [Quoted E] (u : Undefined V E) : String :=
  "undefined " ++ u.role ++ ": " ++ u.offender

end Undefined

end CaptureAutomata
