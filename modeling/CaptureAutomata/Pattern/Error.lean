/-
Patterns without an automaton:

* `PatternError`: why a text has no automaton as a pattern;
* `PatternError.message`: how that is told.
-/
import CaptureAutomata.Nfa.Subset
import CaptureAutomata.Pattern.Malformed

namespace CaptureAutomata

/-- Why a text has no automaton as a pattern. -/
inductive PatternError
  /-- It is no pattern. -/
  | malformed (cause : Malformed)
  /-- A state is missing from its automaton. -/
  | undefined (cause : Undefined Nat (Option Char))
  /-- Its automaton has no deterministic form. -/
  | subset (cause : Nfa.SubsetError Nat Char)

/-- The text of the error. -/
def PatternError.message : PatternError → String
  | malformed cause => cause.message
  | undefined cause => cause.message
  | subset cause => cause.message

end CaptureAutomata
