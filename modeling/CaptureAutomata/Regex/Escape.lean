/-
Texts as patterns:

* `escape`: a pattern that matches a given text and nothing else, made by putting a backslash in
  front of every character that means something in a pattern.
-/
import CaptureAutomata.Key

namespace CaptureAutomata

/-- The characters that mean something in a pattern. -/
def metacharacters : List Char :=
  ['\\', '(', ')', '[', ']', '{', '}', '|', '?', '+', '*', '^', '$', '.']

/-- A character, after a backslash if it means something in a pattern. -/
def escapeChar (c : Char) : List Char :=
  if c ∈ metacharacters then ['\\', c] else [c]

/-- The pattern that matches `text` and nothing else. -/
def escape (text : String) : String :=
  String.ofList (text.toList.flatMap escapeChar)

end CaptureAutomata
