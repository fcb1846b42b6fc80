/-
The lines of a text:

* `lines`: a text cut at its line feeds. A carriage return right before a line feed belongs to the
  cut, and a cut at the very end starts no further line.
-/
import CaptureAutomata.Key

namespace CaptureAutomata.Text

/-- Puts a character in front of the first line. -/
def consLine (c : Char) : List (List Char) → List (List Char)
  | [] => [[c]]
  | line :: rest => (c :: line) :: rest

/-- The lines of some characters. -/
def cutLines : List Char → List (List Char)
  | [] => []
  | '\r' :: '\n' :: cs => [] :: cutLines cs
  | '\n' :: cs => [] :: cutLines cs
  | c :: cs => consLine c (cutLines cs)

/-- The lines of a text. -/
def lines (text : String) : List String :=
  (cutLines text.toList).map String.ofList

end CaptureAutomata.Text
