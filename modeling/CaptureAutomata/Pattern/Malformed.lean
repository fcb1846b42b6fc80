/-
Patterns that cannot be read:

* `Malformed`: the pattern, the column of the character at fault, and the reason;
* `Malformed.Reason.message`, `Malformed.message`: how that is told.
-/
import CaptureAutomata.Text.Quote

namespace CaptureAutomata

/-- Something that patterns have elsewhere and that has no meaning here. -/
inductive Unsupported
  /-- Braces after an item. -/
  | boundedRepetition
  /-- A circumflex or a dollar sign. -/
  | anchors
  /-- A full stop. -/
  | wildcard
deriving DecidableEq, Repr

/-- What should have been written. -/
inductive Expected
  /-- Nothing more. -/
  | endOfPattern
  /-- An item in front of a quantifier. -/
  | repeatable
  /-- One character at the end of a range. -/
  | rangeEnd
deriving DecidableEq, Repr

/-- Why a pattern cannot be read. -/
inductive Malformed.Reason
  /-- There is nothing in it. -/
  | emptyPattern
  /-- It ends with a backslash. -/
  | danglingBackslash
  /-- A group is not closed. -/
  | unmatchedParenthesis
  /-- A character class is not closed. -/
  | unmatchedSquareBracket
  /-- The name of a group is not closed. -/
  | unmatchedCaptureGroup
  /-- A name holds another character than letters, digits and underscores, or starts with a digit. -/
  | invalidCaptureGroupName
  /-- A question mark at the start of a group is not followed by a name. -/
  | invalidCaptureGroupSyntax
  /-- A range does not ascend. -/
  | invalidCharacterClassRange (first last : Char)
  /-- Something without a meaning here. -/
  | notImplemented (what : Unsupported)
  /-- Something else should stand here. -/
  | unexpected (expected : Expected) (actual : Option Char)
deriving DecidableEq, Repr

/-- A pattern that cannot be read, and where and why. -/
structure Malformed where
  /-- The whole pattern. -/
  pattern : String
  /-- The number of characters before the one at fault. -/
  column : Nat
  /-- What is wrong there. -/
  reason : Malformed.Reason
deriving DecidableEq, Repr

/-- The text of what is not supported. -/
def Unsupported.message : Unsupported → String
  | boundedRepetition => "bounded repetition `\x7bn\x7d` and `\x7bn,m\x7d`"
  | anchors => "anchors `^` and `$`"
  | wildcard => "wildcard `.`"

/-- The text of what is expected. -/
def Expected.message : Expected → String
  | endOfPattern => "end of pattern"
  | repeatable => "a character, class or group to repeat"
  | rangeEnd => "a single character to end the range"

namespace Malformed

/-- A character with its code point. -/
def withCode (c : Char) : String :=
  quote c ++ " (code " ++ toString c.toNat ++ ")"

/-- The text of what was found; nothing is found at the end. -/
def found : Option Char → String
  | some c => quote c
  | none => "end of pattern"

/-- The text of a reason. -/
def Reason.message : Reason → String
  | emptyPattern => "empty pattern"
  | danglingBackslash => "dangling backslash"
  | unmatchedParenthesis => "unmatched opening parenthesis"
  | unmatchedSquareBracket => "unmatched opening square bracket"
  | unmatchedCaptureGroup => "unmatched opening capture group"
  | invalidCaptureGroupName =>
    "invalid capture group name, must match [A-Za-z_][A-Za-z0-9_]*"
  | invalidCaptureGroupSyntax =>
    "invalid capture group syntax, expected (?<name>...) or (?'name'...)"
  | invalidCharacterClassRange first last =>
    "invalid character class range, start " ++ withCode first ++ " must be less than end " ++
      withCode last
  | notImplemented what => "not implemented: " ++ what.message
  | unexpected expected actual => "expected " ++ expected.message ++ ", got " ++ found actual

/-- The column and the reason, the pattern, and a mark below the character at fault. -/
def message (m : Malformed) : String :=
  "syntax error:" ++ toString m.column ++ ": " ++ m.reason.message ++ "\n" ++ m.pattern ++ "\n" ++
    String.ofList (List.replicate m.column ' ') ++ "^"

end Malformed

end CaptureAutomata
