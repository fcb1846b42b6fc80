/-
Values written as text:

* `quoteChar`, `quoteString`: a character between single quotes, a string between double quotes,
  with tabs, line breaks, the quote itself, backslashes and unprintable characters written as
  escapes;
* `Quoted`: the types whose values have such a text.
-/
import CaptureAutomata.Key
import CaptureAutomata.Text.Printable

namespace CaptureAutomata.Text

/-- The hexadecimal digits of a code point, in lower case. -/
def hexDigits (code : Nat) : List Char :=
  Nat.toDigits 16 code

/-- The character `c` as it stands between two marks `mark`. -/
def quoted (mark c : Char) : List Char :=
  if c = '\x00' then ['\\', '0']
  else if c = '\t' then ['\\', 't']
  else if c = '\n' then ['\\', 'n']
  else if c = '\r' then ['\\', 'r']
  else if c = '\\' ∨ c = mark then ['\\', c]
  else if isPrintable c then [c]
  else ['\\', 'u', '\x7b'] ++ hexDigits c.toNat ++ ['\x7d']

/-- A character between single quotes. -/
def quoteChar (c : Char) : String :=
  String.ofList ('\'' :: quoted '\'' c ++ ['\''])

/-- A string between double quotes. -/
def quoteString (s : String) : String :=
  String.ofList ('"' :: s.toList.flatMap (quoted '"') ++ ['"'])

end CaptureAutomata.Text

namespace CaptureAutomata

open Text (quoteChar quoteString)

/-- The types whose values are written out in messages and drawings. -/
class Quoted (α : Type) where
  /-- The text of a value. -/
  quote : α → String

export Quoted (quote)

instance : Quoted Nat where
  quote := toString

instance : Quoted Int where
  quote := toString

instance : Quoted Char where
  quote := quoteChar

instance : Quoted String where
  quote := quoteString

variable {α : Type}

instance [Quoted α] : Quoted (Option α) where
  quote
    | none => "None"
    | some a => "Some(" ++ quote a ++ ")"

instance [Key α] [Quoted α] : Quoted (KeySet α) where
  quote s := "\x7b" ++ ", ".intercalate (s.toList.map quote) ++ "\x7d"

end CaptureAutomata
