/-
The tokens of some lines:

* `Token`: a symbol, the text attributed to it, and where the text starts;
* `Lexer.symbolOf`: the symbol that a match is attributed to;
* `Lexer.tokenize`: the tokens of some lines, and one more at the end.
-/
import CaptureAutomata.Lexer.Basic
import CaptureAutomata.Text.Lines

namespace CaptureAutomata

/-- A piece of text attributed to a symbol. -/
structure Token where
  /-- The rule or keyword, or the symbol of the end. -/
  symbol : String
  /-- The text. -/
  text : String
  /-- The number of lines before its line. -/
  row : Nat
  /-- The number of characters before it in its line. -/
  column : Nat
deriving DecidableEq, Repr

namespace Lexer

/-- The symbols whose groups span exactly the match, in the order of the names of their groups. -/
def candidates (lexer : Lexer) (found : Match) : List Symbol :=
  (lexer.symbols.toList.filter fun p => found.group? p.1 = some found.span).map (·.2)

/-- The symbol of a match: a keyword if one spans it, and otherwise the first symbol that does. -/
def symbolOf (lexer : Lexer) (found : Match) : Option Symbol :=
  let symbols := lexer.candidates found
  symbols.find? Symbol.isKeyword <|> symbols.head?

/-- The token of a match, unless it is text between tokens. -/
def token? (lexer : Lexer) (row : Nat) (line : String) (found : Match) : Option Token :=
  (lexer.symbolOf found >>= Symbol.tokenName?).map fun symbol =>
    ⟨symbol, found.text line, row, found.span.start⟩

/-- The tokens of the line with number `row`. -/
def lineTokens (lexer : Lexer) (row : Nat) (line : String) : List Token :=
  (lexer.regex.matchesIn line).filterMap (lexer.token? row line)

/-- The end of the last match, of text between tokens too, on any line. -/
def lastStop (lexer : Lexer) (lines : List String) : Nat :=
  ((lines.flatMap lexer.regex.matchesIn).getLast?.map (·.span.stop)).getD 0

/-- The token at the end, on the last line. -/
def endToken (lexer : Lexer) (lines : List String) : Token :=
  ⟨lexer.settings.eof, "", lines.length - 1, lexer.lastStop lines⟩

/-- The tokens of some lines. -/
def tokenize (lexer : Lexer) (lines : List String) : List Token :=
  (lines.zipIdx.flatMap fun p => lexer.lineTokens p.2 p.1) ++ [lexer.endToken lines]

/-- The tokens of a text. -/
def tokenizeText (lexer : Lexer) (text : String) : List Token :=
  lexer.tokenize (Text.lines text)

end Lexer

end CaptureAutomata
