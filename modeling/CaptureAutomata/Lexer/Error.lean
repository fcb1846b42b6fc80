/-
Lexers that cannot be built:

* `LexerError`: why there is no lexer for a vocabulary;
* `LexerError.message`: how that is told.
-/
import CaptureAutomata.Pattern.Error

namespace CaptureAutomata

/-- Why there is no lexer for a vocabulary. -/
inductive LexerError
  /-- These symbols are both rules and keywords. -/
  | duplicateSymbols (symbols : KeySet String)
  /-- A rule or keyword has an empty name. -/
  | emptySymbolName
  /-- The rule for this symbol has an empty pattern. -/
  | emptyVocabularyPattern (symbol : String)
  /-- These symbols can match the same text. -/
  | ambiguousVocabulary (symbols : KeySet String)
  /-- The pattern of this symbol cannot be read. -/
  | malformed (symbol : String) (cause : Malformed)
  /-- The automaton of a pattern cannot be built. -/
  | regex (cause : PatternError)

namespace LexerError

/-- Symbols, separated by commas. -/
def list (symbols : KeySet String) : String :=
  ", ".intercalate symbols.toList

/-- The text of the error. -/
def message : LexerError → String
  | duplicateSymbols symbols =>
    "symbols defined both as vocabulary and as keyword: " ++ list symbols
  | emptySymbolName => "symbol names cannot be empty"
  | emptyVocabularyPattern symbol => "pattern of symbol " ++ symbol ++ " cannot be empty"
  | ambiguousVocabulary symbols =>
    "ambiguous vocabulary, these symbols can match the same text: " ++ list symbols
  | malformed symbol cause => "invalid pattern for symbol " ++ symbol ++ ":\n" ++ cause.message
  | regex cause => cause.message

end LexerError

end CaptureAutomata
