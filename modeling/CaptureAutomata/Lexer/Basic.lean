/-
Lexers, which attribute pieces of text to symbols:

* `Lexer.Symbol`: a rule, a keyword, or the text between tokens;
* `Lexer.Part`: the pattern of a symbol with the number of its groups, and `Lexer.compose`,
  `Lexer.numbered`: all parts as one pattern with a group for each of them, and the number that each
  of these groups has;
* `Lexer.build`: the lexer for a vocabulary, keywords and settings;
* `Lexer.clash?`: the rules, and the text between tokens, that the automaton cannot tell apart.
-/
import CaptureAutomata.Lexer.Error
import CaptureAutomata.Regex.Basic
import CaptureAutomata.Regex.Escape

namespace CaptureAutomata

namespace Lexer

/-- What a lexer is told besides its vocabulary and keywords. -/
structure Settings where
  /-- The pattern of the text between tokens. -/
  ignore : String := "\\s+"
  /-- The symbol of the token at the end. -/
  eof : String := "<EOF>"
deriving DecidableEq, Repr

/-- What a piece of text is attributed to. -/
inductive Symbol
  /-- The text between tokens. -/
  | ignored
  /-- The rule of this name. -/
  | rule (name : String)
  /-- This keyword. -/
  | keyword (name : String)
deriving DecidableEq, Repr

/-- What the text between tokens is called in errors. -/
def ignoredName : String := "<IGNORE>"

namespace Symbol

/-- Whether the symbol is a keyword. -/
def isKeyword : Symbol → Bool
  | keyword _ => true
  | _ => false

/-- The symbol of a token; text between tokens makes none. -/
def tokenName? : Symbol → Option String
  | ignored => none
  | rule name | keyword name => some name

/-- The name of a symbol in errors; keywords cause none. -/
def errorName? : Symbol → Option String
  | ignored => some ignoredName
  | rule name => some name
  | keyword _ => none

end Symbol

/-! ### One pattern for all symbols -/

/-- The pattern of a symbol. -/
structure Part where
  /-- The symbol. -/
  symbol : Symbol
  /-- Its pattern. -/
  pattern : String
  /-- The number of groups in the pattern. -/
  groups : Nat
deriving DecidableEq, Repr

/-- The part of a symbol called `name` that is given by a pattern. -/
def Part.ofPattern (symbol : Symbol) (name pattern : String) : Except LexerError Part :=
  match Nfa.ofPattern pattern with
  | .ok nfa => .ok ⟨symbol, pattern, nfa.tags.length - 1⟩
  | .error (.malformed cause) => .error (.malformed name cause)
  | .error e => .error (.regex e)

/-- The part of a keyword. -/
def Part.ofKeyword (keyword : String) : Part :=
  ⟨.keyword keyword, escape keyword, 0⟩

/-- The parts of a lexer: the text between tokens, the rules by name, and the keywords. -/
def parts (vocabulary : KeyMap String String) (keywords : KeySet String) (settings : Settings) :
    Except LexerError (List Part) := do
  let ignored ← Part.ofPattern .ignored ignoredName settings.ignore
  let rules ← vocabulary.toList.mapM fun p => Part.ofPattern (.rule p.1) p.1 p.2
  return ignored :: rules ++ keywords.toList.map Part.ofKeyword

/-- All parts as one pattern, each in a group of its own. -/
def compose (parts : List Part) : String :=
  "|".intercalate (parts.map fun p => "(" ++ p.pattern ++ ")")

/-- The numbers of these groups, the first of which is `number`. -/
def numbered (number : Nat) : List Part → List (Nat × Symbol)
  | [] => []
  | p :: parts => (number, p.symbol) :: numbered (number + 1 + p.groups) parts

/-- The symbols by the names of their groups. -/
def symbolsOf (parts : List Part) : KeyMap String Symbol :=
  .ofList ((numbered 1 parts).map fun p => (toString p.1, p.2))

/-! ### Ambiguity -/

/-- The rules, and the text between tokens, that end in a state. -/
def endingIn (dfa : PatternDfa) (symbols : KeyMap String Symbol) (d : KeySet Nat) :
    KeySet String :=
  .ofList ((dfa.tagsEnding d).toList.filterMap fun tag => symbols[tag]? >>= Symbol.errorName?)

/-- The rules, and the text between tokens, that end in the first state where there is more than
one of them. -/
def clash? (dfa : PatternDfa) (symbols : KeyMap String Symbol) : Option (KeySet String) :=
  dfa.states.findSome? fun d =>
    let names := endingIn dfa symbols d
    if 1 < names.size then some names else none

end Lexer

/-- An automaton for all symbols of a vocabulary. -/
structure Lexer where
  /-- The pattern of all symbols, compiled. -/
  regex : Regex
  /-- What the lexer was told besides. -/
  settings : Lexer.Settings
  /-- The patterns of the rules, by name. -/
  vocabulary : KeyMap String String
  /-- The keywords. -/
  keywords : KeySet String
  /-- The symbols by the names of their groups. -/
  symbols : KeyMap String Lexer.Symbol

namespace Lexer

/-- What is wrong with a vocabulary and keywords, without reading any pattern. -/
def vocabularyError? (vocabulary : KeyMap String String) (keywords : KeySet String) :
    Option LexerError :=
  let duplicates := vocabulary.keys.filter (· ∈ keywords)
  if !duplicates.isEmpty then some (.duplicateSymbols (.ofList duplicates))
  else if (vocabulary.keys ++ keywords.toList).any String.isEmpty then some .emptySymbolName
  else (vocabulary.toList.find? (·.2.isEmpty)).map fun p => .emptyVocabularyPattern p.1

/-- The lexer for a vocabulary and keywords. -/
def build (vocabulary : KeyMap String String) (keywords : KeySet String)
    (settings : Settings := {}) : Except LexerError Lexer :=
  match vocabularyError? vocabulary keywords with
  | some e => .error e
  | none => do
    let parts ← parts vocabulary keywords settings
    let regex ← (Regex.compile (compose parts)).mapError .regex
    let symbols := symbolsOf parts
    match clash? regex.dfa symbols with
    | some names => .error (.ambiguousVocabulary names)
    | none => .ok { regex, settings, vocabulary, keywords, symbols }

/-- The symbols of the tokens, apart from the one at the end. -/
def tokenNames (lexer : Lexer) : List String :=
  lexer.vocabulary.keys ++ lexer.keywords.toList

end Lexer

end CaptureAutomata
