/-
Regular expressions, ready to search texts:

* `Regex`: a pattern with its automata, and the sentinel, a character that is put behind every text
  because a match is only completed by the character after it;
* `Regex.compile`: the regular expression of a pattern;
* `Regex.matchesIn`, `Regex.find`, `Regex.isMatch`: the matches in a text from left to right, the
  first of them, and whether there is one;
* `Regex.nextMatch`: the matches one at a time.
-/
import CaptureAutomata.Regex.Match

namespace CaptureAutomata

/-- The deterministic automaton of a pattern. -/
abbrev PatternDfa : Type := Dfa (KeySet Nat) Char String

/-- A compiled pattern. -/
structure Regex where
  /-- The pattern. -/
  pattern : String
  /-- The character put behind every text. -/
  sentinel : Char
  /-- The automaton of the pattern. -/
  nfa : PatternNfa
  /-- Its deterministic form. -/
  dfa : PatternDfa
  /-- The automaton belongs to the pattern. -/
  nfa_eq : Nfa.ofPattern pattern = .ok nfa
  /-- The deterministic form belongs to the automaton. -/
  dfa_eq : nfa.toDfa = .ok dfa

/-- The deterministic automaton of the pattern with the given text. -/
def Dfa.ofPattern (text : String) : Except PatternError PatternDfa := do
  let nfa ← Nfa.ofPattern text
  nfa.toDfa.mapError .subset

namespace Regex

/-- The sentinel if none is given. -/
def defaultSentinel : Char := '\x00'

/-- The regular expression of a pattern. -/
def compile (pattern : String) (sentinel : Char := defaultSentinel) : Except PatternError Regex :=
  match hn : Nfa.ofPattern pattern with
  | .error e => .error e
  | .ok nfa =>
    match hd : nfa.toDfa with
    | .error e => .error (.subset e)
    | .ok dfa => .ok ⟨pattern, sentinel, nfa, dfa, hn, hd⟩

/-- The tape that a text is searched on. -/
def tape (r : Regex) (text : String) : Tape Char :=
  { symbols := text.toList ++ [r.sentinel] }

/-- The matches in a text, from left to right. -/
def matchesIn (r : Regex) (text : String) : List Match :=
  (r.dfa.evaluateAll (r.tape text)).filterMap Match.ofSpans

/-- The next match on a tape, and the tape behind it. Runs that do not close the main group make no
match. -/
def nextMatch (r : Regex) (tape : Tape Char) : Option Match × Tape Char :=
  match _h : r.dfa.nextSpans tape with
  | (none, tape') => (none, tape')
  | (some spans, tape') =>
    match Match.ofSpans spans with
    | some found => (some found, tape')
    | none => r.nextMatch tape'
termination_by tape.length - tape.index
decreasing_by exact Dfa.left_nextSpans_lt _h

/-- The first match in a text. -/
def find (r : Regex) (text : String) : Option Match :=
  (r.matchesIn text).head?

/-- Whether there is a match in a text. -/
def isMatch (r : Regex) (text : String) : Bool :=
  (r.find text).isSome

end Regex

end CaptureAutomata
