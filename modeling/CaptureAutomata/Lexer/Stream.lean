/-
The tokens of some lines, one at a time:

* `Lexer.Line`: a line that is being split, with the tape on which its next match is looked for;
* `Lexer.Stream`: the lines that have not been read, the line that is being split, and what has to be
  known for the token at the end;
* `Lexer.nextToken`: the next token, and the stream behind it. A line is read when it is needed;
* `Lexer.stream`: the stream of some lines, of which nothing has been read.
-/
import CaptureAutomata.Lexer.Token
import Mathlib.Tactic.Lemma

namespace CaptureAutomata

/-- Fewer symbols are left behind a match. -/
lemma Regex.left_nextMatch_lt {r : Regex} {tape tape' : Tape Char} {found : Match}
    (h : r.nextMatch tape = (some found, tape')) :
    tape'.length - tape'.index < tape.length - tape.index := by
  induction tape using nextMatch.induct r with
  | case1 tape after hnone =>
    rw [nextMatch, hnone] at h
    cases h
  | case2 tape spans after hspans other hother =>
    rw [nextMatch, hspans] at h
    simp only [hother] at h
    cases h
    exact Dfa.left_nextSpans_lt hspans
  | case3 tape spans after hspans hnone ih =>
    rw [nextMatch, hspans] at h
    simp only [hnone] at h
    exact Nat.lt_trans (ih h) (Dfa.left_nextSpans_lt hspans)

namespace Lexer

/-- A line that is being split. -/
structure Line where
  /-- The number of lines before it. -/
  row : Nat
  /-- The line. -/
  text : String
  /-- The tape on which its next match is looked for. -/
  tape : Tape Char

/-- Lines that are being split into tokens. -/
structure Stream where
  /-- The lines that have not been read. -/
  lines : List String
  /-- The number of lines that have been read. -/
  row : Nat := 0
  /-- The line that is being split. -/
  line : Option Line := none
  /-- The number of the last line that has been read. -/
  lastRow : Nat := 0
  /-- The end of the last match, of text between tokens too. -/
  lastStop : Nat := 0
  /-- Whether the token at the end has been given. -/
  done : Bool := false

namespace Stream

/-- The stream behind a match that ends at `stop`, in a line that is searched on from there. -/
def pass (s : Stream) (line : Line) (tape : Tape Char) (stop : Nat) : Stream :=
  { s with line := some { line with tape }, lastStop := stop }

/-- The stream without the line that has been split. -/
def leaveLine (s : Stream) : Stream :=
  { s with line := none }

/-- The stream when the first of its lines is read, and searched on `tape`. -/
def readLine (s : Stream) (text : String) (rest : List String) (tape : Tape Char) : Stream :=
  { s with lines := rest, row := s.row + 1, line := some ⟨s.row, text, tape⟩, lastRow := s.row }

/-- How many symbols are left in the line that is being split, and one more if there is a line. -/
def left (s : Stream) : Nat :=
  match s.line with
  | none => 0
  | some line => line.tape.length - line.tape.index + 1

/-- Behind a match less is left of the line. -/
lemma left_pass_lt {s : Stream} {line : Line} {regex : Regex} {found : Match} {tape : Tape Char}
    (hline : s.line = some line) (hfound : regex.nextMatch line.tape = (some found, tape)) :
    (s.pass line tape found.span.stop).left < s.left := by
  simp only [pass, left, hline]
  exact Nat.succ_lt_succ (Regex.left_nextMatch_lt hfound)

/-- Without the line nothing is left of it. -/
lemma left_leaveLine_lt {s : Stream} {line : Line} (hline : s.line = some line) :
    s.leaveLine.left < s.left := by
  simp only [leaveLine, left, hline]
  exact Nat.succ_pos _

end Stream

/-- The next token, if there is one, and the stream behind it. Text between tokens makes none, and
after the last line comes one more token. -/
def nextToken (lexer : Lexer) (s : Stream) : Option Token × Stream :=
  match _hline : s.line with
  | some line =>
    match _hfound : lexer.regex.nextMatch line.tape with
    | (some found, tape) =>
      match lexer.token? line.row line.text found with
      | some token => (some token, s.pass line tape found.span.stop)
      | none => lexer.nextToken (s.pass line tape found.span.stop)
    | (none, _) => lexer.nextToken s.leaveLine
  | none =>
    match _hlines : s.lines with
    | text :: rest => lexer.nextToken (s.readLine text rest (lexer.regex.tape text))
    | [] =>
      if s.done then (none, s)
      else (some ⟨lexer.settings.eof, "", s.lastRow, s.lastStop⟩, { s with done := true })
termination_by (s.lines.length, s.left)
decreasing_by
  · exact .right _ (Stream.left_pass_lt _hline _hfound)
  · exact .right _ (Stream.left_leaveLine_lt _hline)
  · refine .left _ _ ?_
    rw [_hlines]
    exact Nat.lt_succ_self _

/-- The stream of some lines. -/
def stream (lines : List String) : Stream :=
  { lines }

end Lexer

end CaptureAutomata
