/-
The groups of a pattern as they show in its text:

* `Surroundings`: whether a character stands in a class or behind a backslash;
* `WrittenGroup`: the number of a group and the columns of its parentheses, `WrittenGroup.inside`: what
  stands between them, and `WrittenGroup.name`: the name that is written there, or else the number;
* `ParenthesisScan`: goes over a text from left to right, pairs the parentheses and numbers them by the
  opening ones;
* `openingsIn`, `groupsIn`: the opening parentheses of a text, and its groups in the order in which they
  are closed.

Parentheses count only outside of classes and if there is no backslash in front of them.
-/
import CaptureAutomata.Pattern.Basic
import Mathlib.Tactic.Lemma

namespace CaptureAutomata

/-- Where a character stands in the text of a pattern. -/
inductive Surroundings
  /-- Outside of all classes. -/
  | outside
  /-- Behind a backslash outside of all classes. -/
  | escaped
  /-- In a class. -/
  | inClass
  /-- Behind a backslash in a class. -/
  | escapedInClass
deriving DecidableEq, Repr

/-- Where the character after this one stands. -/
def Surroundings.next : Surroundings → Char → Surroundings
  | outside, '\\' => escaped
  | outside, '[' => inClass
  | outside, _ => outside
  | escaped, _ => outside
  | inClass, '\\' => escapedInClass
  | inClass, ']' => outside
  | inClass, _ => inClass
  | escapedInClass, _ => inClass

/-- Outside of all classes only two characters lead elsewhere. -/
lemma Surroundings.next_outside {c : Char} (hback : c ≠ '\\') (hclass : c ≠ '[') :
    outside.next c = outside := by
  rw [next.eq_def]
  split
  all_goals first
    | rfl
    | contradiction

/-- In a class only two characters lead elsewhere. -/
lemma Surroundings.next_inClass {c : Char} (hback : c ≠ '\\') (hclose : c ≠ ']') :
    inClass.next c = inClass := by
  rw [next.eq_def]
  split
  all_goals first
    | rfl
    | contradiction

/-- The name that is written at the start of a group, if there is one. -/
def nameAtStart : List Char → Option String
  | '?' :: '<' :: cs => some (String.ofList (cs.takeWhile (· ≠ '>')))
  | '?' :: '\'' :: cs => some (String.ofList (cs.takeWhile (· ≠ '\'')))
  | _ => none

/-- A group as it stands in a text. -/
structure WrittenGroup where
  /-- The number of the group, counted from 1 on in the order of the opening parentheses. -/
  number : Nat
  /-- The column of the opening parenthesis. -/
  opening : Nat
  /-- The column of the closing parenthesis. -/
  closing : Nat
deriving DecidableEq, Repr

namespace WrittenGroup

/-- What stands between the parentheses. -/
def inside (x : WrittenGroup) (text : List Char) : List Char :=
  text.extract (x.opening + 1) x.closing

/-- The name that is written in the group, if there is one. -/
def name? (x : WrittenGroup) (text : List Char) : Option String :=
  nameAtStart (x.inside text)

/-- The name that is written in the group, or else its number. -/
def name (x : WrittenGroup) (text : List Char) : String :=
  (x.name? text).getD (toString x.number)

end WrittenGroup

/-- What is known of the parentheses in the first characters of a text. -/
structure ParenthesisScan where
  /-- Where the next character stands. -/
  surroundings : Surroundings := .outside
  /-- The number of characters so far. -/
  column : Nat := 0
  /-- The columns of the opening parentheses so far. -/
  openings : List Nat := []
  /-- The columns and numbers of the groups that are not closed yet, the innermost first. -/
  pending : List (Nat × Nat) := []
  /-- The groups that are closed. -/
  closed : List WrittenGroup := []
deriving DecidableEq, Repr

namespace ParenthesisScan

/-- Goes over one more character. -/
def step (s : ParenthesisScan) (c : Char) : ParenthesisScan :=
  let passed := { s with surroundings := s.surroundings.next c, column := s.column + 1 }
  match s.surroundings, c, s.pending with
  | .outside, '(', pending =>
    { passed with
      openings := s.openings ++ [s.column]
      pending := (s.column, s.openings.length + 1) :: pending }
  | .outside, ')', (opening, number) :: pending =>
    { passed with pending, closed := s.closed ++ [⟨number, opening, s.column⟩] }
  | _, _, _ => passed

/-- Goes over some more characters. -/
def run (s : ParenthesisScan) (cs : List Char) : ParenthesisScan :=
  cs.foldl step s

lemma run_append (s : ParenthesisScan) (cs ds : List Char) :
    s.run (cs ++ ds) = (s.run cs).run ds :=
  List.foldl_append

end ParenthesisScan

/-- The columns of the opening parentheses of a text. -/
def openingsIn (text : List Char) : List Nat :=
  (({} : ParenthesisScan).run text).openings

/-- The groups of a text in the order of their closing parentheses. -/
def groupsIn (text : List Char) : List WrittenGroup :=
  (({} : ParenthesisScan).run text).closed

end CaptureAutomata
