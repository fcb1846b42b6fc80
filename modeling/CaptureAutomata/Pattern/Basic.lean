/-
Patterns as trees:

* `Literal`: a character as it is written, on its own or after a backslash, and `Literal.meaning`,
  the characters it stands for;
* `Member`: one entry of a character class;
* `Quantifier`: how often an item may be repeated;
* `Header`: how the name of a group is written;
* `Pattern`, `Pattern.Sequence`, `Pattern.Atom`: the branches of a pattern, the items of a branch,
  and what an item repeats. Branches and items hang from the last one, as they are read from left
  to right.
-/
import CaptureAutomata.Key

namespace CaptureAutomata

/-! ### Single characters -/

/-- A character as it is written in a pattern. -/
inductive Literal
  /-- The character on its own. -/
  | plain (c : Char)
  /-- The character after a backslash. -/
  | escaped (c : Char)
deriving DecidableEq, Repr

/-- What a literal stands for. -/
inductive Meaning
  /-- Exactly this character. -/
  | single (c : Char)
  /-- Any of these characters. -/
  | oneOf (cs : List Char)
  /-- A carriage return, a line feed, or the one after the other. -/
  | lineBreak
deriving DecidableEq, Repr

/-- The characters from `first` to `last`, both included. -/
def charRange (first last : Char) : List Char :=
  ((List.range' first.toNat (last.toNat + 1 - first.toNat)).filter fun n =>
    decide n.isValidChar).map Char.ofNat

/-- The blanks: space, tab, carriage return, line feed, vertical tab and form feed. -/
def blanks : List Char :=
  [' ', '\t', '\r', '\n', '\x0b', '\x0c']

/-- What a literal stands for. After a backslash some letters and the zero have a meaning of their
own, and all other characters stand for themselves. -/
def Literal.meaning : Literal → Meaning
  | plain c => .single c
  | escaped c =>
    match c with
    | '0' => .single '\x00'
    | 'a' => .single '\x07'
    | 'e' => .single '\x1b'
    | 'f' => .single '\x0c'
    | 'n' => .single '\n'
    | 'r' => .single '\r'
    | 't' => .single '\t'
    | 'R' => .lineBreak
    | 'd' => .oneOf (charRange '0' '9')
    | 'w' => .oneOf ('_' :: charRange 'a' 'z' ++ charRange 'A' 'Z')
    | 's' => .oneOf blanks
    | c => .single c

/-- An entry of a character class. -/
inductive Member
  /-- What a literal stands for. -/
  | literal (l : Literal)
  /-- All characters from one to another. -/
  | range (first last : Literal)
deriving DecidableEq, Repr

/-- The characters of the range between two literals, if both stand for one character. -/
def rangeChars (first last : Literal) : List Char :=
  match first.meaning, last.meaning with
  | .single a, .single b => charRange a b
  | _, _ => []

/-- The ends of the range between two literals, if it is not empty and they are apart. -/
def rangeEnds (first last : Literal) : List Char :=
  match first.meaning, last.meaning with
  | .single a, .single b => if a < b then [a, b] else []
  | _, _ => []

/-! ### Items and groups -/

/-- How often an item may be repeated. -/
inductive Quantifier
  /-- Exactly once; nothing is written. -/
  | once
  /-- At most once. -/
  | optional
  /-- At least once. -/
  | oneOrMore
  /-- Any number of times. -/
  | zeroOrMore
deriving DecidableEq, Repr

/-- How the name of a group is written. -/
inductive Header
  /-- Not at all; the group is named by its number. -/
  | anonymous
  /-- Between angle brackets. -/
  | angled (name : String)
  /-- Between single quotes. -/
  | quoted (name : String)
deriving DecidableEq, Repr

/-- The name of a group, whose number among all groups is `number`. -/
def Header.name (number : Nat) : Header → String
  | anonymous => toString number
  | angled name | quoted name => name

/-- Whether the name of a group may start with `c`: an underscore or a letter without accent. -/
def Header.startsName (c : Char) : Bool :=
  c = '_' || c.isAlpha

/-- Whether the name of a group may go on with `c`, which may also be a digit. -/
def Header.continuesName (c : Char) : Bool :=
  c = '_' || c.isAlphanum

mutual

/-- A pattern: one or more branches. -/
inductive Pattern
  /-- Only one branch. -/
  | single (branch : Pattern.Sequence)
  /-- Some branches and one more. -/
  | alternative (branches : Pattern) (branch : Pattern.Sequence)

/-- A branch: items that follow each other. -/
inductive Pattern.Sequence
  /-- No items. -/
  | empty
  /-- Some items and one more. -/
  | append (items : Pattern.Sequence) (atom : Pattern.Atom) (quantifier : Quantifier)

/-- What an item repeats. -/
inductive Pattern.Atom
  /-- A literal. -/
  | literal (l : Literal)
  /-- Any character of a class. -/
  | charClass (members : List Member)
  /-- A group. -/
  | group (header : Header) (body : Pattern)

end

end CaptureAutomata
