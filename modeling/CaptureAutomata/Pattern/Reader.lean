/-
Reading a pattern one character after the other:

* `Reader`: what has been read, as the innermost open group, the groups around it and the place in
  an item, a class or a name;
* `Reader.step`: reads one character;
* `Reader.finish`: the pattern, if it may end here;
* `Reader.readPattern`, `Pattern.parse`: read a whole pattern.
-/
import CaptureAutomata.Pattern.Basic
import CaptureAutomata.Pattern.Malformed

namespace CaptureAutomata

/-- The branches read so far, the last of which may still grow. -/
structure Level where
  /-- The branches before the last bar, if there is one. -/
  finished : Option Pattern := none
  /-- The items since then. -/
  current : Pattern.Sequence := .empty

namespace Level

/-- All branches as one pattern. -/
def toPattern (l : Level) : Pattern :=
  match l.finished with
  | none => .single l.current
  | some branches => .alternative branches l.current

/-- Starts another branch. -/
def bar (l : Level) : Level :=
  { finished := some l.toPattern }

/-- Adds an item to the last branch. -/
def append (l : Level) (atom : Pattern.Atom) (quantifier : Quantifier) : Level :=
  { l with current := l.current.append atom quantifier }

end Level

/-- A group that is not closed yet. -/
structure OpenGroup where
  /-- The column of its opening parenthesis. -/
  column : Nat
  /-- How its name is written. -/
  header : Header
  /-- The branches around it. -/
  outside : Level

/-- A single character of a class that a dash may turn into the start of a range. -/
structure RangeStart where
  /-- The literal. -/
  literal : Literal
  /-- The character it stands for. -/
  char : Char
  /-- The column it starts at. -/
  column : Nat

/-- A place in a character class. -/
inductive ClassPlace
  /-- Before a member or the closing bracket. -/
  | member
  /-- After the backslash at `column`. -/
  | backslash (column : Nat)
  /-- After a single character. -/
  | character (first : RangeStart)
  /-- After a single character and a dash. -/
  | dash (first : RangeStart)
  /-- After a single character, a dash and the backslash at `column`. -/
  | dashBackslash (first : RangeStart) (column : Nat)

/-- The marks around the name of a group. -/
inductive NameMarks
  /-- Angle brackets. -/
  | angles
  /-- Single quotes. -/
  | quotes
deriving DecidableEq, Repr

namespace NameMarks

/-- The mark after the name. -/
def closing : NameMarks → Char
  | angles => '>'
  | quotes => '\''

/-- The header with this name between the marks. -/
def header (marks : NameMarks) (name : List Char) : Header :=
  match marks with
  | angles => .angled (String.ofList name)
  | quotes => .quoted (String.ofList name)

end NameMarks

/-- A place in a pattern. -/
inductive Place
  /-- Before an item. -/
  | item
  /-- After an atom, before its quantifier. -/
  | quantifier (atom : Pattern.Atom)
  /-- After the backslash at `column`. -/
  | backslash (column : Nat)
  /-- After the opening parenthesis at `column`. -/
  | parenthesis (column : Nat)
  /-- After the question mark that follows the opening parenthesis at `column`. -/
  | questionMark (column : Nat)
  /-- In the name of the group opened at `column`, after the characters `name`. -/
  | groupName (column : Nat) (marks : NameMarks) (name : List Char)
  /-- In the character class opened at `column`, after `members`. -/
  | charClass (column : Nat) (members : List Member) (place : ClassPlace)

/-- A pattern that is being read. -/
structure Reader where
  /-- The number of characters read. -/
  column : Nat := 0
  /-- The open groups, the innermost first. -/
  groups : List OpenGroup := []
  /-- The branches of the innermost open group, or of the pattern if none is open. -/
  level : Level := {}
  /-- Where in them the next character stands. -/
  place : Place := .item

/-- The column of a mistake, and what is wrong there. -/
structure Mistake where
  /-- The number of characters before the one at fault. -/
  column : Nat
  /-- What is wrong there. -/
  reason : Malformed.Reason
deriving DecidableEq, Repr

namespace Reader

/-- The reader after one more character, at a new place. -/
def move (r : Reader) (place : Place) : Reader :=
  { r with column := r.column + 1, place }

/-- A mistake in the character that is being read. -/
def fail (r : Reader) (reason : Malformed.Reason) : Except Mistake Reader :=
  .error ⟨r.column, reason⟩

/-! ### Character classes -/

/-- Reads the last character of a literal in a class, which starts at `column`. -/
def classLiteral (r : Reader) (opened : Nat) (members : List Member) (l : Literal)
    (column : Nat) : Reader :=
  match l.meaning with
  | .single c => r.move (.charClass opened members (.character ⟨l, c, column⟩))
  | _ => r.move (.charClass opened (members ++ [.literal l]) .member)

/-- Reads the last character of the literal that ends a range, which starts at `column`. -/
def classRange (r : Reader) (opened : Nat) (members : List Member) (first : RangeStart)
    (last : Literal) (column : Nat) : Except Mistake Reader :=
  match last.meaning with
  | .single c =>
    if first.char < c then
      .ok (r.move (.charClass opened (members ++ [.range first.literal last]) .member))
    else .error ⟨first.column, .invalidCharacterClassRange first.char c⟩
  | _ => .error ⟨column, .unexpected .rangeEnd (some '\\')⟩

/-- Reads the first character of a member, or the bracket that closes the class. -/
def classMember (r : Reader) (opened : Nat) (members : List Member) (c : Char) : Reader :=
  if c = ']' then r.move (.quantifier (.charClass members))
  else if c = '\\' then r.move (.charClass opened members (.backslash r.column))
  else r.classLiteral opened members (.plain c) r.column

/-- Reads a character in a class. -/
def classStep (r : Reader) (opened : Nat) (members : List Member) (c : Char) :
    ClassPlace → Except Mistake Reader
  | .member => .ok (r.classMember opened members c)
  | .backslash column => .ok (r.classLiteral opened members (.escaped c) column)
  | .character first =>
    if c = '-' then .ok (r.move (.charClass opened members (.dash first)))
    else .ok (r.classMember opened (members ++ [.literal first.literal]) c)
  | .dash first =>
    if c = ']' then
      .ok (r.classMember opened (members ++ [.literal first.literal, .literal (.plain '-')]) c)
    else if c = '\\' then .ok (r.move (.charClass opened members (.dashBackslash first r.column)))
    else r.classRange opened members first (.plain c) r.column
  | .dashBackslash first column => r.classRange opened members first (.escaped c) column

/-! ### Groups -/

/-- The reader inside the group that was opened at `column`. -/
def enter (r : Reader) (column : Nat) (header : Header) : Reader :=
  { r with groups := ⟨column, header, r.level⟩ :: r.groups, level := {}, place := .item }

/-- Reads a character in the name of a group. -/
def nameStep (r : Reader) (column : Nat) (marks : NameMarks) (name : List Char) (c : Char) :
    Except Mistake Reader :=
  if name.isEmpty then
    if Header.startsName c then .ok (r.move (.groupName column marks [c]))
    else r.fail .invalidCaptureGroupName
  else if c = marks.closing then .ok ((r.enter column (marks.header name)).move .item)
  else if c = ')' then .error ⟨column, .unmatchedCaptureGroup⟩
  else if Header.continuesName c then .ok (r.move (.groupName column marks (name ++ [c])))
  else r.fail .invalidCaptureGroupName

/-- Reads the character after the question mark at the start of a group. -/
def headerStep (r : Reader) (column : Nat) (c : Char) : Except Mistake Reader :=
  if c = '<' then .ok (r.move (.groupName column .angles []))
  else if c = '\'' then .ok (r.move (.groupName column .quotes []))
  else r.fail .invalidCaptureGroupSyntax

/-- Reads the parenthesis that closes the innermost group. -/
def leave (r : Reader) : Except Mistake Reader :=
  match r.groups with
  | [] => r.fail (.unexpected .endOfPattern (some ')'))
  | g :: groups =>
    .ok ({ r with groups, level := g.outside }.move
      (.quantifier (.group g.header r.level.toPattern)))

/-- Reads a closing square bracket outside of a class. -/
def strayBracket (r : Reader) : Except Mistake Reader :=
  match r.groups with
  | [] => r.fail (.unexpected .endOfPattern (some ']'))
  | g :: _ => .error ⟨g.column, .unmatchedParenthesis⟩

/-! ### Items -/

/-- Reads the first character of an item, or the end of a branch or group. -/
def itemStep (r : Reader) (c : Char) : Except Mistake Reader :=
  match c with
  | '(' => .ok (r.move (.parenthesis r.column))
  | '[' => .ok (r.move (.charClass r.column [] .member))
  | '\\' => .ok (r.move (.backslash r.column))
  | '|' => .ok ({ r with level := r.level.bar }.move .item)
  | ')' => r.leave
  | ']' => r.strayBracket
  | '^' | '$' => r.fail (.notImplemented .anchors)
  | '.' => r.fail (.notImplemented .wildcard)
  | '{' => r.fail (.notImplemented .boundedRepetition)
  | '?' | '+' | '*' => r.fail (.unexpected .repeatable (some c))
  | c => .ok (r.move (.quantifier (.literal (.plain c))))

/-- The quantifier that a character is. -/
def quantifier? : Char → Option Quantifier
  | '?' => some .optional
  | '+' => some .oneOrMore
  | '*' => some .zeroOrMore
  | _ => none

/-- Adds an item to the last branch. -/
def append (r : Reader) (atom : Pattern.Atom) (quantifier : Quantifier) : Reader :=
  { r with level := r.level.append atom quantifier, place := .item }

/-- Reads the character after an atom. -/
def quantifierStep (r : Reader) (atom : Pattern.Atom) (c : Char) : Except Mistake Reader :=
  match quantifier? c with
  | some q => .ok ((r.append atom q).move .item)
  | none => (r.append atom .once).itemStep c

/-! ### Whole patterns -/

/-- Reads one character. -/
def step (r : Reader) (c : Char) : Except Mistake Reader :=
  match r.place with
  | .item => r.itemStep c
  | .quantifier atom => r.quantifierStep atom c
  | .backslash _ => .ok (r.move (.quantifier (.literal (.escaped c))))
  | .parenthesis column =>
    if c = '?' then .ok (r.move (.questionMark column))
    else (r.enter column .anonymous).itemStep c
  | .questionMark column => r.headerStep column c
  | .groupName column marks name => r.nameStep column marks name c
  | .charClass column members place => r.classStep column members c place

/-- The pattern of a reader between two items, unless a group is open. -/
def close (r : Reader) : Except Mistake Pattern :=
  match r.groups with
  | [] => .ok r.level.toPattern
  | g :: _ => .error ⟨g.column, .unmatchedParenthesis⟩

/-- The pattern, if it may end here. -/
def finish (r : Reader) : Except Mistake Pattern :=
  match r.place with
  | .item => r.close
  | .quantifier atom => (r.append atom .once).close
  | .backslash column => .error ⟨column, .danglingBackslash⟩
  | .parenthesis column => .error ⟨column, .unmatchedParenthesis⟩
  | .questionMark _ => .error ⟨r.column, .invalidCaptureGroupSyntax⟩
  | .groupName column _ _ => .error ⟨column, .unmatchedCaptureGroup⟩
  | .charClass _ _ (.backslash column) => .error ⟨column, .danglingBackslash⟩
  | .charClass _ _ (.dashBackslash _ column) => .error ⟨column, .danglingBackslash⟩
  | .charClass column _ _ => .error ⟨column, .unmatchedSquareBracket⟩

/-- Reads some characters. -/
def read (r : Reader) (cs : List Char) : Except Mistake Reader :=
  cs.foldlM step r

/-- Reads a whole pattern, which has at least one character. -/
def readPattern (cs : List Char) : Except Mistake Pattern :=
  if cs.isEmpty then .error ⟨0, .emptyPattern⟩
  else
    match ({} : Reader).read cs with
    | .error m => .error m
    | .ok r => r.finish

end Reader

/-- Reads a pattern. -/
def Pattern.parse (text : String) : Except Malformed Pattern :=
  (Reader.readPattern text.toList).mapError fun m => ⟨text, m.column, m.reason⟩

end CaptureAutomata
