/-
What a reader has read:

* `Reader.text`: the characters read so far, put together from the open groups, the finished items
  and the place of the reader;
* `Reader.text_step`: reading a character adds it to them;
* `Pattern.text_of_parse`: a pattern is written as it was read.
-/
import CaptureAutomata.Pattern.Grammar
import CaptureAutomata.Pattern.Reader
import Mathlib.Tactic.Lemma

namespace CaptureAutomata

/-- The characters of the open groups, with all that stands before them. -/
@[simp] def OpenGroup.textOf : List OpenGroup → List Char
  | [] => []
  | g :: groups => textOf groups ++ g.outside.toPattern.text ++ '(' :: g.header.text

/-- The characters since the last member of a class. -/
def ClassPlace.text : ClassPlace → List Char
  | member => []
  | backslash _ => ['\\']
  | character first => first.literal.text
  | dash first => first.literal.text ++ ['-']
  | dashBackslash first _ => first.literal.text ++ ['-', '\\']

/-- The mark in front of the name. -/
def NameMarks.opening : NameMarks → Char
  | angles => '<'
  | quotes => '\''

/-- The characters since the last item. -/
def Place.text : Place → List Char
  | item => []
  | quantifier atom => atom.text
  | backslash _ => ['\\']
  | parenthesis _ => ['(']
  | questionMark _ => ['(', '?']
  | groupName _ marks name => ['(', '?', marks.opening] ++ name
  | charClass _ members place => '[' :: members.flatMap Member.text ++ place.text

/-- The characters read so far. -/
def Reader.text (r : Reader) : List Char :=
  OpenGroup.textOf r.groups ++ r.level.toPattern.text ++ r.place.text

/-! ### Levels -/

@[simp] lemma Level.text_bar (l : Level) : l.bar.toPattern.text = l.toPattern.text ++ ['|'] := by
  simp [bar, toPattern]

@[simp] lemma Level.text_append (l : Level) (atom : Pattern.Atom) (q : Quantifier) :
    (l.append atom q).toPattern.text = l.toPattern.text ++ (atom.text ++ q.text) := by
  rw [append, toPattern, toPattern]
  cases l.finished with
  | none => rfl
  | some branches => simp

@[simp] lemma Level.text_empty : ({} : Level).toPattern.text = [] := rfl

@[simp] lemma NameMarks.text_header (marks : NameMarks) (name : List Char) :
    (marks.header name).text = ['?', marks.opening] ++ name ++ [marks.closing] := by
  cases marks with
  | angles => simp [header, Header.text, opening, closing]
  | quotes => simp [header, Header.text, opening, closing]

namespace Reader

variable {r r' : Reader} {c : Char}

attribute [local simp] Place.text ClassPlace.text Literal.text Member.text

@[simp] lemma text_move (r : Reader) (place : Place) :
    (r.move place).text = OpenGroup.textOf r.groups ++ r.level.toPattern.text ++ place.text :=
  rfl

/-! ### Classes -/

/-- A literal in a class adds its characters. -/
@[simp] lemma text_classLiteral (r : Reader) (opened : Nat) (members : List Member) (l : Literal)
    (column : Nat) :
    (r.classLiteral opened members l column).text =
      OpenGroup.textOf r.groups ++ r.level.toPattern.text ++
        ('[' :: (members.flatMap Member.text ++ l.text)) := by
  rw [classLiteral]
  split
  next => simp
  next => simp

/-- The end of a range adds its characters. -/
lemma text_classRange {opened column : Nat} {members : List Member} {first : RangeStart}
    {last : Literal} (h : r.classRange opened members first last column = .ok r') :
    r'.text = OpenGroup.textOf r.groups ++ r.level.toPattern.text ++
      ('[' :: (members.flatMap Member.text ++ first.literal.text ++ '-' :: last.text)) := by
  rw [classRange] at h
  split at h
  next =>
    split at h
    next =>
      cases h
      simp
    next => cases h
  next => cases h

/-- A character of a class adds itself. -/
@[simp] lemma text_classMember (r : Reader) (opened : Nat) (members : List Member) (c : Char) :
    (r.classMember opened members c).text =
      OpenGroup.textOf r.groups ++ r.level.toPattern.text ++
        ('[' :: (members.flatMap Member.text ++ [c])) := by
  rw [classMember]
  split
  next hc => simp [hc]
  next =>
    split
    next hc => simp [hc]
    next => simp

/-- A character of a class adds itself, wherever it stands. -/
lemma text_classStep {opened : Nat} {members : List Member} {place : ClassPlace}
    (h : r.classStep opened members c place = .ok r') :
    r'.text = OpenGroup.textOf r.groups ++ r.level.toPattern.text ++
      (Place.charClass opened members place).text ++ [c] := by
  cases place with
  | member =>
    cases h
    simp
  | backslash column =>
    cases h
    simp
  | character first =>
    rw [classStep] at h
    split at h
    next hc =>
      cases h
      simp [hc]
    next =>
      cases h
      simp
  | dash first =>
    rw [classStep] at h
    split at h
    next =>
      cases h
      simp
    next =>
      split at h
      next hc =>
        cases h
        simp [hc]
      next => simp [text_classRange h]
  | dashBackslash first column =>
    simp [text_classRange h]

/-! ### Groups -/

/-- Inside of a group, its parenthesis and header have been read. -/
@[simp] lemma text_enter (r : Reader) (column : Nat) (header : Header) :
    (r.enter column header).text =
      OpenGroup.textOf r.groups ++ r.level.toPattern.text ++ '(' :: header.text := by
  simp [enter, text]

/-- A character of a name adds itself. -/
lemma text_nameStep {column : Nat} {marks : NameMarks} {name : List Char}
    (h : r.nameStep column marks name c = .ok r') :
    r'.text = OpenGroup.textOf r.groups ++ r.level.toPattern.text ++
      (Place.groupName column marks name).text ++ [c] := by
  rw [nameStep] at h
  split at h
  next hn =>
    split at h
    next =>
      cases h
      simp [List.isEmpty_iff.1 hn]
    next => cases h
  next =>
    split at h
    next hc =>
      cases h
      refine (text_enter r column (marks.header name)).trans ?_
      simp [hc]
    next =>
      split at h
      next => cases h
      next =>
        split at h
        next =>
          cases h
          simp
        next => cases h

/-- The character after a question mark adds itself. -/
lemma text_headerStep {column : Nat} (h : r.headerStep column c = .ok r') :
    r'.text = OpenGroup.textOf r.groups ++ r.level.toPattern.text ++
      (Place.questionMark column).text ++ [c] := by
  rw [headerStep] at h
  split at h
  next hc =>
    cases h
    simp [NameMarks.opening, hc]
  next =>
    split at h
    next hc =>
      cases h
      simp [NameMarks.opening, hc]
    next => cases h

/-- Closing a group adds a parenthesis. -/
lemma text_leave (h : r.leave = .ok r') :
    r'.text = OpenGroup.textOf r.groups ++ r.level.toPattern.text ++ [')'] := by
  rw [leave] at h
  split at h
  next => cases h
  next g groups hg =>
    cases h
    simp [hg]

/-! ### Items -/

/-- The first character of an item adds itself. -/
lemma text_itemStep (h : r.itemStep c = .ok r') :
    r'.text = OpenGroup.textOf r.groups ++ r.level.toPattern.text ++ [c] := by
  rw [itemStep.eq_def] at h
  split at h
  all_goals first
    | cases h
      done
    | cases h
      simp
    | exact text_leave h
    | skip
  rw [strayBracket] at h
  split at h
  all_goals cases h

lemma text_of_quantifier? {q : Quantifier} (h : quantifier? c = some q) : q.text = [c] := by
  rw [quantifier?.eq_def] at h
  split at h
  all_goals cases h
  all_goals rfl

/-- The character after an atom adds itself. -/
lemma text_quantifierStep {atom : Pattern.Atom} (h : r.quantifierStep atom c = .ok r') :
    r'.text = OpenGroup.textOf r.groups ++ r.level.toPattern.text ++ atom.text ++ [c] := by
  rw [quantifierStep] at h
  split at h
  next q hq =>
    cases h
    simp [append, text_of_quantifier? hq]
  next =>
    rw [text_itemStep h]
    simp [append, Quantifier.text]

/-! ### Whole patterns -/

lemma text_of_place {place : Place} (h : r.place = place) :
    r.text = OpenGroup.textOf r.groups ++ r.level.toPattern.text ++ place.text := by
  rw [text, h]

/-- Reading a character adds it to those read. -/
lemma text_step (h : r.step c = .ok r') : r'.text = r.text ++ [c] := by
  rw [step] at h
  split at h
  next hp =>
    rw [text_of_place hp, text_itemStep h]
    simp
  next hp =>
    rw [text_of_place hp, text_quantifierStep h]
    simp
  next hp =>
    cases h
    rw [text_of_place hp]
    simp
  next hp =>
    rw [text_of_place hp]
    split at h
    next hc =>
      cases h
      simp [hc]
    next =>
      rw [text_itemStep h]
      simp [enter, Header.text]
  next hp => rw [text_of_place hp, text_headerStep h]
  next hp => rw [text_of_place hp, text_nameStep h]
  next hp => rw [text_of_place hp, text_classStep h]

/-- Reading characters adds them to those read. -/
lemma text_read {cs : List Char} (h : r.read cs = .ok r') : r'.text = r.text ++ cs := by
  induction cs generalizing r with
  | nil =>
    cases h
    simp
  | cons c cs ih =>
    rw [read] at h
    rw [List.foldlM_cons] at h
    cases hs : r.step c with
    | error m => simp [hs, bind, Except.bind] at h
    | ok r₁ =>
      rw [hs] at h
      rw [ih h, text_step hs]
      simp

/-- Between two items and outside of all groups, the pattern is written as it was read. -/
lemma text_close {p : Pattern} (h : r.close = .ok p) :
    p.text = OpenGroup.textOf r.groups ++ r.level.toPattern.text := by
  rw [close] at h
  split at h
  next hg =>
    cases h
    simp [hg]
  next => cases h

/-- A pattern that may end is written as it was read. -/
lemma text_finish {p : Pattern} (h : r.finish = .ok p) : p.text = r.text := by
  rw [finish] at h
  split at h
  next hp =>
    rw [text_close h, text_of_place hp]
    simp
  next hp =>
    rw [text_close h, text_of_place hp]
    simp [append, Quantifier.text]
  all_goals cases h

/-- A pattern is written as it was read. -/
lemma text_readPattern {cs : List Char} {p : Pattern} (h : readPattern cs = .ok p) :
    p.text = cs := by
  rw [readPattern] at h
  split at h
  next => cases h
  next =>
    split at h
    next => cases h
    next r hr =>
      rw [text_finish h, text_read hr]
      rfl

end Reader

/-- A pattern is written as the text it was read from. -/
theorem Pattern.text_of_parse {t : String} {p : Pattern} (h : Pattern.parse t = .ok p) :
    p.text = t.toList := by
  rw [parse] at h
  cases hp : Reader.readPattern t.toList with
  | error m =>
    rw [hp] at h
    cases h
  | ok q =>
    rw [hp] at h
    cases h
    exact Reader.text_readPattern hp

end CaptureAutomata
