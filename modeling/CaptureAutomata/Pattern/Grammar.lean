/-
How patterns are written:

* `Pattern.text`: the characters of a pattern;
* `Literal.InItem`, `Literal.InClass`: the characters that stand for themselves outside and inside
  of a class;
* `Member.Separate`: a dash after a single character makes a range, unless it is the last member;
* `Pattern.WellFormed`: the trees that are written in the grammar of patterns.
-/
import CaptureAutomata.Pattern.Basic

namespace CaptureAutomata

/-! ### Texts -/

/-- The characters of a literal. -/
def Literal.text : Literal → List Char
  | plain c => [c]
  | escaped c => ['\\', c]

/-- The characters of a member of a class. -/
def Member.text : Member → List Char
  | literal l => l.text
  | range first last => first.text ++ '-' :: last.text

/-- The characters of a quantifier. -/
def Quantifier.text : Quantifier → List Char
  | once => []
  | optional => ['?']
  | oneOrMore => ['+']
  | zeroOrMore => ['*']

/-- The characters between the opening parenthesis and the body of a group. -/
def Header.text : Header → List Char
  | anonymous => []
  | angled name => ['?', '<'] ++ name.toList ++ ['>']
  | quoted name => ['?', '\''] ++ name.toList ++ ['\'']

namespace Pattern

mutual

/-- The characters of a pattern. -/
@[simp] def text : Pattern → List Char
  | .single branch => branch.text
  | .alternative branches branch => branches.text ++ '|' :: branch.text

/-- The characters of a branch. -/
@[simp] def Sequence.text : Sequence → List Char
  | .empty => []
  | .append items atom quantifier => items.text ++ (atom.text ++ quantifier.text)

/-- The characters of an atom. -/
@[simp] def Atom.text : Atom → List Char
  | .literal l => l.text
  | .charClass members => '[' :: members.flatMap Member.text ++ [']']
  | .group header body => '(' :: (header.text ++ body.text) ++ [')']

end

end Pattern

/-! ### Well-formed trees -/

/-- The characters that do not stand for themselves outside of a class. -/
def itemMarks : List Char :=
  ['\\', '(', ')', '[', ']', '|', '?', '+', '*', '^', '$', '.', '{']

/-- The literal can be an item. -/
def Literal.InItem : Literal → Prop
  | plain c => c ∉ itemMarks
  | escaped _ => True

/-- The literal can stand in a class. -/
def Literal.InClass : Literal → Prop
  | plain c => c ≠ '\\' ∧ c ≠ ']'
  | escaped _ => True

namespace Member

/-- The member is made of literals that can stand in a class, and a range ascends. -/
def WellFormed : Member → Prop
  | literal l => l.InClass
  | range first last =>
    first.InClass ∧ last.InClass ∧
      ∃ a b, first.meaning = .single a ∧ last.meaning = .single b ∧ a < b

/-- The member is a single character. -/
def IsSingle : Member → Prop
  | literal l => ∃ c, l.meaning = .single c
  | range _ _ => False

/-- No single character is followed by a dash and another member. -/
def Separate : List Member → Prop
  | [] => True
  | [_] => True
  | m :: n :: members =>
    (m.IsSingle → n.text.head? = some '-' → n = literal (.plain '-') ∧ members = []) ∧
      Separate (n :: members)

end Member

/-- The characters are those of a name. -/
def IsName (name : List Char) : Prop :=
  (∃ c, name.head? = some c ∧ Header.startsName c = true) ∧
    ∀ c ∈ name, Header.continuesName c = true

/-- The name of a group is one. -/
def Header.WellFormed : Header → Prop
  | anonymous => True
  | angled name | quoted name => IsName name.toList

namespace Pattern

mutual

/-- The pattern is written in the grammar of patterns. -/
def WellFormed : Pattern → Prop
  | .single branch => branch.WellFormed
  | .alternative branches branch => branches.WellFormed ∧ branch.WellFormed

/-- All items of the branch are well-formed. -/
def Sequence.WellFormed : Sequence → Prop
  | .empty => True
  | .append items atom _ => items.WellFormed ∧ atom.WellFormed

/-- The atom is an item literal, a class of well-formed members or a group with a name. -/
def Atom.WellFormed : Atom → Prop
  | .literal l => l.InItem
  | .charClass members => (∀ m ∈ members, m.WellFormed) ∧ Member.Separate members
  | .group header body => header.WellFormed ∧ body.WellFormed

end

end Pattern

end CaptureAutomata
