/-
The language of a pattern:

* `Meaning.Denotes`, `Member.Denotes`: the words that a literal or a member of a class stands for;
* `Repeats`: the words that are put together from words of a language;
* `Pattern.Denotes`: the words that a pattern stands for. Branches are united, items follow each
  other, and a group stands for what its body stands for.
-/
import CaptureAutomata.Pattern.Basic

namespace CaptureAutomata

/-- The word is one that a literal with this meaning stands for. -/
def Meaning.Denotes : Meaning → List Char → Prop
  | single c, w => w = [c]
  | oneOf cs, w => ∃ c ∈ cs, w = [c]
  | lineBreak, w => w = ['\r'] ∨ w = ['\n'] ∨ w = ['\r', '\n']

/-- The word is one that a member of a class stands for. -/
def Member.Denotes : Member → List Char → Prop
  | literal l, w => l.meaning.Denotes w
  | range first last, w => ∃ c ∈ rangeChars first last, w = [c]

/-- The word is put together from any number of words of `L`. -/
inductive Repeats (L : List Char → Prop) : List Char → Prop
  /-- The empty word is put together from none. -/
  | nil : Repeats L []
  /-- One more word of `L` may be put in front. -/
  | append {u v : List Char} (hu : L u) (hv : Repeats L v) : Repeats L (u ++ v)

/-- The word is put together from words of `L` as the quantifier allows. -/
def Quantifier.Denotes (L : List Char → Prop) : Quantifier → List Char → Prop
  | once, w => L w
  | optional, w => w = [] ∨ L w
  | oneOrMore, w => ∃ u v, w = u ++ v ∧ L u ∧ Repeats L v
  | zeroOrMore, w => Repeats L w

namespace Pattern

mutual

/-- The word is one of a branch. -/
def Denotes : Pattern → List Char → Prop
  | .single branch, w => branch.Denotes w
  | .alternative branches branch, w => branches.Denotes w ∨ branch.Denotes w

/-- The word is put together from words of the items, one after the other. -/
def Sequence.Denotes : Sequence → List Char → Prop
  | .empty, w => w = []
  | .append items atom quantifier, w =>
    ∃ u v, w = u ++ v ∧ items.Denotes u ∧ quantifier.Denotes atom.Denotes v

/-- The word is one of a literal, of a member or of the body. -/
def Atom.Denotes : Atom → List Char → Prop
  | .literal l, w => l.meaning.Denotes w
  | .charClass members, w => ∃ m ∈ members, m.Denotes w
  | .group _ body, w => body.Denotes w

end

end Pattern

end CaptureAutomata
