/-
The words that the automaton of a pattern reads:

* `Pattern.language`, `Pattern.Sequence.language`, `Pattern.Atom.language`: the words that the parts of
  a pattern stand for, as languages, with one equation for each way to write a part;
* `Quantifier.trips`, `Quantifier.passes`: an item starts in the very state where the one before it
  ends, so what is repeated can be read there again and again, whatever else was read there;
* `Pattern.trips`, `Pattern.walks`, `Pattern.Atom.threaded`: the words read on the way round, back to
  the first state of a pattern, and on the way through it, to the end of one of its branches;
* `Pattern.language_le_threaded`: every word that a pattern stands for is read on such a way.
-/
import CaptureAutomata.Pattern.Language
import Mathlib

namespace CaptureAutomata

open scoped Computability

/-! ### Languages -/

/-- The words that a literal with this meaning stands for. -/
def Meaning.language (m : Meaning) : Language Char :=
  {w | m.Denotes w}

/-- The words that a member of a class stands for. -/
def Member.language (m : Member) : Language Char :=
  {w | m.Denotes w}

/-- Words put together from words of a language are those of its star. -/
lemma repeats_iff_mem_kstar {A : Language Char} {w : List Char} :
    Repeats (· ∈ A) w ↔ w ∈ A∗ := by
  constructor
  · intro h
    induction h with
    | nil => exact Language.nil_mem_kstar A
    | append hu _ ih =>
        have hmul : A * A∗ ≤ A∗ := mul_kstar_le_kstar
        exact hmul (Language.append_mem_mul hu ih)
  · rw [Language.mem_kstar]
    rintro ⟨l, rfl, hl⟩
    induction l with
    | nil => exact .nil
    | cons u l ih =>
        have htail : ∀ v ∈ l, v ∈ A := fun v hv => hl v (.tail _ hv)
        exact .append (hl u (.head _)) (ih htail)

/-- Behind the words of a language none of another need follow. -/
lemma le_mul_kstar {A B : Language Char} : A ≤ A * B∗ :=
  le_mul_of_one_le_right' one_le_kstar

/-- The words put together from words of a language as the quantifier allows. -/
def Quantifier.apply (A : Language Char) : Quantifier → Language Char
  | once => A
  | optional => 1 + A
  | oneOrMore => A * A∗
  | zeroOrMore => A∗

/-- What a quantifier denotes is a combination of languages. -/
lemma Quantifier.denotes_iff {A : Language Char} {q : Quantifier} {w : List Char} :
    q.Denotes (· ∈ A) w ↔ w ∈ q.apply A := by
  cases q with
  | once => rfl
  | optional => rfl
  | oneOrMore =>
      simp only [Denotes, apply, Language.mem_mul, repeats_iff_mem_kstar]
      constructor
      · rintro ⟨u, v, rfl, hu, hv⟩
        exact ⟨u, hu, v, hv, rfl⟩
      · rintro ⟨u, hu, v, hv, rfl⟩
        exact ⟨u, v, rfl, hu, hv⟩
  | zeroOrMore => exact repeats_iff_mem_kstar

namespace Pattern

/-- The words that a pattern stands for. -/
def language (p : Pattern) : Language Char :=
  {w | p.Denotes w}

/-- The words that a branch stands for. -/
def Sequence.language (s : Sequence) : Language Char :=
  {w | s.Denotes w}

/-- The words that an atom stands for. -/
def Atom.language (a : Atom) : Language Char :=
  {w | a.Denotes w}

@[simp] lemma language_single (branch : Sequence) : (single branch).language = branch.language := rfl

@[simp] lemma language_alternative (branches : Pattern) (branch : Sequence) :
    (alternative branches branch).language = branches.language + branch.language := rfl

@[simp] lemma Sequence.language_empty : empty.language = 1 := rfl

/-- Items follow each other. -/
@[simp] lemma Sequence.language_append (items : Sequence) (atom : Atom) (q : Quantifier) :
    (append items atom q).language = items.language * q.apply atom.language := by
  ext w
  show (∃ u v, w = u ++ v ∧ items.Denotes u ∧ q.Denotes atom.Denotes v) ↔ _
  rw [Language.mem_mul]
  constructor
  · rintro ⟨u, v, rfl, hu, hv⟩
    exact ⟨u, hu, v, Quantifier.denotes_iff.1 hv, rfl⟩
  · rintro ⟨u, hu, v, hv, rfl⟩
    exact ⟨u, v, rfl, hu, Quantifier.denotes_iff.2 hv⟩

end Pattern

/-! ### Ways through shared states -/

namespace Quantifier

/-- What is read on a trip back to the state that an item starts in, if the item leads through `A`
and `Y` is read on the trips back to the state that it ends in. -/
def trips (A Y : Language Char) : Quantifier → Language Char
  | once | optional => 0
  | oneOrMore => A * Y∗
  | zeroOrMore => A

/-- What is read on the way through an item after the last trip. -/
def passes (A : Language Char) : Quantifier → Language Char
  | once | oneOrMore => A
  | optional => 1 + A
  | zeroOrMore => 1

end Quantifier

namespace Pattern

mutual

/-- What is read on a trip back to the state that the branches start in. -/
def trips : Pattern → Language Char
  | .single branch => branch.trips 0
  | .alternative branches branch => branches.trips + branch.trips 0

/-- What is read on the way to the end of a branch after the last trip. -/
def walks : Pattern → Language Char
  | .single branch => branch.walks 0
  | .alternative branches branch => branches.walks + branch.walks 0

/-- What is read on a trip back to the state that a branch starts in, if `Y` is read on the trips
back to the state that it ends in. -/
def Sequence.trips (Y : Language Char) : Sequence → Language Char
  | .empty => Y
  | .append items atom q => items.trips (q.trips atom.threaded Y)

/-- What is read on the way through a branch after the last trip. -/
def Sequence.walks (Y : Language Char) : Sequence → Language Char
  | .empty => 1
  | .append items atom q =>
    items.walks (q.trips atom.threaded Y) * q.passes atom.threaded * Y∗

/-- What is read on the way through an atom. In a group, any number of trips come first. -/
def Atom.threaded : Atom → Language Char
  | .literal l => l.meaning.language
  | .charClass members => {w | ∃ m ∈ members, m.Denotes w}
  | .group _ body => body.trips∗ * body.walks

end

/-- What is read on the way through a pattern: any number of trips, and the way to the end of a
branch. -/
def threaded (p : Pattern) : Language Char :=
  p.trips∗ * p.walks

end Pattern

/-! ### No word is missing -/

/-- As often as the quantifier allows, an atom leads on from where trips may lead back to. -/
lemma Quantifier.mul_apply_le {q : Quantifier} {L A B Y : Language Char} (hAB : A ≤ B)
    (hL : L * q.trips B Y ≤ L) : L * q.apply A ≤ L * q.passes B * Y∗ := by
  cases q with
  | once =>
      calc L * A ≤ L * B := by gcongr
        _ ≤ L * B * Y∗ := le_mul_kstar
  | optional =>
      calc L * (1 + A) ≤ L * (1 + B) := by gcongr
        _ ≤ L * (1 + B) * Y∗ := le_mul_kstar
  | oneOrMore =>
      have hstar : L * A∗ ≤ L := mul_kstar_le_self <|
        calc L * A ≤ L * (B * Y∗) := by gcongr; exact hAB.trans le_mul_kstar
          _ ≤ L := hL
      calc L * (A * A∗) = L * A∗ * A := by rw [← Language.mul_self_kstar_comm, mul_assoc]
        _ ≤ L * B := by gcongr
        _ ≤ L * B * Y∗ := le_mul_kstar
  | zeroOrMore =>
      have hstar : L * A∗ ≤ L := mul_kstar_le_self <|
        calc L * A ≤ L * B := by gcongr
          _ ≤ L := hL
      calc L * A∗ ≤ L * 1 := by rwa [mul_one]
        _ ≤ L * 1 * Y∗ := le_mul_kstar

namespace Pattern

/-- What is read on trips back to the end of a branch may be read after the branch. -/
lemma Sequence.trips_mul_walks_mul_le (s : Sequence) (Y : Language Char) :
    (s.trips Y)∗ * s.walks Y * Y ≤ (s.trips Y)∗ * s.walks Y := by
  cases s with
  | empty =>
      simp only [trips, walks, mul_one]
      exact kstar_mul_le_kstar
  | append items atom q =>
      simp only [walks, mul_assoc]
      gcongr
      exact kstar_mul_le_kstar

mutual

/-- Every word that a pattern stands for is read on the way through it. -/
theorem language_le_threaded : ∀ p : Pattern, p.language ≤ p.threaded
  | .single branch => branch.language_le 0
  | .alternative branches branch => by
      have hbranches := branches.language_le_threaded
      have hbranch := branch.language_le 0
      have hleft : branches.trips ≤ branches.trips + branch.trips 0 := le_sup_left
      have hright : branch.trips 0 ≤ branches.trips + branch.trips 0 := le_sup_right
      rw [language_alternative, threaded, trips, walks]
      refine add_le (hbranches.trans ?_) (hbranch.trans ?_)
      · exact mul_le_mul' (kstar_mono hleft) le_sup_left
      · exact mul_le_mul' (kstar_mono hright) le_sup_right

/-- Every word that a branch stands for is read on the way through it. -/
lemma Sequence.language_le : ∀ (s : Sequence) (Y : Language Char),
    s.language ≤ (s.trips Y)∗ * s.walks Y
  | .empty, Y => by
      rw [Sequence.language_empty, Sequence.walks, mul_one]
      exact one_le_kstar
  | .append items atom q, Y => by
      rw [Sequence.language_append, Sequence.trips, Sequence.walks, ← mul_assoc, ← mul_assoc]
      calc items.language * q.apply atom.language
          ≤ (items.trips (q.trips atom.threaded Y))∗ * items.walks (q.trips atom.threaded Y) *
              q.apply atom.language := by
            gcongr
            exact items.language_le _
        _ ≤ _ := Quantifier.mul_apply_le atom.language_le (items.trips_mul_walks_mul_le _)

/-- Every word that an atom stands for is read on the way through it. -/
lemma Atom.language_le : ∀ a : Atom, a.language ≤ a.threaded
  | .literal _ => le_rfl
  | .charClass _ => le_rfl
  | .group _ body => body.language_le_threaded

end

end Pattern

end CaptureAutomata
