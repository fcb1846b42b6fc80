/-
Patterns for one text only:

* `Literal.ofChar`: a literal that stands for a given character, with a backslash where one is needed;
* `Pattern.ofChars`: the pattern whose items are such literals, and `Pattern.threaded_ofChars`: the only
  word that is read on the way through it;
* `Pattern.parse_escape`: an escaped text is read as this pattern.
-/
import CaptureAutomata.Pattern.Layout
import CaptureAutomata.Proofs.Pattern.Reading
import CaptureAutomata.Proofs.Pattern.Threaded
import CaptureAutomata.Regex.Escape

namespace CaptureAutomata

open scoped Computability

/-! ### Single characters -/

/-- The literal that stands for a character and nothing else. -/
def Literal.ofChar (c : Char) : Literal :=
  if c ∈ metacharacters then escaped c else plain c

namespace Literal

variable {c : Char}

@[simp] lemma text_ofChar : (ofChar c).text = escapeChar c := by
  rw [ofChar, escapeChar]
  split <;> rfl

/-- It stands for the character: no letter or digit is escaped. -/
lemma meaning_ofChar : (ofChar c).meaning = .single c := by
  rw [ofChar]
  split
  next hc =>
    have hall : ∀ d ∈ metacharacters, (escaped d).meaning = .single d := by
      simp [metacharacters, meaning]
    exact hall c hc
  next => rfl

/-- It can be an item: what does not stand for itself is escaped. -/
lemma inItem_ofChar : (ofChar c).InItem := by
  rw [ofChar]
  split
  next => trivial
  next hc =>
    have hall : ∀ d ∈ itemMarks, d ∈ metacharacters := by simp [metacharacters, itemMarks]
    exact fun hmark => hc (hall c hmark)

end Literal

/-! ### Texts -/

/-- Escaping drops no character. -/
lemma escape_ne_empty {text : String} (hne : text ≠ "") : escape text ≠ "" := by
  intro hempty
  have hchars : text.toList.flatMap escapeChar = [] := by
    rw [← String.toList_ofList (l := text.toList.flatMap escapeChar)]
    exact congrArg String.toList hempty
  have hnone : ∀ c, escapeChar c ≠ [] := fun c => by
    rw [escapeChar]
    split <;> simp
  refine hne (String.toList_eq_nil_iff.1 (List.eq_nil_iff_forall_not_mem.2 fun c hc => ?_))
  exact hnone c (List.flatMap_eq_nil_iff.1 hchars c hc)

/-- Two words that follow each other are one word. -/
lemma language_singleton_mul {A : Type} (u v : List A) :
    ({u} * {v} : Language A) = {u ++ v} :=
  Set.image2_singleton

namespace Pattern

/-- The branch goes on with characters. -/
def Sequence.appendChars (s : Sequence) : List Char → Sequence
  | [] => s
  | c :: cs => (s.append (.literal (.ofChar c)) .once).appendChars cs

namespace Sequence

/-- Characters can be items. -/
lemma wellFormed_appendChars {s : Sequence} (hs : s.WellFormed) (cs : List Char) :
    (s.appendChars cs).WellFormed := by
  induction cs generalizing s with
  | nil => exact hs
  | cons c cs ih => exact ih ⟨hs, Literal.inItem_ofChar⟩

/-- The characters are written behind what is there. -/
lemma text_appendChars (s : Sequence) (cs : List Char) :
    (s.appendChars cs).text = s.text ++ cs.flatMap escapeChar := by
  induction cs generalizing s with
  | nil => simp [appendChars]
  | cons c cs ih =>
      rw [appendChars, ih]
      simp [Quantifier.text]

/-- Characters are no groups. -/
lemma groups_appendChars (s : Sequence) (cs : List Char) : (s.appendChars cs).groups = s.groups := by
  induction cs generalizing s with
  | nil => rfl
  | cons c cs ih =>
      rw [appendChars, ih]
      rfl

/-- Nothing leads back from behind characters. -/
lemma trips_appendChars (s : Sequence) (cs : List Char) :
    (s.appendChars cs).trips 0 = s.trips 0 := by
  induction cs generalizing s with
  | nil => rfl
  | cons c cs ih =>
      rw [appendChars, ih]
      rfl

/-- The characters are read behind what is there. -/
lemma walks_appendChars (s : Sequence) (cs : List Char) :
    (s.appendChars cs).walks 0 = s.walks 0 * {cs} := by
  induction cs generalizing s with
  | nil => exact (mul_one _).symm
  | cons c cs ih =>
      have hchar : (s.append (.literal (.ofChar c)) .once).walks 0 = s.walks 0 * {[c]} := by
        have hsingle : (Literal.ofChar c).meaning.language = {[c]} := by
          rw [Literal.meaning_ofChar]
          rfl
        rw [Sequence.walks, Atom.threaded, hsingle, kstar_zero, mul_one]
        rfl
      rw [appendChars, ih, hchar, mul_assoc, language_singleton_mul]
      rfl

end Sequence

/-- The pattern whose items are characters. -/
def ofChars (cs : List Char) : Pattern :=
  .single (Sequence.empty.appendChars cs)

lemma wellFormed_ofChars (cs : List Char) : (ofChars cs).WellFormed :=
  Sequence.wellFormed_appendChars (s := .empty) trivial cs

@[simp] lemma text_ofChars (text : String) : (ofChars text.toList).text = (escape text).toList := by
  rw [ofChars, Pattern.text, Sequence.text_appendChars, escape, String.toList_ofList]
  rfl

@[simp] lemma groups_ofChars (cs : List Char) : (ofChars cs).groups = 0 :=
  Sequence.groups_appendChars _ cs

@[simp] lemma threaded_ofChars (cs : List Char) : (ofChars cs).threaded = {cs} := by
  rw [threaded, ofChars, trips, walks, Sequence.trips_appendChars, Sequence.walks_appendChars,
    Sequence.trips, Sequence.walks, kstar_zero, one_mul, one_mul]

/-- A text with at least one character is read, when it was escaped, as the pattern of its
characters. -/
lemma parse_escape {text : String} (hne : text ≠ "") :
    Pattern.parse (escape text) = .ok (ofChars text.toList) :=
  parse_of_wellFormed (wellFormed_ofChars _) (text_ofChars text) (escape_ne_empty hne)

end Pattern

end CaptureAutomata
