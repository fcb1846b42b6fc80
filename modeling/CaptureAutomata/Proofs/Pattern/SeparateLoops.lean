/-
Patterns whose loops do not meet:

* `Pattern.LoopsApart`: no item that may be repeated stands where branches start side by side, or right
  behind an item that is repeated from the very state where it ends;
* `Pattern.trips_eq_zero`: nothing leads back to where branches start that do not start with a loop;
* `Pattern.threaded_le_language`: if loops do not meet, only words that the pattern stands for are read
  on the way through it;
* `Pattern.accepts_iff_denotes`: then the automaton of the pattern accepts exactly these words.
-/
import CaptureAutomata.Proofs.Pattern.Acceptance

namespace CaptureAutomata

open scoped Computability

/-! ### Loops -/

/-- The quantifier lets an item be repeated, so that its end leads back to its start. -/
def Quantifier.LeadsBack : Quantifier → Prop
  | once | optional => False
  | oneOrMore | zeroOrMore => True

/-- This can be seen from the quantifier. -/
instance : DecidablePred Quantifier.LeadsBack
  | .once | .optional => inferInstanceAs (Decidable False)
  | .oneOrMore | .zeroOrMore => inferInstanceAs (Decidable True)

namespace Pattern

/-- The first item of the branch may be repeated. -/
def Sequence.StartsWithLoop : Sequence → Prop
  | .empty => False
  | .append items _ q => items.StartsWithLoop ∨ items = .empty ∧ q.LeadsBack

/-- The last item of the branch is read at least once: the branch ends in the state from where this item
is repeated. Items that may be left out end in a state of their own. -/
def Sequence.EndsInLoop : Sequence → Prop
  | .empty => False
  | .append _ _ q => q = .oneOrMore

/-- The first item of some branch may be repeated. -/
def StartsWithLoop : Pattern → Prop
  | .single branch => branch.StartsWithLoop
  | .alternative branches branch => branches.StartsWithLoop ∨ branch.StartsWithLoop

mutual

/-- If there are several branches, none of them starts with a loop, and loops are apart in each. -/
def LoopsApart : Pattern → Prop
  | .single branch => branch.LoopsApart
  | .alternative branches branch =>
    branches.LoopsApart ∧ branch.LoopsApart ∧ ¬ (alternative branches branch).StartsWithLoop

/-- No item that may be repeated stands right behind one that is read at least once, and loops are apart
in each item. -/
def Sequence.LoopsApart : Sequence → Prop
  | .empty => True
  | .append items atom q =>
    items.LoopsApart ∧ atom.LoopsApart ∧ (items.EndsInLoop → ¬ q.LeadsBack)

/-- Loops are apart in the body of a group. -/
def Atom.LoopsApart : Atom → Prop
  | .literal _ => True
  | .charClass _ => True
  | .group _ body => body.LoopsApart

end

/-! ### Deciding whether loops are apart -/

/-- Whether a branch has no item can be decided. -/
instance : DecidablePred (· = Sequence.empty)
  | .empty => isTrue rfl
  | .append _ _ _ => isFalse nofun

/-- Whether a branch starts with a loop can be decided. -/
instance Sequence.decidableStartsWithLoop : DecidablePred Sequence.StartsWithLoop
  | .empty => inferInstanceAs (Decidable False)
  | .append items _ q =>
    have := Sequence.decidableStartsWithLoop items
    inferInstanceAs (Decidable (items.StartsWithLoop ∨ items = .empty ∧ q.LeadsBack))

/-- Whether a branch ends in a loop can be decided. -/
instance : DecidablePred Sequence.EndsInLoop
  | .empty => inferInstanceAs (Decidable False)
  | .append _ _ q => inferInstanceAs (Decidable (q = .oneOrMore))

/-- Whether a branch of a pattern starts with a loop can be decided. -/
instance decidableStartsWithLoop : DecidablePred StartsWithLoop
  | .single branch => inferInstanceAs (Decidable branch.StartsWithLoop)
  | .alternative branches branch =>
    have := decidableStartsWithLoop branches
    inferInstanceAs (Decidable (branches.StartsWithLoop ∨ branch.StartsWithLoop))

mutual

/-- Whether loops are apart can be decided. -/
instance decidableLoopsApart : DecidablePred LoopsApart
  | .single branch => branch.decidableLoopsApart
  | .alternative branches branch =>
    have := decidableLoopsApart branches
    have := branch.decidableLoopsApart
    inferInstanceAs (Decidable (branches.LoopsApart ∧ branch.LoopsApart ∧
      ¬ (alternative branches branch).StartsWithLoop))

/-- Whether loops are apart in a branch can be decided. -/
instance Sequence.decidableLoopsApart : DecidablePred Sequence.LoopsApart
  | .empty => inferInstanceAs (Decidable True)
  | .append items atom q =>
    have := items.decidableLoopsApart
    have := atom.decidableLoopsApart
    inferInstanceAs (Decidable (items.LoopsApart ∧ atom.LoopsApart ∧
      (items.EndsInLoop → ¬ q.LeadsBack)))

/-- Whether loops are apart in an atom can be decided. -/
instance Atom.decidableLoopsApart : DecidablePred Atom.LoopsApart
  | .literal _ => inferInstanceAs (Decidable True)
  | .charClass _ => inferInstanceAs (Decidable True)
  | .group _ body => decidableLoopsApart body

end

end Pattern

/-! ### Trips -/

namespace Quantifier

variable {q : Quantifier} {A Y : Language Char}

/-- Without a loop there are no trips back. -/
lemma trips_eq_zero (h : ¬ q.LeadsBack) : q.trips A Y = 0 := by
  cases q with
  | once => rfl
  | optional => rfl
  | oneOrMore => exact absurd trivial h
  | zeroOrMore => exact absurd trivial h

/-- Trips back and then the way through an item are what the quantifier allows, unless an item that is
repeated from its end is also led back to from behind. -/
lemma kstar_trips_mul_passes_le (h : q = oneOrMore → Y = 0) :
    (q.trips A Y)∗ * q.passes A * Y∗ ≤ q.apply A * Y∗ := by
  cases q with
  | once => rw [trips, passes, apply, kstar_zero, one_mul]
  | optional => rw [trips, passes, apply, kstar_zero, one_mul]
  | oneOrMore =>
      obtain rfl := h rfl
      simp only [trips, passes, apply, kstar_zero, mul_one]
      rw [Language.mul_self_kstar_comm]
  | zeroOrMore => rw [trips, passes, apply, mul_one]

end Quantifier

namespace Pattern

/-- Nothing leads back to the start of a branch that does not start with a loop, or to that of an empty
one if nothing leads back to its end. -/
lemma Sequence.trips_eq_zero : ∀ {s : Sequence} {Y : Language Char}, ¬ s.StartsWithLoop →
    (s = .empty → Y = 0) → s.trips Y = 0
  | .empty, _, _, hempty => hempty rfl
  | .append items _ _, _, h, _ => by
      obtain ⟨hitems, hq⟩ := not_or.1 h
      refine Sequence.trips_eq_zero (s := items) hitems fun heq => ?_
      exact Quantifier.trips_eq_zero fun hback => hq ⟨heq, hback⟩

/-- Nothing leads back to where branches start that do not start with a loop. -/
lemma trips_eq_zero : ∀ {p : Pattern}, ¬ p.StartsWithLoop → p.trips = 0
  | .single _, h => Sequence.trips_eq_zero h fun _ => rfl
  | .alternative branches _, h => by
      obtain ⟨hbranches, hbranch⟩ := not_or.1 h
      have hleft := trips_eq_zero (p := branches) hbranches
      have hright := Sequence.trips_eq_zero (Y := 0) hbranch fun _ => rfl
      rw [trips, hleft, hright, add_zero]

/-- After no trips at all there is the way to the end of a branch. -/
lemma walks_le_threaded (p : Pattern) : p.walks ≤ p.threaded :=
  le_mul_of_one_le_left' one_le_kstar

/-! ### No word is added -/

mutual

/-- If loops are apart, only words of the pattern are read on the way through it. -/
theorem threaded_le_language : ∀ p : Pattern, p.LoopsApart → p.threaded ≤ p.language
  | .single branch, h => by
      have hbranch := branch.threaded_le h (Y := 0) fun _ => rfl
      rwa [kstar_zero, mul_one] at hbranch
  | .alternative branches branch, ⟨hbranches, hbranch, hstart⟩ => by
      have hleft := branches.walks_le_threaded.trans (branches.threaded_le_language hbranches)
      have hbranch := branch.threaded_le hbranch (Y := 0) fun _ => rfl
      rw [kstar_zero, mul_one] at hbranch
      have hright := (single branch).walks_le_threaded.trans hbranch
      -- the branches share their start, but nothing leads back to it
      rw [threaded, trips_eq_zero hstart, kstar_zero, one_mul, walks, language_alternative]
      exact add_le_add hleft hright

/-- If loops are apart, only words of the branch are read on the way through it, and then what leads
back to its end. -/
lemma Sequence.threaded_le : ∀ s : Sequence, s.LoopsApart → ∀ {Y : Language Char},
    (s.EndsInLoop → Y = 0) → (s.trips Y)∗ * s.walks Y ≤ s.language * Y∗
  | .empty, _, Y, _ => by
      rw [Sequence.trips, Sequence.walks, Sequence.language_empty, mul_one, one_mul]
  | .append items atom q, ⟨hitems, hatom, hq⟩, Y, hY => by
      rw [Sequence.trips, Sequence.walks, Sequence.language_append]
      have hback : items.EndsInLoop → q.trips atom.threaded Y = 0 := fun h =>
        Quantifier.trips_eq_zero (hq h)
      have hbefore := items.threaded_le hitems hback
      have hthreaded : atom.threaded = atom.language :=
        le_antisymm (atom.threaded_le_language hatom) atom.language_le
      calc (items.trips (q.trips atom.threaded Y))∗ *
            (items.walks (q.trips atom.threaded Y) * q.passes atom.threaded * Y∗)
          = (items.trips (q.trips atom.threaded Y))∗ * items.walks (q.trips atom.threaded Y) *
              (q.passes atom.threaded * Y∗) := by simp only [mul_assoc]
        _ ≤ items.language * (q.trips atom.threaded Y)∗ * (q.passes atom.threaded * Y∗) := by
            gcongr
        _ = items.language * ((q.trips atom.threaded Y)∗ * q.passes atom.threaded * Y∗) := by
            simp only [mul_assoc]
        _ ≤ items.language * (q.apply atom.threaded * Y∗) :=
            mul_le_mul' le_rfl (Quantifier.kstar_trips_mul_passes_le hY)
        _ = items.language * q.apply atom.language * Y∗ := by rw [hthreaded, mul_assoc]

/-- If loops are apart in an atom, only words of the atom are read on the way through it. -/
lemma Atom.threaded_le_language : ∀ a : Atom, a.LoopsApart → a.threaded ≤ a.language
  | .literal _, _ => le_rfl
  | .charClass _, _ => le_rfl
  | .group _ body, h => body.threaded_le_language h

end

/-- If loops are apart, the automaton of a pattern accepts exactly the words that the pattern stands
for. -/
theorem accepts_iff_denotes {text : String} {p : Pattern} (h : Pattern.parse text = .ok p)
    (hp : p.LoopsApart) :
    ∃ m, Nfa.ofPattern text = .ok m ∧ m.initial = 0 ∧
      ∀ w, m.Accepts mainGroup w ↔ p.Denotes w := by
  obtain ⟨m, stop, hm, hmain, haccepts⟩ := exists_ofPattern h
  refine ⟨m, hm, hmain.initial_eq, fun w => (haccepts w).trans ⟨fun hw => ?_, fun hw => ?_⟩⟩
  · exact p.threaded_le_language hp hw
  · exact p.language_le_threaded hw

/-- In `(ab+|c?d*)+e?` every loop has its own place, though they are nested and side by side: no word is
accepted that the pattern does not stand for. -/
theorem accepts_iff_denotes_of_nested_loops :
    ∃ p m, Pattern.parse "(ab+|c?d*)+e?" = .ok p ∧ p.LoopsApart ∧
      Nfa.ofPattern "(ab+|c?d*)+e?" = .ok m ∧ ∀ w, m.Accepts mainGroup w ↔ p.Denotes w := by
  let letter (c : Char) : Atom := .literal (.plain c)
  let body : Pattern := .alternative (.single ((Sequence.empty.append (letter 'a') .once).append
    (letter 'b') .oneOrMore)) ((Sequence.empty.append (letter 'c') .optional).append (letter 'd')
    .zeroOrMore)
  let p : Pattern := .single ((Sequence.empty.append (.group .anonymous body) .oneOrMore).append
    (letter 'e') .optional)
  have hp : Pattern.parse "(ab+|c?d*)+e?" = .ok p := rfl
  have hapart : p.LoopsApart := by decide
  obtain ⟨m, hm, -, haccepts⟩ := accepts_iff_denotes hp hapart
  exact ⟨p, m, hp, hapart, hm, haccepts⟩

end Pattern

end CaptureAutomata
