/-
Matching as a scan that only speaks of what the automaton of the pattern reads:

* `Nfa.stretch`: how many characters of a text can be read from a position on;
* `Nfa.longest`: how long the longest accepted part is that starts at the position and lies in this
  stretch;
* `Nfa.scan`: the longest accepted part at a position, if there is one, and then those found from where
  the stretch ends, but always further on;
* `Regex.matchesIn_eq_scan`: the matches in a text are those of its scan from the start.
-/
import CaptureAutomata.Proofs.Regex.Search

namespace CaptureAutomata

/-! ### Stretches -/

namespace Nfa

open Classical in
/-- The greatest number of characters that can be read of a text from position `i` on. -/
noncomputable def stretch (m : PatternNfa) (t : List Char) (i : Nat) : Nat :=
  Nat.findGreatest (fun n => ∃ s, m.Reaches ((t.drop i).take n) s) (t.length - i)

open Classical in
/-- The length of the longest part of a text that starts at position `i`, is accepted and not empty, and
lies in the stretch that can be read; zero if there is none. -/
noncomputable def longest (m : PatternNfa) (t : List Char) (i : Nat) : Nat :=
  Nat.findGreatest (fun k => 1 ≤ k ∧ m.Accepts mainGroup ((t.drop i).take k)) (m.stretch t i)

/-- The spans found by scanning a text from position `i` on. -/
noncomputable def scan (m : PatternNfa) (t : List Char) (i : Nat) : List Span :=
  if i < t.length then
    (if 1 ≤ m.longest t i then [⟨i, i + m.longest t i⟩] else []) ++
      m.scan t (max (i + m.stretch t i) (i + 1))
  else []
termination_by t.length - i

variable {m : PatternNfa} {t : List Char} {i n k : Nat}

/-- The stretch is as long as the longest prefix that can be read of what is left. -/
lemma stretch_eq (hn : m.Lasts (t.drop i) n) : m.stretch t i = n := by
  classical
  obtain ⟨⟨hle, hread⟩, hmax⟩ := hn
  rw [List.length_drop] at hle
  refine Nat.findGreatest_eq_iff.2 ⟨hle, fun _ => hread, fun j hj hjle hreads => ?_⟩
  have hmem : j ≤ n := hmax ⟨by rwa [List.length_drop], hreads⟩
  omega

/-- What is accepted can be read, so the longest accepted prefix lies in the stretch. -/
lemma Longest.le_stretch (hk : m.Longest (t.drop i) k) (hn : m.Lasts (t.drop i) n) : k ≤ n := by
  obtain ⟨⟨hle, -, tag, -, -, hreads⟩, -⟩ := hk
  exact hn.2 ⟨hle, tag.stop, hreads⟩

/-- The longest accepted part is the longest accepted prefix of what is left. -/
lemma longest_eq (hn : m.Lasts (t.drop i) n) (hk : m.Longest (t.drop i) k) : m.longest t i = k := by
  classical
  rw [longest, stretch_eq hn]
  refine Nat.findGreatest_eq_iff.2 ⟨hk.le_stretch hn, fun _ => hk.1.2, fun j hj hjle hacc => ?_⟩
  have hmem : j ≤ k := hk.2 ⟨hjle.trans hn.1.1, hacc⟩
  omega

/-- Without an accepted prefix there is no accepted part. -/
lemma longest_eq_zero (hn : m.Lasts (t.drop i) n) (hk : ¬ ∃ k, m.Longest (t.drop i) k) :
    m.longest t i = 0 := by
  classical
  rw [longest, stretch_eq hn, Nat.findGreatest_eq_zero_iff]
  rintro j - hle ⟨hpos, hacc⟩
  exact hk (exists_longest ⟨j, hle.trans hn.1.1, by simpa using hpos, hacc⟩)

/-- A scan attempt by attempt finds the spans of the scan. -/
lemma Scan.eq_scan {spans : List Span} (h : m.Scan t i spans) : m.scan t i = spans := by
  induction h with
  | done hi => rw [scan, if_neg (by omega)]
  | @hit i n k spans hi hn hk _ ih =>
      have hpos : 1 ≤ k := hk.1.2.1
      rw [scan, if_pos hi, stretch_eq hn, longest_eq hn hk, if_pos hpos, ih]
      rfl
  | @miss i n spans hi hn hk _ ih =>
      rw [scan, if_pos hi, stretch_eq hn, longest_eq_zero hn hk, if_neg (by omega), ih]
      rfl

end Nfa

/-! ### Matches -/

namespace Regex

/-- If no state has a transition on the sentinel, the matches in a text are those found by scanning it
from the start: at each position the longest part that the automaton of the pattern accepts, if there is
one, and then from where the automaton could not read on, but always further on. -/
theorem matchesIn_eq_scan {r : Regex} (hc : ∀ q ∈ r.dfa.states, r.dfa.next? q r.sentinel = none)
    (text : String) : (r.matchesIn text).map (·.span) = r.nfa.scan text.toList 0 :=
  (scan_matchesIn hc text).eq_scan.symm

/-- In `abcabcd` the first run accepts `ab`, reads on to `abc` and dies, so that the second one starts
behind the `c` and finds `abcd` whole. -/
theorem scan_of_run_past_match :
    ∃ r, compile "ab|abcd" = .ok r ∧ (∀ q ∈ r.dfa.states, r.dfa.next? q r.sentinel = none) ∧
      r.nfa.scan "abcabcd".toList 0 = [⟨0, 2⟩, ⟨3, 7⟩] := by
  obtain ⟨r, hr, hc, hspans⟩ := exists_ok_of_decide (x := compile "ab|abcd")
    (P := fun r => (∀ q ∈ r.dfa.states, r.dfa.next? q r.sentinel = none) ∧
      (r.matchesIn "abcabcd").map (·.span) = [⟨0, 2⟩, ⟨3, 7⟩]) (by decide +kernel)
  exact ⟨r, hr, hc, (matchesIn_eq_scan hc "abcabcd").symm.trans hspans⟩

end Regex

end CaptureAutomata
