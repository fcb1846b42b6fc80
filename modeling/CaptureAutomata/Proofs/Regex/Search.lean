/-
Searching a text:

* `Nfa.Scan`: the spans that are found by scanning a text attempt by attempt. Each attempt takes the
  longest accepted prefix of what is left, and the next one starts where it could not read on;
* `Dfa.scan_runsFrom`, `Regex.scan_matchesIn`: the matches in a text are those of its scan;
* `Nfa.Attempt`: the positions that attempts start at;
* `Regex.find_isLeast`: there is a match exactly if an accepted word starts at an attempt, and the
  first match starts at the leftmost of these. Positions without an attempt lie inside of the stretch
  that an attempt before them has read.
-/
import CaptureAutomata.Proofs.Regex.Attempt

namespace CaptureAutomata

/-! ### Scans -/

namespace Nfa

/-- Scanning the text from a position on finds these spans. -/
inductive Scan (m : PatternNfa) (t : List Char) : Nat → List Span → Prop
  /-- Behind the text nothing is found. -/
  | done {i : Nat} (h : t.length ≤ i) : Scan m t i []
  /-- An attempt finds the longest accepted prefix of what is left. -/
  | hit {i n k : Nat} {spans : List Span} (hi : i < t.length) (hn : m.Lasts (t.drop i) n)
      (hk : m.Longest (t.drop i) k) (h : Scan m t (max (i + n) (i + 1)) spans) :
      Scan m t i (⟨i, i + k⟩ :: spans)
  /-- An attempt may find nothing. -/
  | miss {i n : Nat} {spans : List Span} (hi : i < t.length) (hn : m.Lasts (t.drop i) n)
      (hk : ¬ ∃ k, m.Longest (t.drop i) k) (h : Scan m t (max (i + n) (i + 1)) spans) :
      Scan m t i spans

/-- An attempt reads no further than the text goes. -/
lemma Lasts.le_length {m : PatternNfa} {t : List Char} {i n : Nat} (h : m.Lasts (t.drop i) n)
    (hi : i ≤ t.length) : i + n ≤ t.length := by
  have hle := h.1.1
  rw [List.length_drop] at hle
  omega

end Nfa

namespace Dfa

variable {m : PatternNfa} {d : PatternDfa} {stop : Nat} {c : Char}

/-- The matches among the results of some runs. -/
def spansOf (runs : List (Nat × Option (Spans String))) : List Span :=
  runs.filterMap fun x => x.2.bind (·[mainGroup]?)

/-- A run that closes the main group is a match. -/
lemma spansOf_cons_some {x : Nat × Option (Spans String)} {s : Span}
    {runs : List (Nat × Option (Spans String))} (h : x.2.bind (·[mainGroup]?) = some s) :
    spansOf (x :: runs) = s :: spansOf runs :=
  List.filterMap_cons_some h

/-- A run that does not close the main group is none. -/
lemma spansOf_cons_none {x : Nat × Option (Spans String)}
    {runs : List (Nat × Option (Spans String))} (h : x.2.bind (·[mainGroup]?) = none) :
    spansOf (x :: runs) = spansOf runs :=
  List.filterMap_cons_none h

/-- The runs over the rest of a text find what scanning it finds. -/
lemma scan_runsFrom (hm : m.HasMain stop) (hd : m.IsDeterminizedBy d)
    (hc : ∀ q, d.next? q c = none) (t : List Char) {i : Nat} (hi : i ≤ t.length) :
    m.Scan t i (spansOf (d.runsFrom i (t.drop i ++ [c]))) := by
  induction hlen : t.length - i using Nat.strong_induction_on generalizing i with
  | _ len ih =>
      obtain ⟨⟨n, hn, hindex⟩, hfound, hnone⟩ := run_main hm hd hc i (t.drop i)
      have hle := hn.le_length hi
      rw [runsFrom_within hi hle hindex]
      by_cases hlt : i < t.length
      · have hrest := ih (t.length - max (i + n) (i + 1)) (by omega)
          (i := max (i + n) (i + 1)) (by omega) rfl
        rw [if_pos hlt]
        by_cases hk : ∃ k, m.Longest (t.drop i) k
        · obtain ⟨k, hk⟩ := hk
          rw [spansOf_cons_some (hfound k hk)]
          exact .hit hlt hn hk hrest
        · rw [spansOf_cons_none (hnone hk)]
          exact .miss hlt hn hk hrest
      · -- only the sentinel is left
        obtain rfl : i = t.length := by omega
        have hk : ¬ ∃ k, m.Longest (t.drop t.length) k := by
          rintro ⟨k, hk⟩
          have hshort := hk.1.1
          have hpos := hk.1.2.1
          simp only [List.drop_length, List.length_nil] at hshort
          omega
        rw [if_neg hlt, spansOf_cons_none (hnone hk), runsFrom]
        exact .done le_rfl

end Dfa

/-! ### Attempts -/

namespace Nfa

/-- Attempts that go on from position `i` come to start at position `j`. -/
inductive Attempt (m : PatternNfa) (t : List Char) : Nat → Nat → Prop
  /-- An attempt starts where it starts. -/
  | here (i : Nat) : Attempt m t i i
  /-- In the text, the next attempt starts where this one could not read on, but always further on. -/
  | next {i n j : Nat} (hi : i < t.length) (hn : m.Lasts (t.drop i) n)
      (h : Attempt m t (max (i + n) (i + 1)) j) : Attempt m t i j

/-- A part of the text that starts at position `i` is accepted and not empty. -/
def StartsMatch (m : PatternNfa) (t : List Char) (i : Nat) : Prop :=
  ∃ k, i + k ≤ t.length ∧ 1 ≤ k ∧ m.Accepts mainGroup ((t.drop i).take k)

variable {m : PatternNfa} {t : List Char} {i j : Nat}

/-- Where an accepted part starts, there is a longest one. -/
lemma startsMatch_iff (hi : i ≤ t.length) : m.StartsMatch t i ↔ ∃ k, m.Longest (t.drop i) k := by
  constructor
  · rintro ⟨k, hle, hpos, haccepts⟩
    refine exists_longest ⟨k, ?_, by simpa using hpos, haccepts⟩
    rw [List.length_drop]
    omega
  · rintro ⟨k, ⟨hle, hpos, haccepts⟩, -⟩
    rw [List.length_drop] at hle
    exact ⟨k, by omega, hpos, haccepts⟩

lemma Attempt.le (h : m.Attempt t i j) : i ≤ j := by
  induction h with
  | here i => exact le_rfl
  | next _ _ _ ih => omega

lemma Attempt.trans {k : Nat} (h : m.Attempt t i j) (hk : m.Attempt t j k) : m.Attempt t i k := by
  induction h with
  | here i => exact hk
  | next hi hn _ ih => exact .next hi hn (ih hk)

/-- Attempts come to no other position than where they are but over the next one. -/
lemma Attempt.eq_or_next {n : Nat} (h : m.Attempt t i j) (hn : m.Lasts (t.drop i) n) :
    j = i ∨ m.Attempt t (max (i + n) (i + 1)) j := by
  cases h with
  | here i => exact Or.inl rfl
  | next hi hn' h =>
      obtain rfl := hn.unique hn'
      exact Or.inr h

/-- A position without an attempt lies inside of the stretch that an attempt before it has read. -/
lemma exists_attempt_around (hj : j ≤ t.length) (h : ¬ m.Attempt t 0 j) :
    ∃ i n, m.Attempt t 0 i ∧ m.Lasts (t.drop i) n ∧ i < j ∧ j < i + n := by
  -- the last attempt up to the position
  have hb : BddAbove {i | m.Attempt t 0 i ∧ i ≤ j} := ⟨j, fun i hi => hi.2⟩
  obtain ⟨i, ⟨hattempt, hle⟩, hlast⟩ : ∃ i, IsGreatest {i | m.Attempt t 0 i ∧ i ≤ j} i :=
    ⟨_, Nat.sSup_mem ⟨0, .here 0, Nat.zero_le j⟩ hb, fun k hk => le_csSup hb hk⟩
  have hlt : i < j := lt_of_le_of_ne hle fun heq => h (heq ▸ hattempt)
  obtain ⟨n, hn⟩ := m.exists_lasts (t.drop i)
  refine ⟨i, n, hattempt, hn, hlt, ?_⟩
  by_contra hread
  have hnext : max (i + n) (i + 1) ≤ i :=
    hlast ⟨hattempt.trans (.next (by omega) hn (.here _)), by omega⟩
  omega

/-- The first span of a scan starts at the leftmost attempt that an accepted part starts at, and if
there is none, no accepted part starts at an attempt. -/
lemma Scan.head {spans : List Span} (h : m.Scan t i spans) :
    (∀ s, spans.head? = some s → IsLeast {j | m.Attempt t i j ∧ m.StartsMatch t j} s.start) ∧
      (spans = [] → ∀ j, m.Attempt t i j → ¬ m.StartsMatch t j) := by
  induction h with
  | done hi =>
      refine ⟨by simp, fun _ j hj hstarts => ?_⟩
      obtain ⟨k, hle, hpos, -⟩ := hstarts
      have := hj.le
      omega
  | @hit i n k spans hi hn hk _ _ =>
      refine ⟨fun s hs => ?_, by simp⟩
      obtain rfl := Option.some.inj hs
      exact ⟨⟨.here i, (startsMatch_iff hi.le).2 ⟨k, hk⟩⟩, fun j hj => hj.1.le⟩
  | @miss i n spans hi hn hk _ ih =>
      have hlater : ∀ j, m.Attempt t i j → m.StartsMatch t j →
          m.Attempt t (max (i + n) (i + 1)) j := by
        intro j hj hstarts
        rcases hj.eq_or_next hn with rfl | hnext
        · exact absurd ((startsMatch_iff hi.le).1 hstarts) hk
        · exact hnext
      refine ⟨fun s hs => ?_, fun hempty j hj hstarts => ?_⟩
      · obtain ⟨⟨hattempt, hstarts⟩, hleast⟩ := ih.1 s hs
        exact ⟨⟨.next hi hn hattempt, hstarts⟩, fun j hj => hleast ⟨hlater j hj.1 hj.2, hj.2⟩⟩
      · exact ih.2 hempty j (hlater j hj hstarts) hstarts

end Nfa

/-! ### Regular expressions -/

namespace Regex

/-- The automaton of a regular expression has a main tag. -/
lemma exists_hasMain (r : Regex) : ∃ stop, r.nfa.HasMain stop := by
  obtain ⟨p, hp, -⟩ := bind_eq_ok.1 r.nfa_eq
  obtain ⟨m, stop, hm, hmain, -⟩ := Pattern.exists_ofPattern (mapError_eq_ok.1 hp)
  rw [r.nfa_eq] at hm
  obtain rfl := Except.ok.inj hm
  exact ⟨stop, hmain⟩

/-- The deterministic automaton of a regular expression belongs to the other one. -/
lemma isDeterminizedBy (r : Regex) : r.nfa.IsDeterminizedBy r.dfa := by
  obtain ⟨d, hd, h⟩ := Nfa.exists_toDfa r.nfa
  rw [r.dfa_eq] at hd
  obtain rfl := Except.ok.inj hd
  exact h

/-- The spans of the matches in a text are those of the runs that close the main group. -/
lemma map_span_matchesIn (r : Regex) (text : String) :
    (r.matchesIn text).map (·.span) =
      Dfa.spansOf (r.dfa.runsFrom 0 (text.toList.drop 0 ++ [r.sentinel])) := by
  have hspan : ∀ spans, (Match.ofSpans spans).map (·.span) = spans[mainGroup]? := fun spans => by
    rw [Match.ofSpans]
    cases spans[mainGroup]? <;> rfl
  rw [matchesIn, Dfa.evaluateAll, List.filterMap_filterMap, List.map_filterMap]
  refine List.filterMap_congr fun x _ => ?_
  cases x.2 with
  | none => rfl
  | some spans => exact hspan spans

/-- If no state has a transition on the sentinel, the matches in a text are those of its scan. -/
lemma scan_matchesIn {r : Regex} (hc : ∀ q ∈ r.dfa.states, r.dfa.next? q r.sentinel = none)
    (text : String) : r.nfa.Scan text.toList 0 ((r.matchesIn text).map (·.span)) := by
  obtain ⟨stop, hm⟩ := r.exists_hasMain
  rw [map_span_matchesIn]
  exact Dfa.scan_runsFrom hm r.isDeterminizedBy (Dfa.next?_eq_none hc) text.toList (Nat.zero_le _)

/-- If no state has a transition on the sentinel, there is a match in a text exactly if an accepted
part that is not empty starts at an attempt, and the first match starts at the leftmost of these
attempts. A position without an attempt lies inside of the stretch that an earlier attempt has
read. -/
theorem find_isLeast {r : Regex} (hc : ∀ q ∈ r.dfa.states, r.dfa.next? q r.sentinel = none)
    (text : String) :
    (r.isMatch text = true ↔
        ∃ i, r.nfa.Attempt text.toList 0 i ∧ r.nfa.StartsMatch text.toList i) ∧
      (∀ x, r.find text = some x →
        IsLeast {i | r.nfa.Attempt text.toList 0 i ∧ r.nfa.StartsMatch text.toList i}
          x.span.start) ∧
      ∀ j ≤ text.toList.length, ¬ r.nfa.Attempt text.toList 0 j →
        ∃ i n, r.nfa.Attempt text.toList 0 i ∧ r.nfa.Lasts (text.toList.drop i) n ∧
          i < j ∧ j < i + n := by
  obtain ⟨hfirst, hnone⟩ := (scan_matchesIn hc text).head
  have hfind : ∀ x, r.find text = some x →
      IsLeast {i | r.nfa.Attempt text.toList 0 i ∧ r.nfa.StartsMatch text.toList i}
        x.span.start := fun x hx => by
    rw [find] at hx
    exact hfirst x.span (by rw [List.head?_map, hx]; rfl)
  refine ⟨⟨fun h => ?_, fun ⟨i, hattempt, hstarts⟩ => ?_⟩, hfind,
    fun j hj => Nfa.exists_attempt_around hj⟩
  · obtain ⟨x, hx⟩ := Option.isSome_iff_exists.1 h
    exact ⟨x.span.start, (hfind x hx).1⟩
  · rw [isMatch, find, List.isSome_head?]
    intro hempty
    exact hnone (by rw [hempty]; rfl) i hattempt hstarts

/-- A pattern that has an automaton can be compiled, and keeps this automaton. -/
lemma exists_compile {pattern : String} {m : PatternNfa} (h : Nfa.ofPattern pattern = .ok m)
    (sentinel : Char) : ∃ r, compile pattern sentinel = .ok r ∧ r.nfa = m := by
  obtain ⟨d, hd, -⟩ := Nfa.exists_toDfa m
  rw [compile]
  split
  next e he => cases h.symm.trans he
  next m' hm' =>
    obtain rfl := Except.ok.inj (h.symm.trans hm')
    split
    next e he => cases hd.symm.trans he
    next => exact ⟨_, rfl, rfl⟩

/-- A regular expression keeps the pattern and the sentinel that it was compiled with. -/
lemma eq_of_compile {pattern : String} {sentinel : Char} {r : Regex}
    (h : compile pattern sentinel = .ok r) : r.pattern = pattern ∧ r.sentinel = sentinel := by
  rw [compile] at h
  split at h
  next => cases h
  next =>
    split at h
    next => cases h
    next =>
      cases h
      exact ⟨rfl, rfl⟩

lemma pattern_of_compile {pattern : String} {sentinel : Char} {r : Regex}
    (h : compile pattern sentinel = .ok r) : r.pattern = pattern :=
  (eq_of_compile h).1

/-- In `xaab` the first attempt reads nothing, and the second one, from the `a` on, is the first where
`aab` starts. -/
theorem find_isLeast_behind_other_letter :
    ∃ r, compile "aab" = .ok r ∧
      IsLeast {i | r.nfa.Attempt "xaab".toList 0 i ∧ r.nfa.StartsMatch "xaab".toList i} 1 := by
  obtain ⟨r, hr, hc, hfound⟩ := exists_ok_of_decide (x := compile "aab")
    (P := fun r => (∀ q ∈ r.dfa.states, r.dfa.next? q r.sentinel = none) ∧
      (r.find "xaab").map (·.span.start) = some 1) (by decide +kernel)
  obtain ⟨x, hx, hstart⟩ := Option.map_eq_some_iff.1 hfound
  have hleast := (find_isLeast hc "xaab").2.1 x hx
  rw [hstart] at hleast
  exact ⟨r, hr, hleast⟩

/-- In `aaab` there is no match of `aab`, although its last three letters are accepted: the first
attempt reads two letters, and the second one starts behind them. -/
theorem not_isMatch_of_startsMatch :
    ∃ r, compile "aab" = .ok r ∧ (∀ q ∈ r.dfa.states, r.dfa.next? q r.sentinel = none) ∧
      r.nfa.StartsMatch "aaab".toList 1 ∧ r.isMatch "aaab" = false := by
  obtain ⟨r, hr, hc, hfound⟩ := exists_ok_of_decide (x := compile "aab")
    (P := fun r => (∀ q ∈ r.dfa.states, r.dfa.next? q r.sentinel = none) ∧ r.isMatch "aaab" = false)
    (by decide +kernel)
  have hp : Pattern.parse "aab" = .ok (.single (((Pattern.Sequence.empty.append
    (.literal (.plain 'a')) .once).append (.literal (.plain 'a')) .once).append
    (.literal (.plain 'b')) .once)) := rfl
  obtain ⟨m, -, hm, -, haccepts⟩ := Pattern.exists_ofPattern hp
  have hnfa : r.nfa = m := by
    have heq := r.nfa_eq
    rw [pattern_of_compile hr, hm] at heq
    exact (Except.ok.inj heq).symm
  refine ⟨r, hr, hc, ⟨3, by decide, by decide, ?_⟩, hfound⟩
  rw [hnfa, haccepts]
  refine Pattern.language_le_threaded _ ?_
  exact ⟨['a', 'a'], ['b'], rfl, ⟨['a'], ['a'], rfl, ⟨[], ['a'], rfl, rfl, rfl⟩, rfl⟩, rfl⟩

end Regex

end CaptureAutomata
