/-
Matching splits at a character that no state can read:

* `Match.shift`: a match as many positions further on;
* `Dfa.runsFrom_append_dead`: the runs over symbols with a dead one among them are those over the
  symbols before it, as if these were all, and those over the symbols behind it;
* `Dfa.matches_runsFrom_add`: runs that start further on find the same matches further on;
* `Regex.matchesIn_append`: so the matches in a text with a dead character in it are those of its two
  parts.
-/
import CaptureAutomata.Proofs.Regex.Report

namespace CaptureAutomata

/-! ### Shifted matches -/

namespace Match

/-- The match as many positions further on, with its groups. -/
def shift (n : Nat) (x : Match) : Match :=
  { span := x.span.shift n
    groups := x.groups.map fun _ s => s.shift n }

variable {n : Nat}

/-- The match of shifted spans is the shifted match. -/
lemma ofSpans_map_shift (spans : Dfa.Spans String) :
    ofSpans (spans.map fun _ s => s.shift n) = (ofSpans spans).map (shift n) := by
  rw [ofSpans, ofSpans, Std.ExtTreeMap.getElem?_map]
  cases spans[mainGroup]? with
  | none => rfl
  | some whole =>
      simp only [Option.map_some, shift, Option.some.injEq, mk.injEq, true_and]
      refine Std.ExtTreeMap.ext_getElem? fun name => ?_
      rw [Std.ExtTreeMap.getElem?_map, Std.ExtTreeMap.getElem?_filter', Std.ExtTreeMap.getElem?_filter',
        Std.ExtTreeMap.getElem?_erase, Std.ExtTreeMap.getElem?_erase, Std.ExtTreeMap.getElem?_map]
      split
      · rfl
      · cases spans[name]? with
        | none => rfl
        | some s =>
            simp only [Option.map_some, Option.filter_some, Span.contains, Span.shift,
              Nat.add_le_add_iff_left]
            split <;> rfl

/-- Where all spans are shifted, so is the match. -/
lemma bind_ofSpans_shift {closed closed' : Option (Dfa.Spans String)}
    (h : ∀ name : String, closed'.bind (·[name]?) = (closed.bind (·[name]?)).map (Span.shift n)) :
    closed'.bind ofSpans = (closed.bind ofSpans).map (shift n) := by
  have hgetD : ∀ closed : Option (Dfa.Spans String), closed.bind ofSpans = ofSpans (closed.getD ∅) ∧
      ∀ name : String, closed.bind (·[name]?) = (closed.getD ∅)[name]? := fun closed => by
    cases closed with
    | none => simp [ofSpans]
    | some spans => simp
  obtain ⟨hmatch, hspans⟩ := hgetD closed
  obtain ⟨hmatch', hspans'⟩ := hgetD closed'
  have hshift : closed'.getD ∅ = (closed.getD ∅).map fun _ s => s.shift n :=
    Std.ExtTreeMap.ext_getElem? fun name => by
      rw [← hspans', h, hspans, Std.ExtTreeMap.getElem?_map]
  rw [hmatch, hmatch', hshift, ofSpans_map_shift]

end Match

/-! ### Runs -/

namespace Dfa

section Dead

variable {D A T : Type} [Key D] [Key A] [Key T] {m : Dfa D A T} {i : Nat} {c c' : A} {u : List A}

/-- Symbols behind a dead one are not read: the dead one may as well be another one that ends the
symbols. -/
lemma run_append_dead (hc : ∀ d, m.next? d c = none) (hc' : ∀ d, m.next? d c' = none) (i : Nat)
    (w rest : List A) : m.run i (w ++ c :: rest) = m.run i (w ++ [c']) := by
  rw [run, run, runFrom_append_congr]
  intro d _ position opened closed
  rw [runFrom_dead (hc d), runFrom_dead (hc' d)]

/-- The runs over symbols with a dead one among them are those over the symbols before it, with a dead
one at their end, and those over the symbols behind it. -/
lemma runsFrom_append_dead (hc : ∀ d, m.next? d c = none) (hc' : ∀ d, m.next? d c' = none)
    (hi : i ≤ u.length) (rest : List A) :
    m.runsFrom i (u.drop i ++ c :: rest) =
      m.runsFrom i (u.drop i ++ [c']) ++ m.runsFrom (u.length + 1) rest := by
  induction hlen : u.length - i using Nat.strong_induction_on generalizing i with
  | _ len ih =>
      have hindex := m.run_index_append_singleton i (u.drop i) c'
      have hle : i + m.extent m.initial (u.drop i) ≤ u.length := by
        have := m.extent_le_length m.initial (u.drop i)
        rw [List.length_drop] at this
        omega
      rw [runsFrom_within hi hle hindex,
        runsFrom_within hi hle (by rw [run_append_dead hc hc', hindex]), run_append_dead hc hc']
      by_cases hlt : i < u.length
      · rw [if_pos hlt, if_pos hlt, List.cons_append,
          ih (u.length - max (i + m.extent m.initial (u.drop i)) (i + 1)) (by omega) (by omega) rfl]
      · rw [if_neg hlt, if_neg hlt, runsFrom, List.cons_append, List.nil_append]

end Dead

/-- Runs that start further on find the same matches further on. -/
lemma matches_runsFrom_add (d : PatternDfa) (n i : Nat) (symbols : List Char) :
    (d.runsFrom (n + i) symbols).filterMap (fun x => x.2.bind Match.ofSpans) =
      ((d.runsFrom i symbols).filterMap fun x => x.2.bind Match.ofSpans).map (Match.shift n) := by
  induction hlen : symbols.length using Nat.strong_induction_on generalizing i symbols with
  | _ len ih =>
      by_cases hne : symbols = []
      · rw [hne, runsFrom, runsFrom]
        rfl
      · have hpos := List.length_pos_of_ne_nil hne
        have hstart : i + 1 ≤ restart i (d.run i symbols).2 := le_max_right _ _
        have hrestart : restart (n + i) (d.run (n + i) symbols).2 =
            n + restart i (d.run i symbols).2 := by
          rw [run, run, runFrom_index, runFrom_index, restart, restart]
          omega
        rw [runsFrom_eq d (n + i) hne, runsFrom_eq d i hne, hrestart, Nat.add_sub_add_left,
          List.filterMap_cons, List.filterMap_cons,
          Match.bind_ofSpans_shift (d.run_add n i symbols),
          ih (symbols.drop (restart i (d.run i symbols).2 - i)).length
            (by rw [List.length_drop]; omega) _ _ rfl]
        cases (d.run i symbols).1.bind Match.ofSpans <;> rfl

end Dfa

/-! ### Texts -/

namespace Regex

/-- If no state has a transition on the sentinel or on a character, the matches in a text with this
character in it are those in the part before it, and behind them those in the part after it, as many
positions further on as come before. -/
theorem matchesIn_append {r : Regex} {c : Char}
    (hs : ∀ q ∈ r.dfa.states, r.dfa.next? q r.sentinel = none)
    (hc : ∀ q ∈ r.dfa.states, r.dfa.next? q c = none) (u v : String) :
    r.matchesIn (u ++ String.singleton c ++ v) =
      r.matchesIn u ++ (r.matchesIn v).map (Match.shift (u.toList.length + 1)) := by
  have hsplit : (u ++ String.singleton c ++ v).toList ++ [r.sentinel] =
      u.toList.drop 0 ++ c :: (v.toList ++ [r.sentinel]) := by
    simp
  rw [matchesIn_eq_filterMap, matchesIn_eq_filterMap r u, matchesIn_eq_filterMap r v, hsplit,
    Dfa.runsFrom_append_dead (Dfa.next?_eq_none hc) (Dfa.next?_eq_none hs) (Nat.zero_le _),
    List.filterMap_append, List.drop_zero]
  exact congrArg _ (Dfa.matches_runsFrom_add r.dfa (u.toList.length + 1) 0 _)

/-- In `aab-ab` the pattern `(a)+b` has the match of `aab` and, four positions further on, that of
`ab`. -/
theorem matchesIn_append_of_hyphen :
    ∃ r, compile "(a)+b" = .ok r ∧
      r.matchesIn "aab-ab" = r.matchesIn "aab" ++ (r.matchesIn "ab").map (Match.shift 4) ∧
      (r.matchesIn "ab").map (fun x => (x.span, x.group? "1")) = [(⟨0, 2⟩, some ⟨0, 1⟩)] := by
  obtain ⟨r, hr, hc, hs, hfound⟩ := exists_ok_of_decide (x := compile "(a)+b")
    (P := fun r => (∀ q ∈ r.dfa.states, r.dfa.next? q r.sentinel = none) ∧
      (∀ q ∈ r.dfa.states, r.dfa.next? q '-' = none) ∧
        (r.matchesIn "ab").map (fun x => (x.span, x.group? "1")) = [(⟨0, 2⟩, some ⟨0, 1⟩)])
    (by decide +kernel)
  exact ⟨r, hr, matchesIn_append hc hs "aab" "ab", hfound⟩

end Regex

end CaptureAutomata
