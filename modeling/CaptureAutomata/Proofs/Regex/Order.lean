/-
The matches in a text, one after the other. Nothing is asked of the sentinel here: the pattern may read
it, and it may occur in the text.

* `Regex.Fits`: a match that lies in a text, holds its groups, and spans a part that is accepted;
* `Regex.fits_of_mem`: every match fits its text;
* `Regex.pairwise_matchesIn`: each match ends before the later ones start;
* `Regex.matchesIn_ordered`: both at once;
* `Regex.lists_nextMatch`: the matches are found one at a call.
-/
import CaptureAutomata.Proofs.Dfa.Progress
import CaptureAutomata.Proofs.Regex.Report

namespace CaptureAutomata.Regex

variable {r : Regex} {text : String} {x y : Match}

/-! ### Single matches -/

/-- A match that tells of a part of the text which the automaton accepts, from its state 0 to the end of
the main tag, and of groups within this part. -/
structure Fits (r : Regex) (text : String) (x : Match) : Prop where
  /-- The match is not empty. -/
  start_lt_stop : x.span.start < x.span.stop
  /-- It ends in the text. -/
  stop_le : x.span.stop ≤ text.toList.length
  /-- Its groups are not empty and lie within it. -/
  group_within : ∀ name s, x.group? name = some s →
    x.span.start ≤ s.start ∧ s.start < s.stop ∧ s.stop ≤ x.span.stop
  /-- The part of the text that it spans is accepted. -/
  accepts : ∃ t ∈ r.nfa.tags, t.name = mainGroup ∧ t.start = 0 ∧
    r.nfa.Run 0 (text.toList.extract x.span.start x.span.stop) t.stop

/-- Every match fits its text. -/
lemma fits_of_mem (h : x ∈ r.matchesIn text) : r.Fits text x := by
  obtain ⟨stop, hm⟩ := r.exists_hasMain
  obtain ⟨i, k, hle, hx⟩ := exists_report_of_mem h
  have hpos := hx.pos
  refine ⟨?_, ?_, fun name s hs => ?_, ?_⟩
  · rw [hx.span_eq]
    exact Nat.lt_add_of_pos_right hpos
  · rwa [hx.span_eq]
  · obtain ⟨-, a, b, rfl, -, ha, hb⟩ := (hx.group?_iff name s).1 hs
    have hab := ha.1.2
    rw [hx.span_eq]
    exact ⟨Nat.le_add_right i a, Nat.add_lt_add_left hab i, Nat.add_le_add_left hb i⟩
  · obtain ⟨t, ht, hname, hr⟩ := hx.closed.1.2
    obtain rfl := (hm.mem_tags_iff t).1 ⟨ht, hname⟩
    rw [take_rest hle, Nfa.Reaches, hm.initial_eq] at hr
    exact ⟨_, ht, hname, rfl, by rwa [hx.span_eq]⟩

/-! ### The order of the matches -/

/-- Each match ends before the later ones start. -/
lemma pairwise_matchesIn (r : Regex) (text : String) :
    (r.matchesIn text).Pairwise fun x y => x.span.stop ≤ y.span.start := by
  rw [matchesIn_eq_filterMap, List.pairwise_filterMap]
  refine List.pairwise_iff_forall_sublist.2 fun {a b} hsub => ?_
  have hbefore := List.pairwise_iff_forall_sublist.1
    (r.dfa.pairwise_runsFrom 0 (text.toList ++ [r.sentinel])) hsub
  intro x hx y hy
  -- the later match starts no earlier than its run
  obtain ⟨n, -, rfl⟩ := Dfa.exists_of_mem_runsFrom (hsub.subset (.tail _ (.head _)))
  exact (hbefore _ _ (Match.span_of_ofSpans hx)).trans
    (Dfa.span_of_run (Match.span_of_ofSpans hy)).1

/-- Whatever the sentinel is, the matches in a text lie in it, are not empty and follow each other
without overlaps. Their groups are not empty either and lie within them, and the automaton of the
pattern accepts what they span. -/
theorem matchesIn_ordered (r : Regex) (text : String) :
    ((r.matchesIn text).Pairwise fun x y => x.span.stop ≤ y.span.start) ∧
      ∀ x ∈ r.matchesIn text, r.Fits text x :=
  ⟨r.pairwise_matchesIn text, fun _ => fits_of_mem⟩

/-! ### One match at a time -/

/-- The matches on what is left of a tape. -/
def matchesOn (r : Regex) (tape : Tape Char) : List Match :=
  (r.dfa.evaluateAll tape).filterMap Match.ofSpans

/-- One call after the other gives the matches on a tape. -/
lemma lists_nextMatch (r : Regex) : Iterator.Lists r.nextMatch r.matchesOn := by
  have hspans := r.dfa.lists_nextSpans
  refine .of_call fun tape => ?_
  fun_induction nextMatch r tape with
  | case1 tape after hnone =>
      obtain ⟨hnil, hafter⟩ := hspans.eq_nil hnone
      rw [matchesOn, matchesOn, hnil, hafter]
      exact ⟨rfl, rfl⟩
  | case2 tape spans after hsome found hfound =>
      rw [matchesOn, hspans.eq_cons hsome, List.filterMap_cons, hfound]
      exact ⟨rfl, rfl⟩
  | case3 tape spans after hsome hnone ih =>
      have hleft : r.matchesOn tape = r.matchesOn after := by
        rw [matchesOn, hspans.eq_cons hsome, List.filterMap_cons, hnone]
        rfl
      rwa [hleft]

end CaptureAutomata.Regex
