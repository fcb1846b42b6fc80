/-
The main group is opened once:

* `Pattern.pos_of_mem_edges`, `Nfa.IsLaidOutAs.mem_targets_zero_iff`: whatever is repeated at the start of a
  pattern, its transitions keep away from the initial state 0, which is only left for state 1;
* `Nfa.IsDeterminizedBy.zero_mem_iff`, `Nfa.IsDeterminizedBy.next?_ne_initial`: so only the initial state of
  the deterministic automaton holds 0, and nothing leads back to it;
* `Dfa.main_span_of_run`: so the main group spans symbols from the very start of a run;
* `Pattern.main_opened_once`: all of this for every pattern that has an automaton.
-/
import CaptureAutomata.Proofs.Dfa.Progress
import CaptureAutomata.Proofs.Pattern.Layout
import CaptureAutomata.Proofs.Pattern.Moving
import CaptureAutomata.Proofs.Regex.Report

namespace CaptureAutomata

/-! ### The initial state of a pattern -/

/-- The transitions of a pattern behind the first two states keep away from the initial one. -/
lemma Pattern.pos_of_mem_edges {p : Pattern} {e : Edge Nat (Option Char)} (he : e ∈ p.edges 2 1) :
    0 < e.source ∧ 0 < e.target := by
  -- They are those of the same pattern one state further in front.
  have hmoves : Moves (· + 1) 1 2 p.states := fun i _ => Nat.add_right_comm 1 i 1
  rw [p.edges_map (s := 0) rfl hmoves] at he
  obtain ⟨e', -, rfl⟩ := List.mem_map.1 he
  exact ⟨Nat.succ_pos _, Nat.succ_pos _⟩

namespace Nfa

variable {m : PatternNfa} {d : PatternDfa} {stop : Nat} {q : KeySet Nat}

/-- The only transition that leaves the initial state or leads to it is the one to state 1. -/
lemma IsLaidOutAs.mem_targets_zero_iff {p : Pattern} (hm : m.IsLaidOutAs p) {s t : Nat} {l : Option Char}
    (h : s = 0 ∨ t = 0) : t ∈ m.graph.targets s l ↔ s = 0 ∧ l = none ∧ t = 1 := by
  rw [hm.mem_targets, List.mem_cons, Edge.mk.injEq]
  refine or_iff_left fun he => ?_
  obtain ⟨hs, ht⟩ := Pattern.pos_of_mem_edges he
  exact h.elim (fun hzero => absurd hzero hs.ne') fun hzero => absurd hzero ht.ne'

/-- Only the initial state of the deterministic automaton holds 0. -/
lemma IsDeterminizedBy.zero_mem_iff (hd : m.IsDeterminizedBy d) (hm : m.HasMain stop) (hq : q ∈ d.states) :
    0 ∈ q ↔ q = d.initial := by
  obtain ⟨w, hw⟩ := hd.exists_word q hq
  rw [hd.statesAfter w q hw 0]
  constructor
  · intro hr
    obtain rfl := hm.eq_nil_of_reaches hr
    exact (Option.some.inj hw).symm
  · rintro rfl
    -- The initial state holds what is reached without reading, and so the state where runs start.
    have hmem : 0 ∈ d.initial := (hd.statesAfter [] d.initial rfl 0).2 (hm.initial_eq ▸ .nil m.initial)
    exact (hd.statesAfter w d.initial hw 0).1 hmem

/-- The main group starts only in the initial state. -/
lemma IsDeterminizedBy.main_mem_tagsStarting_iff (hd : m.IsDeterminizedBy d) (hm : m.HasMain stop)
    (hq : q ∈ d.states) : mainGroup ∈ d.tagsStarting q ↔ q = d.initial := by
  rw [← hd.zero_mem_iff hm hq, hd.mem_tagsStarting q hq]
  constructor
  · rintro ⟨t, ht, hname, hstart⟩
    obtain rfl := (hm.mem_tags_iff t).1 ⟨ht, hname⟩
    exact hstart
  · intro hzero
    obtain ⟨ht, hname⟩ := (hm.mem_tags_iff _).2 rfl
    exact ⟨_, ht, hname, hzero⟩

/-- No transition of the deterministic automaton leads to its initial state. -/
lemma IsDeterminizedBy.next?_ne_initial (hd : m.IsDeterminizedBy d) (hm : m.HasMain stop) (q : KeySet Nat)
    (a : Char) : d.next? q a ≠ some d.initial := by
  intro hnext
  obtain ⟨w, hw⟩ := hd.exists_word q (Dfa.mem_states_of_next? hnext)
  have hback : d.after? d.initial (w ++ [a]) = some d.initial := by
    rw [Dfa.after?_append_singleton, hw]
    exact hnext
  have hzero := (hd.zero_mem_iff hm (hd.mem_states _ _ hback)).2 rfl
  have hnil := hm.eq_nil_of_reaches ((hd.statesAfter _ _ hback 0).1 hzero)
  simp at hnil

end Nfa

/-! ### Its span -/

namespace Dfa

variable {m : PatternNfa} {d : PatternDfa} {stop : Nat}

/-- A run that closes the main group closes it over a span that starts where the run does, and is not
empty. -/
lemma main_span_of_run (hm : m.HasMain stop) (hd : m.IsDeterminizedBy d) {i : Nat} {w : List Char} {s : Span}
    (h : (d.run i w).1.bind (·[mainGroup]?) = some s) : s.start = i ∧ s.start < s.stop := by
  obtain ⟨a, b, rfl, -, ha⟩ := (run_getElem?_iff i w mainGroup s).1 h
  rw [hd.openings_eq] at ha
  obtain rfl := hm.eq_zero_of_mem_openings ha.1.1
  exact ⟨rfl, Nat.add_lt_add_left ha.1.2 i⟩

end Dfa

/-! ### All patterns -/

/-- The only transition of a pattern's automaton that leaves state 0 or leads to it is the silent one from
there to state 1. So in the deterministic automaton the initial state is the only one that holds 0 and the only
one in which the main group starts, no transition leads to it, and in whatever position a run over a tape
starts, alone or as one of successive runs, the main group spans symbols from this position on, at least
one. -/
theorem Pattern.main_opened_once {text : String} {m : PatternNfa} (h : Nfa.ofPattern text = .ok m) :
    (∀ s l t, s = 0 ∨ t = 0 → (t ∈ m.graph.targets s l ↔ s = 0 ∧ l = none ∧ t = 1)) ∧
      ∃ d, m.toDfa = .ok d ∧
        (∀ q ∈ d.states, (0 ∈ q ↔ q = d.initial) ∧ (mainGroup ∈ d.tagsStarting q ↔ q = d.initial)) ∧
        (∀ q a, d.next? q a ≠ some d.initial) ∧
        (∀ (tape : Tape Char) spans s, (d.evaluate tape).1 = some spans → spans[mainGroup]? = some s →
          s.start = tape.index ∧ s.start < s.stop) ∧
        ∀ (tape : Tape Char), ∀ x ∈ d.runs tape, ∀ spans s, x.2 = some spans →
          spans[mainGroup]? = some s → s.start = x.1 ∧ s.start < s.stop := by
  obtain ⟨p, hp, hbuild⟩ := exists_of_ofPattern h
  have hlaid := isLaidOutAs_of_toNfa (wellFormed_of_parse hp) hbuild
  obtain ⟨m', stop, hm', hmain, -⟩ := exists_ofPattern hp
  obtain rfl : m' = m := Except.ok.inj (hm'.symm.trans h)
  obtain ⟨d, hd, hdet⟩ := m'.exists_toDfa
  have hevaluate : ∀ (tape : Tape Char) spans s, (d.evaluate tape).1 = some spans →
      spans[mainGroup]? = some s → s.start = tape.index ∧ s.start < s.stop := fun tape spans s hspans hs =>
    Dfa.main_span_of_run hmain hdet (Option.bind_eq_some_iff.2 ⟨spans, hspans, hs⟩)
  refine ⟨fun s l t hst => hlaid.mem_targets_zero_iff hst, d, hd, fun q hq => ?_, ?_, hevaluate, ?_⟩
  · exact ⟨hdet.zero_mem_iff hmain hq, hdet.main_mem_tagsStarting_iff hmain hq⟩
  · exact hdet.next?_ne_initial hmain
  · intro tape x hx spans s hspans hs
    have hrun := (Dfa.attempts_of_mem hx).spans_eq
    exact hevaluate (tape.reset x.1) spans s (hrun ▸ hspans) hs

/-- In a pattern that is repeated as a whole, the run that starts behind the first letter of `baab` opens the
main group there, and not again when it is back where the repeated group starts. -/
theorem Pattern.main_opened_once_of_repeated :
    ∃ m d spans s, Nfa.ofPattern "(a|b+)*" = .ok m ∧ m.toDfa = .ok d ∧
      (∀ q a, d.next? q a ≠ some d.initial) ∧ (d.evaluate ⟨"baab-".toList, 1⟩).1 = some spans ∧
      spans[mainGroup]? = some s ∧ s.start = 1 ∧ s.start < s.stop := by
  obtain ⟨m, hm, hfound⟩ := exists_ok_of_decide (x := Nfa.ofPattern "(a|b+)*")
    (P := fun m => m.toDfa.toOption.any fun d : PatternDfa =>
      decide (((d.evaluate ⟨"baab-".toList, 1⟩).1.bind (·[mainGroup]?)).isSome = true))
    (by decide +kernel)
  obtain ⟨d, hd, hspan⟩ := exists_ok_of_decide hfound
  obtain ⟨s, hs⟩ := Option.isSome_iff_exists.1 hspan
  obtain ⟨spans, hspans, hs⟩ := Option.bind_eq_some_iff.1 hs
  obtain ⟨-, d', hd', -, hback, hevaluate, -⟩ := main_opened_once hm
  obtain rfl : d = d' := Except.ok.inj (hd.symm.trans hd')
  exact ⟨m, d, spans, s, hm, hd, hback, hspans, hs, hevaluate ⟨"baab-".toList, 1⟩ spans s hspans hs⟩

end CaptureAutomata
