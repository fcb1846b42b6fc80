/-
The matched text on its own:

* `Nfa.changes_take_append`, `Nfa.closings_take_append`: up to the end of a match nothing changes if
  the text is cut off there;
* `Nfa.Reports.exists_on_own`: the groups that a run over the matched text alone reports are those of
  the match, and those that the run over the whole text closed again behind the match;
* `Regex.groups_of_matched_text`: the matched text is found whole, with the groups of the match, and
  with those that reading on behind the match has lost.
-/
import CaptureAutomata.Proofs.Regex.Report

namespace CaptureAutomata

/-! ### Cutting off what follows -/

namespace Nfa

section Cut

variable {S A T : Type} [Key S] [Key A] {m : Nfa S A T} {w : List A} {c : A} {j k : Nat}

/-- Where the states change, some state can be reached. -/
lemma Changes.exists_reaches (h : m.Changes w k) : ∃ s, m.Reaches (w.take k) s := by
  by_contra hnone
  refine h.2 fun s => ⟨fun hs => ?_, fun hs => absurd ⟨s, hs⟩ hnone⟩
  rw [List.take_add_one, Reaches, Run.append_iff] at hs
  obtain ⟨t, ht, -⟩ := hs
  exact absurd ⟨t, ht⟩ hnone

/-- Up to a position where the states change, they change at the same positions if the word is cut off
there, and a symbol follows that cannot be read. -/
lemma changes_take_append (hc : ∀ u s, ¬ m.Reaches (u ++ [c]) s) (hk : m.Changes w k) :
    m.Changes (w.take k ++ [c]) j ↔ m.Changes w j ∧ j < k + 1 := by
  have hlt := hk.1
  have hlen : (w.take k).length = k := List.length_take_of_le hlt.le
  have htake : ∀ n ≤ k, (w.take k ++ [c]).take n = w.take n := fun n hn => by
    rw [List.take_append_of_le_length (by omega), List.take_take, min_eq_left hn]
  rcases Nat.lt_trichotomy j k with hj | rfl | hj
  · rw [Changes, Changes, htake j hj.le, htake (j + 1) hj, List.length_append, List.length_singleton,
      hlen]
    constructor
    · rintro ⟨-, h⟩
      exact ⟨⟨by omega, h⟩, by omega⟩
    · rintro ⟨⟨-, h⟩, -⟩
      exact ⟨by omega, h⟩
  · have hwhole : (w.take j ++ [c]).take (j + 1) = w.take j ++ [c] :=
      List.take_of_length_le (by rw [List.length_append, List.length_singleton, hlen])
    obtain ⟨s, hs⟩ := hk.exists_reaches
    have hcut : m.Changes (w.take j ++ [c]) j := by
      refine ⟨by rw [List.length_append, List.length_singleton, hlen]; omega, fun h => ?_⟩
      rw [htake j le_rfl, hwhole] at h
      exact hc _ s ((h s).2 hs)
    exact ⟨fun _ => ⟨hk, by omega⟩, fun _ => hcut⟩
  · constructor
    · rintro ⟨h, -⟩
      rw [List.length_append, List.length_singleton, hlen] at h
      omega
    · rintro ⟨-, h⟩
      omega

/-- So do those changes before which the word read so far has some property. -/
lemma setOf_changes_take_append (hc : ∀ u s, ¬ m.Reaches (u ++ [c]) s) (hk : m.Changes w k)
    (P : List A → Prop) :
    {j | m.Changes (w.take k ++ [c]) j ∧ P ((w.take k ++ [c]).take j)} =
      before {j | m.Changes w j ∧ P (w.take j)} (k + 1) := by
  have hlen : (w.take k).length = k := List.length_take_of_le hk.1.le
  have htake : ∀ j < k + 1, (w.take k ++ [c]).take j = w.take j := fun j hj => by
    rw [List.take_append_of_le_length (by omega), List.take_take, min_eq_left (by omega)]
  ext j
  constructor
  · rintro ⟨hchange, hP⟩
    obtain ⟨hchange, hlt⟩ := (changes_take_append hc hk).1 hchange
    exact ⟨⟨hchange, htake j hlt ▸ hP⟩, hlt⟩
  · rintro ⟨⟨hchange, hP⟩, hlt⟩
    exact ⟨(changes_take_append hc hk).2 ⟨hchange, hlt⟩, (htake j hlt).symm ▸ hP⟩

/-- A tag is opened where it was, if the word is cut off. -/
lemma openings_take_append (hc : ∀ u s, ¬ m.Reaches (u ++ [c]) s) (hk : m.Changes w k) (name : T) :
    m.openings (w.take k ++ [c]) name = before (m.openings w name) (k + 1) :=
  setOf_changes_take_append hc hk fun u => ∃ t ∈ m.tags, t.name = name ∧ m.Reaches u t.start

/-- A tag is closed where it was, if the word is cut off. -/
lemma closings_take_append (hc : ∀ u s, ¬ m.Reaches (u ++ [c]) s) (hk : m.Changes w k) (name : T) :
    m.closings (w.take k ++ [c]) name = before (m.closings w name) (k + 1) :=
  setOf_changes_take_append hc hk fun u => m.Accepts name u

end Cut

/-! ### The match on its own -/

variable {m : PatternNfa} {d : PatternDfa} {stop i k : Nat} {w : List Char} {c : Char} {x : Match}

/-- A run over the matched word alone reports a match of the same length. -/
lemma Reports.exists_on_own (h : m.Reports i w k x) (hm : m.HasMain stop) (hd : m.IsDeterminizedBy d)
    (hc : ∀ u s, ¬ m.Reaches (u ++ [c]) s) :
    ∃ y, (d.run 0 (w.take k ++ [c])).1.bind Match.ofSpans = some y ∧
      m.Reports 0 (w.take k ++ [c]) k y := by
  have hk := h.closed.1.1
  have hopen : 0 ∈ m.openings (w.take k ++ [c]) mainGroup := by
    rw [openings_take_append hc hk]
    exact ⟨h.opened, by omega⟩
  have hclosed : IsGreatest (m.closings (w.take k ++ [c]) mainGroup) k := by
    rw [closings_take_append hc hk]
    exact ((isGreatest_iff_before le_rfl).1 h.closed).1
  obtain ⟨y, hy⟩ := exists_run_of_closed (i := 0) hm hd hopen h.pos hclosed
  obtain ⟨k', hk'⟩ := exists_report_of_run hm hd hy
  obtain rfl := hk'.closed.unique hclosed
  exact ⟨y, hy, hk'⟩

/-- The groups of a match are those of the matched word alone that are not closed again behind it. -/
lemma Reports.group?_on_own {y : Match} (h : m.Reports i w k x)
    (hy : m.Reports 0 (w.take k ++ [c]) k y) (hc : ∀ u s, ¬ m.Reaches (u ++ [c]) s) (name : String)
    (s : Span) :
    x.group? name = some s ↔
      (∃ s', y.group? name = some s' ∧ s = ⟨s'.start + i, s'.stop + i⟩) ∧
        ∀ j ∈ m.closings w name, j ≤ k := by
  have hk := h.closed.1.1
  simp only [h.group?_iff, hy.group?_iff, openings_take_append hc hk, closings_take_append hc hk]
  constructor
  · rintro ⟨hname, a, b, rfl, hb, ha, hle⟩
    obtain ⟨hb, hlast⟩ := (isGreatest_iff_before hle).1 hb
    rw [← before_before (hle.trans (Nat.le_succ k))] at ha
    exact ⟨⟨_, ⟨hname, a, b, rfl, hb, ha, hle⟩, by simp [Nat.add_comm]⟩, hlast⟩
  · rintro ⟨⟨s', ⟨hname, a, b, rfl, hb, ha, hle⟩, rfl⟩, hlast⟩
    rw [before_before (hle.trans (Nat.le_succ k))] at ha
    exact ⟨hname, a, b, by simp [Nat.add_comm], (isGreatest_iff_before hle).2 ⟨hb, hlast⟩, ha,
      hle⟩

end Nfa

/-! ### Regular expressions -/

namespace Regex

/-- A symbol without a transition cannot be read. -/
lemma not_reaches_sentinel {r : Regex} (hc : ∀ q ∈ r.dfa.states, r.dfa.next? q r.sentinel = none)
    (u : List Char) (s : Nat) : ¬ r.nfa.Reaches (u ++ [r.sentinel]) s :=
  r.isDeterminizedBy.next?_eq_none_iff.1 hc u s

/-- Behind the text nothing can be reached. -/
lemma not_reaches_rest {r : Regex} (hc : ∀ q ∈ r.dfa.states, r.dfa.next? q r.sentinel = none)
    {text : String} {i : Nat} (hi : i ≤ text.toList.length) (s : Nat) :
    ¬ r.nfa.Reaches (r.rest text i) s := by
  rw [rest_eq hi]
  exact not_reaches_sentinel hc _ s

/-- If no state has a transition on the sentinel, the text of a match is found whole, with the groups
of the match: a group of the text alone is one of the match, at the same place, unless a group of this
name can end again further on in the text. -/
theorem groups_of_matched_text {r : Regex}
    (hc : ∀ q ∈ r.dfa.states, r.dfa.next? q r.sentinel = none) {text : String} {x : Match}
    (hx : x ∈ r.matchesIn text) :
    ∃ y, r.find (x.text text) = some y ∧ y.span = ⟨0, x.span.length⟩ ∧
      ∀ name s, x.group? name = some s ↔
        (∃ s', y.group? name = some s' ∧
          s = ⟨s'.start + x.span.start, s'.stop + x.span.start⟩) ∧
          ∀ k, x.span.stop < k → k ≤ text.toList.length →
            ¬ r.nfa.Accepts name (text.toList.extract x.span.start k) := by
  obtain ⟨stop, hm⟩ := r.exists_hasMain
  obtain ⟨i, k, hle, hreport⟩ := exists_report_of_mem hx
  have hdead := not_reaches_sentinel hc
  have hlen : (r.rest text i).length = text.toList.length - i + 1 := length_rest (by omega)
  obtain ⟨y, hy, hown⟩ := hreport.exists_on_own hm r.isDeterminizedBy hdead
  refine ⟨y, find_eq_some ?_, ?_, fun name s => ?_⟩
  · rwa [rest_eq (Nat.zero_le _), List.drop_zero, toList_text hreport hle]
  · rw [hown.span_eq, hreport.span_eq, Span.length, Nat.zero_add, Nat.add_sub_cancel_left]
  · rw [hreport.group?_on_own hown hdead, hreport.span_eq]
    refine and_congr_right fun _ => ⟨fun hlast j hj hjle hends => ?_, fun hlast j hj => ?_⟩
    · have hij : i + k < j := hj
      obtain ⟨n, rfl⟩ := Nat.exists_eq_add_of_le (show i ≤ j by omega)
      rw [← take_rest hjle] at hends
      obtain ⟨b, hb, hle⟩ := Nfa.exists_mem_closings (not_reaches_rest hc (by omega)) hends
      have := hlast b hb
      omega
    · have hlt := hj.1.1
      have hends := hj.2
      rw [take_rest (by omega)] at hends
      by_contra hkj
      exact hlast (i + j) (by show i + k < i + j; omega) (by omega) hends

/-- In `xaba` the match `ab` of `((a)b)+` has lost its inner group, so that this group can end again
behind the match: the run reads the last `a`, too, before it ends. -/
theorem groups_of_matched_text_of_run_past_match :
    ∃ r, compile "((a)b)+" = .ok r ∧ ∃ x ∈ r.matchesIn "xaba", x.span = ⟨1, 3⟩ ∧
      x.group? "2" = none ∧
      ∃ y, r.find "ab" = some y ∧ y.span = ⟨0, 2⟩ ∧ y.group? "2" = some ⟨0, 1⟩ ∧
        ∃ k, 3 < k ∧ k ≤ 4 ∧ r.nfa.Accepts "2" ("xaba".toList.extract 1 k) := by
  obtain ⟨r, hr, hc, ⟨x, hx, hspan, hgroup⟩, hfind⟩ := exists_ok_of_decide (x := compile "((a)b)+")
    (P := fun r => (∀ q ∈ r.dfa.states, r.dfa.next? q r.sentinel = none) ∧
      (∃ x ∈ r.matchesIn "xaba", x.span = ⟨1, 3⟩ ∧ x.group? "2" = none) ∧
        (r.find "ab").map (·.group? "2") = some (some ⟨0, 1⟩)) (by decide +kernel)
  obtain ⟨y, hy, hspan', hgroups⟩ := groups_of_matched_text hc hx
  have htext : x.text "xaba" = "ab" := by
    rw [Match.text, hspan]
    rfl
  rw [htext] at hy
  rw [hspan] at hspan' hgroups
  rw [hy, Option.map_some, Option.some_inj] at hfind
  refine ⟨r, hr, x, hx, hspan, hgroup, y, hy, hspan', hfind, ?_⟩
  by_contra hnone
  have hlost := (hgroups "2" ⟨1, 2⟩).2
    ⟨⟨_, hfind, rfl⟩, fun k hk hle hends => hnone ⟨k, hk, hle, hends⟩⟩
  rw [hgroup] at hlost
  cases hlost

/-- In `aba` the match `ab` of `((a)b)+` has no inner group, in `ab` alone it has one. -/
theorem not_groups_of_matched_text :
    ∃ r, compile "((a)b)+" = .ok r ∧ (∀ q ∈ r.dfa.states, r.dfa.next? q r.sentinel = none) ∧
      ∃ x ∈ r.matchesIn "aba", x.text "aba" = "ab" ∧ x.group? "2" = none ∧
        ∃ y, r.find "ab" = some y ∧ y.group? "2" = some ⟨0, 1⟩ := by
  obtain ⟨r, hr, hc, ⟨x, hx, htext, hgroup⟩, hfind⟩ := exists_ok_of_decide (x := compile "((a)b)+")
    (P := fun r => (∀ q ∈ r.dfa.states, r.dfa.next? q r.sentinel = none) ∧
      (∃ x ∈ r.matchesIn "aba", x.text "aba" = "ab" ∧ x.group? "2" = none) ∧
        (r.find "ab").map (·.group? "2") = some (some ⟨0, 1⟩)) (by decide +kernel)
  obtain ⟨y, hy, hgroup'⟩ := Option.map_eq_some_iff.1 hfind
  exact ⟨r, hr, hc, x, hx, htext, hgroup, y, hy, hgroup'⟩

end Regex

end CaptureAutomata
