/-
What the matches in a text owe to the sentinel behind it:

* `Nfa.Flushes`: reading a character behind a word changes the states, and so closes the tags that end
  there;
* `Dfa.run_congr`: two sentinels that both flush what a run has read, or both do not, make no
  difference to the run;
* `Regex.matchesIn_congr`: nor do they to the matches in a text, if they agree on what is left of it at
  each attempt. For the spans of the matches it is enough, and necessary, that they agree where what is
  left is accepted.
-/
import CaptureAutomata.Proofs.Regex.Report

namespace CaptureAutomata

/-! ### Flushing -/

namespace Nfa

/-- Reading the character behind the word changes the states that can be reached. -/
def Flushes {S A T : Type} [Key S] [Key A] (m : Nfa S A T) (w : List A) (c : A) : Prop :=
  m.Changes (w ++ [c]) w.length

variable {m : PatternNfa} {d : PatternDfa} {stop k : Nat} {w v : List Char} {c : Char}
  {q : KeySet Nat} {name : String}

/-- A character flushes a word unless it leads back to the state that the word leads to. -/
lemma IsDeterminizedBy.flushes_iff (hd : m.IsDeterminizedBy d)
    (hq : d.after? d.initial w = some q) : m.Flushes w c ↔ d.next? q c ≠ some q := by
  have hafter : d.after? d.initial ((w ++ [c]).take w.length) = some q := by
    rw [List.take_left, hq]
  constructor
  · intro hflush
    obtain ⟨-, a, ha, hleaves⟩ := hd.leavesAt_iff.2 ⟨hflush, hafter⟩
    rw [List.getElem?_concat_length] at ha
    rwa [Option.some.inj ha]
  · intro hleaves
    exact (hd.leavesAt_iff.1 ⟨hafter, c, List.getElem?_concat_length, hleaves⟩).1

lemma changes_append (hk : k < w.length) : m.Changes (w ++ v) k ↔ m.Changes w k := by
  rw [Changes, Changes, List.take_append_of_le_length hk, List.take_append_of_le_length hk.le,
    List.length_append]
  exact and_congr_left fun _ => iff_of_true (by omega) hk

/-- The states change on every first character. -/
lemma HasMain.changes_zero (hm : m.HasMain stop) (hw : w ≠ []) : m.Changes w 0 := by
  refine ⟨List.length_pos_of_ne_nil hw, fun hsame => ?_⟩
  have hzero : m.Reaches [] 0 := by
    rw [Reaches, hm.initial_eq]
    exact .nil 0
  have hnil := hm.eq_nil_of_reaches ((hsame 0).2 hzero)
  cases w with
  | nil => exact hw rfl
  | cons a w => simp at hnil

/-- A word that is accepted and flushed is closed at its end. -/
lemma mem_closings_append_iff :
    w.length ∈ m.closings (w ++ [c]) name ↔ m.Flushes w c ∧ m.Accepts name w := by
  rw [closings, Set.mem_ofPred_eq, List.take_left]
  rfl

/-- If a word is not accepted, the character behind it does not count for its closings. -/
lemma closings_append (hw : ¬ m.Accepts name w) (c : Char) :
    m.closings (w ++ [c]) name = m.closings w name := by
  ext k
  rw [closings, closings, Set.mem_ofPred_eq, Set.mem_ofPred_eq]
  rcases Nat.lt_trichotomy k w.length with hk | rfl | hk
  · rw [changes_append hk, List.take_append_of_le_length hk.le]
  · rw [List.take_left, List.take_length]
    exact iff_of_false (fun h => hw h.2) fun h => hw h.2
  · refine iff_of_false (fun h => ?_) fun h => ?_
    · have hlt := h.1.1
      rw [List.length_append, List.length_singleton] at hlt
      omega
    · have hlt := h.1.1
      omega

/-- Before a position in a word, the character behind it does not count for the openings. -/
lemma before_openings_append (hk : k ≤ w.length) (v : List Char) :
    before (m.openings (w ++ v) name) k = before (m.openings w name) k := by
  ext j
  refine and_congr_left fun hj => ?_
  rw [openings, openings, Set.mem_ofPred_eq, Set.mem_ofPred_eq, changes_append (by omega),
    List.take_append_of_le_length (by omega)]

/-- An accepted word that is flushed is a match of its whole length. -/
lemma exists_report_of_flushes (hm : m.HasMain stop) (hd : m.IsDeterminizedBy d) (hw : w ≠ [])
    (haccepts : m.Accepts mainGroup w) (hflush : m.Flushes w c) (i : Nat) :
    ∃ x, (d.run i (w ++ [c])).1.bind Match.ofSpans = some x ∧ x.span = ⟨i, i + w.length⟩ := by
  have hopen : 0 ∈ m.openings (w ++ [c]) mainGroup := by
    obtain ⟨ht, hname⟩ := (hm.mem_tags_iff _).2 rfl
    refine ⟨hm.changes_zero (by simp), _, ht, hname, ?_⟩
    rw [List.take_zero, Reaches, hm.initial_eq]
    exact .nil 0
  have hclosed : IsGreatest (m.closings (w ++ [c]) mainGroup) w.length := by
    refine ⟨mem_closings_append_iff.2 ⟨hflush, haccepts⟩, fun k hk => ?_⟩
    have hlt := hk.1.1
    rw [List.length_append, List.length_singleton] at hlt
    omega
  obtain ⟨x, hx⟩ := exists_run_of_closed (i := i) hm hd hopen (List.length_pos_of_ne_nil hw) hclosed
  obtain ⟨k, hk⟩ := exists_report_of_run hm hd hx
  rw [hk.closed.unique hclosed] at hk
  exact ⟨x, hx, hk.span_eq⟩

end Nfa

/-! ### Runs with two sentinels -/

namespace Dfa

variable {m : PatternNfa} {d : PatternDfa} {stop i j : Nat} {t w : List Char} {c c' : Char}

/-- Sentinels that both flush what a run has read, or both do not, make no difference to it. -/
lemma run_congr (hd : m.IsDeterminizedBy d) (h : m.Flushes w c ↔ m.Flushes w c') (i : Nat) :
    d.run i (w ++ [c]) = d.run i (w ++ [c']) := by
  rw [run, run, runFrom_append_congr]
  intro q hq position opened closed
  have hstay : d.next? q c = some q ↔ d.next? q c' = some q :=
    not_iff_not.1 ((hd.flushes_iff hq).symm.trans (h.trans (hd.flushes_iff hq)))
  rw [runFrom_singleton, runFrom_singleton]
  by_cases hc : d.next? q c = some q
  · rw [if_pos hc, if_pos (hstay.1 hc)]
  · rw [if_neg hc, if_neg fun hc' => hc (hstay.2 hc')]

/-- At the end of a text it is enough that they agree on what is left of it, if anything is: every first
character flushes. -/
lemma run_drop_congr (hm : m.HasMain stop) (hd : m.IsDeterminizedBy d)
    (h : i < t.length → (m.Flushes (t.drop i) c ↔ m.Flushes (t.drop i) c')) :
    d.run i (t.drop i ++ [c]) = d.run i (t.drop i ++ [c']) := by
  refine run_congr hd ?_ i
  by_cases hlt : i < t.length
  · exact h hlt
  · rw [List.drop_of_length_le (by omega)]
    exact iff_of_true (hm.changes_zero (by simp)) (hm.changes_zero (by simp))

/-- Where a text is not accepted, the sentinel behind it makes no difference to the main group. -/
lemma main_congr (hd : m.IsDeterminizedBy d) (hw : ¬ m.Accepts mainGroup w) (i : Nat) :
    (d.run i (w ++ [c])).1.bind (·[mainGroup]?) = (d.run i (w ++ [c'])).1.bind (·[mainGroup]?) := by
  have hbefore : ∀ (c : Char) (e : Nat), IsGreatest (m.closings w mainGroup) e →
      before (m.openings (w ++ [c]) mainGroup) e = before (m.openings w mainGroup) e :=
    fun c e he => Nfa.before_openings_append he.1.1.1.le [c]
  ext s
  rw [run_getElem?_iff, run_getElem?_iff, hd.closings_eq, hd.closings_eq, hd.openings_eq,
    hd.openings_eq, Nfa.closings_append hw, Nfa.closings_append hw]
  refine exists_congr fun a => exists_congr fun e => and_congr_right fun _ =>
    and_congr_right fun he => ?_
  rw [hbefore c e he, hbefore c' e he]

/-- What is found is the same with two sentinels if it is the same at each attempt. -/
lemma filterMap_runsFrom_congr {β : Type} {f : Option (Spans String) → Option β}
    (hd : m.IsDeterminizedBy d) (hi : i ≤ t.length)
    (h : ∀ j ≤ t.length, m.Attempt t i j →
      f (d.run j (t.drop j ++ [c])).1 = f (d.run j (t.drop j ++ [c'])).1) :
    (d.runsFrom i (t.drop i ++ [c])).filterMap (fun x => f x.2) =
      (d.runsFrom i (t.drop i ++ [c'])).filterMap (fun x => f x.2) := by
  induction hlen : t.length - i using Nat.strong_induction_on generalizing i with
  | _ len ih =>
      have hn := lasts_extent hd (t.drop i)
      have hle := hn.le_length hi
      rw [runsFrom_within hi hle (d.run_index_append_singleton i (t.drop i) c),
        runsFrom_within hi hle (d.run_index_append_singleton i (t.drop i) c'),
        List.filterMap_cons, List.filterMap_cons, h i hi (.here i)]
      by_cases hlt : i < t.length
      · rw [if_pos hlt, if_pos hlt,
          ih (t.length - max (i + d.extent d.initial (t.drop i)) (i + 1)) (by omega) (by omega)
            (fun j hj hattempt => h j hj (.next hlt hn hattempt)) rfl]
      · rw [if_neg hlt, if_neg hlt]

/-- Each attempt is a run. -/
lemma mem_runsFrom_of_attempt (hd : m.IsDeterminizedBy d) (h : m.Attempt t i j)
    (hj : j ≤ t.length) (c : Char) :
    (j, (d.run j (t.drop j ++ [c])).1) ∈ d.runsFrom i (t.drop i ++ [c]) := by
  induction h with
  | here i =>
      rw [runsFrom_eq d i (by simp)]
      exact .head _
  | @next i n j hi hn _ ih =>
      obtain rfl := hn.unique (lasts_extent hd (t.drop i))
      rw [runsFrom_within hi.le (hn.le_length hi.le) (d.run_index_append_singleton i (t.drop i) c),
        if_pos hi]
      exact .tail _ (ih hj)

end Dfa

/-! ### Matches with two sentinels -/

namespace Regex

variable {r r' : Regex} {text : String} {i : Nat}

/-- Regular expressions of the same pattern have the same automata. -/
lemma eq_of_pattern (h : r'.pattern = r.pattern) : r'.nfa = r.nfa ∧ r'.dfa = r.dfa := by
  have hnfa := r'.nfa_eq
  rw [h, r.nfa_eq] at hnfa
  have hdfa := r'.dfa_eq
  rw [← Except.ok.inj hnfa, r.dfa_eq] at hdfa
  exact ⟨(Except.ok.inj hnfa).symm, (Except.ok.inj hdfa).symm⟩

/-- At an attempt where all that is left of the text is accepted, it is a match if and only if the
sentinel flushes it. -/
lemma mem_map_span_iff (hi : i < text.toList.length) (hattempt : r.nfa.Attempt text.toList 0 i)
    (haccepts : r.nfa.Accepts mainGroup (text.toList.drop i)) :
    ⟨i, text.toList.length⟩ ∈ (r.matchesIn text).map (·.span) ↔
      r.nfa.Flushes (text.toList.drop i) r.sentinel := by
  obtain ⟨stop, hm⟩ := r.exists_hasMain
  have hlen : i + (text.toList.drop i).length = text.toList.length := by
    rw [List.length_drop]
    omega
  constructor
  · intro hmem
    obtain ⟨x, hx, hspan⟩ := List.mem_map.1 hmem
    obtain ⟨j, k, -, hk⟩ := exists_report_of_mem hx
    rw [hk.span_eq, Span.mk.injEq] at hspan
    obtain ⟨rfl, hstop⟩ := hspan
    have hclosed := hk.closed.1
    obtain rfl : k = (text.toList.drop j).length := by omega
    rw [rest_eq hi.le] at hclosed
    exact (Nfa.mem_closings_append_iff.1 hclosed).1
  · intro hflush
    have hne : text.toList.drop i ≠ [] := List.ne_nil_of_length_pos (by omega)
    obtain ⟨x, hx, hspan⟩ :=
      Nfa.exists_report_of_flushes hm r.isDeterminizedBy hne haccepts hflush i
    have hrun := Dfa.mem_runsFrom_of_attempt r.isDeterminizedBy hattempt hi.le r.sentinel
    rw [matchesIn_eq_filterMap]
    exact List.mem_map.2 ⟨x, List.mem_filterMap.2 ⟨_, hrun, hx⟩, by rw [hspan, hlen]⟩

/-- The matches with two sentinels are the same if at every attempt both of them flush what is left of
the text, or both do not. They span the same parts of the text exactly if this is so at the attempts
where all that is left is accepted. -/
theorem matchesIn_congr (h : r'.pattern = r.pattern) (text : String) :
    ((∀ i < text.toList.length, r.nfa.Attempt text.toList 0 i →
        (r.nfa.Flushes (text.toList.drop i) r.sentinel ↔
          r.nfa.Flushes (text.toList.drop i) r'.sentinel)) →
        r.matchesIn text = r'.matchesIn text) ∧
      ((r.matchesIn text).map (·.span) = (r'.matchesIn text).map (·.span) ↔
        ∀ i < text.toList.length, r.nfa.Attempt text.toList 0 i →
          r.nfa.Accepts mainGroup (text.toList.drop i) →
            (r.nfa.Flushes (text.toList.drop i) r.sentinel ↔
              r.nfa.Flushes (text.toList.drop i) r'.sentinel)) := by
  obtain ⟨stop, hm⟩ := r.exists_hasMain
  have hd := r.isDeterminizedBy
  obtain ⟨hnfa, hdfa⟩ := eq_of_pattern h
  refine ⟨fun hflush => ?_, fun heq i hi hattempt haccepts => ?_, fun hflush => ?_⟩
  · rw [matchesIn_eq_filterMap, matchesIn_eq_filterMap, hdfa]
    refine Dfa.filterMap_runsFrom_congr (t := text.toList) (i := 0)
      (f := fun closed => closed.bind Match.ofSpans) hd (Nat.zero_le _) fun i _ hattempt => ?_
    rw [Dfa.run_drop_congr hm hd fun hlt => hflush i hlt hattempt]
  · rw [← mem_map_span_iff hi hattempt haccepts, heq,
      mem_map_span_iff (r := r') hi (by rwa [hnfa]) (by rwa [hnfa]), hnfa]
  · rw [map_span_matchesIn, map_span_matchesIn, hdfa]
    refine Dfa.filterMap_runsFrom_congr (f := fun closed => closed.bind (·[mainGroup]?)) hd
      (Nat.zero_le _) fun i _ hattempt => ?_
    by_cases haccepts : r.nfa.Accepts mainGroup (text.toList.drop i)
    · rw [Dfa.run_drop_congr hm hd fun hlt => hflush i hlt hattempt haccepts]
    · exact Dfa.main_congr hd haccepts i

/-- Behind `a`, the pattern `ab?` can read the sentinel `b`, but leaves its state on it as it does on one
that it cannot read: both find the `a`. -/
theorem matchesIn_congr_of_live_sentinel :
    ∃ r r', compile "ab?" = .ok r ∧ compile "ab?" 'b' = .ok r' ∧
      r.matchesIn "a" = r'.matchesIn "a" ∧ (r.matchesIn "a").map (·.span) = [⟨0, 1⟩] := by
  obtain ⟨r, hr, hspans, hfound⟩ := exists_ok_of_decide (x := compile "ab?")
    (P := fun r => (r.matchesIn "a").map (·.span) = [⟨0, 1⟩] ∧
      (r.dfa.after? r.dfa.initial ['a']).any fun q =>
        decide (r.dfa.next? q '\x00' ≠ some q ∧ r.dfa.next? q 'b' ≠ some q)) (by decide +kernel)
  obtain ⟨r', hr', -⟩ := exists_compile r.nfa_eq 'b'
  obtain ⟨hpattern, hsentinel⟩ := eq_of_compile hr
  obtain ⟨hpattern', hsentinel'⟩ := eq_of_compile hr'
  rw [hpattern] at hr' hpattern'
  simp only [Option.any_eq_true, decide_eq_true_eq] at hfound
  obtain ⟨q, hq, hnull, hb⟩ := hfound
  refine ⟨r, r', hr, hr', (matchesIn_congr (hpattern'.trans hpattern.symm) "a").1
    fun i hi _ => ?_, hspans⟩
  obtain rfl : i = 0 := Nat.lt_one_iff.1 hi
  rw [hsentinel, hsentinel']
  exact iff_of_true ((r.isDeterminizedBy.flushes_iff hq).2 hnull)
    ((r.isDeterminizedBy.flushes_iff hq).2 hb)

/-- The sentinel shows: neither the null character nor `$` occurs in `a`, but `[a\0]+` finds nothing in
it with the first of them, which leads back to the state behind `a`, and finds the `a` with the
other. -/
theorem not_matchesIn_eq_of_notMem :
    ∃ r r', compile "[a\\0]+" '\x00' = .ok r ∧ compile "[a\\0]+" '$' = .ok r' ∧
      '\x00' ∉ "a".toList ∧ '$' ∉ "a".toList ∧
      r.matchesIn "a" = [] ∧ (r'.matchesIn "a").map (·.span) = [⟨0, 1⟩] := by
  obtain ⟨r, hr, hnone⟩ := exists_ok_of_decide (x := compile "[a\\0]+" '\x00')
    (P := fun r => (r.matchesIn "a").isEmpty) (by decide +kernel)
  obtain ⟨r', hr', hfound⟩ := exists_ok_of_decide (x := compile "[a\\0]+" '$')
    (P := fun r => (r.matchesIn "a").map (·.span) = [⟨0, 1⟩]) (by decide +kernel)
  exact ⟨r, r', hr, hr', by decide, by decide, List.isEmpty_iff.1 hnone, hfound⟩

end Regex

end CaptureAutomata
