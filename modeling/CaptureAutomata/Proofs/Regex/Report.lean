/-
What a search reports, told by the words that the automaton of the pattern reads:

* `Nfa.Changes`: reading one more symbol changes the states that the automaton can be in;
* `Nfa.openings`, `Nfa.closings`: the positions with such a change where a tag can start, or end;
* `Nfa.IsDeterminizedBy.openings_eq`, `Nfa.IsDeterminizedBy.closings_eq`: these are the positions
  where the deterministic automaton opens and closes the tag;
* `Nfa.Reports`: a match from a position on, with the last closing of each group that lies within;
* `Regex.exists_report_of_mem`: every match in a text is such a match.
-/
import CaptureAutomata.Proofs.Dfa.Spans
import CaptureAutomata.Proofs.Regex.Search

namespace CaptureAutomata

/-! ### Changes -/

namespace Nfa

variable {S A T : Type} [Key S] [Key A] {m : Nfa S A T} {w : List A} {j k : Nat} {name : T}

/-- Reading the symbol at position `k` changes the states that can be reached. -/
def Changes (m : Nfa S A T) (w : List A) (k : Nat) : Prop :=
  k < w.length ∧ ¬ ∀ s, m.Reaches (w.take (k + 1)) s ↔ m.Reaches (w.take k) s

/-- The positions where a tag with this name can start, and where the states change. -/
def openings (m : Nfa S A T) (w : List A) (name : T) : Set Nat :=
  {k | m.Changes w k ∧ ∃ t ∈ m.tags, t.name = name ∧ m.Reaches (w.take k) t.start}

/-- The positions where a tag with this name can end, and where the states change. -/
def closings (m : Nfa S A T) (w : List A) (name : T) : Set Nat :=
  {k | m.Changes w k ∧ m.Accepts name (w.take k)}

/-- If not all symbols can be read, a tag that can end somewhere is closed there or further on. -/
lemma exists_mem_closings (hdead : ∀ s, ¬ m.Reaches w s) (hj : m.Accepts name (w.take j)) :
    ∃ k ∈ m.closings w name, j ≤ k := by
  have hlt : j < w.length := by
    by_contra hle
    obtain ⟨t, -, -, hr⟩ := hj
    rw [List.take_of_length_le (by omega)] at hr
    exact hdead _ hr
  induction hn : w.length - j generalizing j with
  | zero => omega
  | succ n ih =>
      by_cases hchange : m.Changes w j
      · exact ⟨j, ⟨hchange, hj⟩, le_rfl⟩
      · -- the tag can end behind the next symbol, too
        have hsame : ∀ s, m.Reaches (w.take (j + 1)) s ↔ m.Reaches (w.take j) s := by
          by_contra h
          exact hchange ⟨hlt, h⟩
        obtain ⟨t, ht, hname, hr⟩ := hj
        have hr' := (hsame _).2 hr
        have hlt' : j + 1 < w.length := by
          by_contra hle
          rw [List.take_of_length_le (by omega)] at hr'
          exact hdead _ hr'
        obtain ⟨k, hk, hle⟩ := ih ⟨t, ht, hname, hr'⟩ hlt' (by omega)
        exact ⟨k, hk, by omega⟩

variable [Key T] {d : Dfa (KeySet S) A T}

/-- The deterministic automaton leaves its state where the states change. -/
lemma IsDeterminizedBy.leavesAt_iff (h : m.IsDeterminizedBy d) {q : KeySet S} :
    d.LeavesAt w k q ↔ m.Changes w k ∧ d.after? d.initial (w.take k) = some q := by
  constructor
  · intro hleaves
    have hlt := hleaves.lt_length
    obtain ⟨hq, a, ha, hnext⟩ := hleaves
    refine ⟨⟨hlt, fun hsame => ?_⟩, hq⟩
    obtain ⟨s, hs⟩ := (h.reads_iff _).1 ⟨q, hq⟩
    obtain ⟨q', hq'⟩ := (h.reads_iff _).2 ⟨s, (hsame s).2 hs⟩
    have heq : q' = q := (h.statesAfter _ _ hq').unique fun s =>
      (h.statesAfter _ _ hq s).trans (hsame s).symm
    rw [Dfa.after?_take_succ ha hq, heq] at hq'
    exact hnext hq'
  · rintro ⟨⟨hlt, hchange⟩, hq⟩
    have ha : w[k]? = some w[k] := List.getElem?_eq_getElem hlt
    refine ⟨hq, w[k], ha, fun hstay => hchange fun s => ?_⟩
    have hq' := Dfa.after?_take_succ ha hq
    rw [hstay] at hq'
    exact (h.statesAfter _ _ hq' s).symm.trans (h.statesAfter _ _ hq s)

/-- The deterministic automaton leaves a set that holds a certain state of a tag where this state can be
reached. -/
lemma IsDeterminizedBy.exists_leavesAt_iff (h : m.IsDeterminizedBy d) {state : Tag T S → S}
    {names : KeySet S → KeySet T}
    (hnames : ∀ q ∈ d.states, ∀ name,
      name ∈ names q ↔ ∃ t ∈ m.tags, t.name = name ∧ state t ∈ q) :
    (∃ q, d.LeavesAt w k q ∧ name ∈ names q) ↔
      m.Changes w k ∧ ∃ t ∈ m.tags, t.name = name ∧ m.Reaches (w.take k) (state t) := by
  constructor
  · rintro ⟨q, hleaves, htag⟩
    obtain ⟨hchange, hq⟩ := h.leavesAt_iff.1 hleaves
    obtain ⟨t, ht, hname, hstate⟩ := (hnames q (h.mem_states _ q hq) name).1 htag
    exact ⟨hchange, t, ht, hname, (h.statesAfter _ q hq _).1 hstate⟩
  · rintro ⟨hchange, t, ht, hname, hr⟩
    obtain ⟨q, hq⟩ := (h.reads_iff _).2 ⟨_, hr⟩
    have hstate := (h.statesAfter _ q hq _).2 hr
    exact ⟨q, h.leavesAt_iff.2 ⟨hchange, hq⟩,
      (hnames q (h.mem_states _ q hq) name).2 ⟨t, ht, hname, hstate⟩⟩

/-- The deterministic automaton opens a tag where it can start. -/
lemma IsDeterminizedBy.openings_eq (h : m.IsDeterminizedBy d) (w : List A) (name : T) :
    d.openings w name = m.openings w name :=
  Set.ext fun _ => h.exists_leavesAt_iff h.mem_tagsStarting

/-- The deterministic automaton closes a tag where it can end. -/
lemma IsDeterminizedBy.closings_eq (h : m.IsDeterminizedBy d) (w : List A) (name : T) :
    d.closings w name = m.closings w name :=
  Set.ext fun _ => h.exists_leavesAt_iff h.mem_tagsEnding

end Nfa

/-! ### Reports -/

/-- The match of some spans is that of their main group. -/
lemma Match.span_of_ofSpans {closed : Option (Dfa.Spans String)} {x : Match}
    (h : closed.bind ofSpans = some x) : closed.bind (·[mainGroup]?) = some x.span := by
  obtain ⟨spans, rfl, hx⟩ := Option.bind_eq_some_iff.1 h
  obtain ⟨whole, hwhole, rfl⟩ := Option.map_eq_some_iff.1 hx
  exact hwhole

/-- What a match keeps of the spans of a run. -/
lemma Match.group?_of_ofSpans {spans : Dfa.Spans String} {x : Match} (h : ofSpans spans = some x)
    (name : String) (s : Span) :
    x.group? name = some s ↔ name ≠ mainGroup ∧ spans[name]? = some s ∧
      x.span.start ≤ s.start ∧ s.stop ≤ x.span.stop ∧ s.start ≤ s.stop := by
  obtain ⟨whole, -, rfl⟩ := Option.map_eq_some_iff.1 h
  rw [group?, Std.ExtTreeMap.getElem?_filter', Option.filter_eq_some_iff,
    Std.ExtTreeMap.getElem?_erase]
  by_cases hname : name = mainGroup
  · simp [hname]
  · rw [if_neg fun h => hname (Key.compare_eq_iff.1 h).symm]
    simp [hname, Span.contains, and_assoc]

namespace Nfa

variable {m : PatternNfa} {stop i k : Nat} {w : List Char} {x : Match}

/-- The match is what a run over `w` from position `i` on reports: it spans `k` symbols, up to the last
closing of the main group, and holds the last closing of every group that ends within, from the last
opening before. -/
structure Reports (m : PatternNfa) (i : Nat) (w : List Char) (k : Nat) (x : Match) : Prop where
  /-- The match starts where the run does. -/
  span_eq : x.span = ⟨i, i + k⟩
  /-- The match is not empty. -/
  pos : 0 < k
  /-- The main group is opened on the first symbol. -/
  opened : 0 ∈ m.openings w mainGroup
  /-- The match ends where the main group is closed at last. -/
  closed : IsGreatest (m.closings w mainGroup) k
  /-- The groups that lie within are those that end within. -/
  group?_iff : ∀ (name : String) (s : Span), x.group? name = some s ↔ name ≠ mainGroup ∧
    ∃ a b, s = ⟨i + a, i + b⟩ ∧ IsGreatest (m.closings w name) b ∧
      IsGreatest (before (m.openings w name) b) a ∧ b ≤ k

/-- The main group is opened on the first symbol only. -/
lemma HasMain.eq_zero_of_mem_openings (hm : m.HasMain stop) {a : Nat}
    (ha : a ∈ m.openings w mainGroup) : a = 0 := by
  obtain ⟨⟨hlt, -⟩, t, ht, hname, hr⟩ := ha
  obtain rfl := (hm.mem_tags_iff t).1 ⟨ht, hname⟩
  have hnil := congrArg List.length (hm.eq_nil_of_reaches hr)
  rw [List.length_take, List.length_nil] at hnil
  omega

/-- So its last opening before any position is on the first symbol. -/
lemma HasMain.isGreatest_before_openings (hm : m.HasMain stop) (hopen : 0 ∈ m.openings w mainGroup)
    (hpos : 0 < k) : IsGreatest (before (m.openings w mainGroup) k) 0 :=
  ⟨⟨hopen, hpos⟩, fun _ ha => (hm.eq_zero_of_mem_openings ha.1).le⟩

variable {d : PatternDfa}

/-- The match of a run is what the run reports. -/
lemma exists_report_of_run (hm : m.HasMain stop) (hd : m.IsDeterminizedBy d)
    (h : (d.run i w).1.bind Match.ofSpans = some x) : ∃ k, m.Reports i w k x := by
  have hwhole := Match.span_of_ofSpans h
  obtain ⟨spans, hspans, hx⟩ := Option.bind_eq_some_iff.1 h
  have hclosed : ∀ (name : String) s, spans[name]? = some s ↔ ∃ a b, s = ⟨i + a, i + b⟩ ∧
      IsGreatest (m.closings w name) b ∧ IsGreatest (before (m.openings w name) b) a := by
    intro name s
    have hrun := Dfa.run_getElem?_iff (m := d) i w name s
    rwa [hspans, Option.bind_some, hd.closings_eq, hd.openings_eq] at hrun
  rw [hspans, Option.bind_some] at hwhole
  obtain ⟨a, k, hspan, hk, ha⟩ := (hclosed mainGroup _).1 hwhole
  obtain rfl := hm.eq_zero_of_mem_openings ha.1.1
  refine ⟨k, hspan, ha.1.2, ha.1.1, hk, fun name s => ?_⟩
  rw [Match.group?_of_ofSpans hx, hclosed, hspan]
  constructor
  · rintro ⟨hname, ⟨a, b, rfl, hb, ha⟩, -, hstop, -⟩
    exact ⟨hname, a, b, rfl, hb, ha, by simpa using hstop⟩
  · rintro ⟨hname, a, b, rfl, hb, ha, hle⟩
    have hlt := ha.1.2
    exact ⟨hname, ⟨a, b, rfl, hb, ha⟩, by simp, by simpa using hle, by simpa using hlt.le⟩

/-- A run that opens and closes the main group has a match. -/
lemma exists_run_of_closed (hm : m.HasMain stop) (hd : m.IsDeterminizedBy d)
    (hopen : 0 ∈ m.openings w mainGroup) (hpos : 0 < k)
    (hclosed : IsGreatest (m.closings w mainGroup) k) :
    ∃ x, (d.run i w).1.bind Match.ofSpans = some x := by
  have hfirst := hm.isGreatest_before_openings hopen hpos
  have hmain := (Dfa.run_getElem?_iff (m := d) i w mainGroup ⟨i + 0, i + k⟩).2
    ⟨0, k, rfl, by rwa [hd.closings_eq], by rwa [hd.openings_eq]⟩
  obtain ⟨spans, hspans, hwhole⟩ := Option.bind_eq_some_iff.1 hmain
  exact ⟨_, by rw [hspans, Option.bind_some, Match.ofSpans, hwhole, Option.map_some]⟩

end Nfa

/-! ### Matches in a text -/

namespace Match

lemma extract_span (x : Match) (text : String) :
    text.toList.extract x.span.start x.span.stop = (x.text text).toList :=
  String.toList_ofList.symm

/-- A match that ends in a text is as long as its span. -/
lemma length_text (x : Match) {text : String} (h : x.span.stop ≤ text.toList.length) :
    (x.text text).length = x.span.stop - x.span.start := by
  rw [← String.length_toList, ← extract_span, List.extract_eq_take_drop, List.length_take,
    List.length_drop]
  exact Nat.min_eq_left (Nat.sub_le_sub_right h _)

end Match

namespace Regex

/-- What is left of a text from position `i` on, with the sentinel behind it. -/
def rest (r : Regex) (text : String) (i : Nat) : List Char :=
  (text.toList ++ [r.sentinel]).drop i

variable {r : Regex} {text : String} {i k : Nat} {x : Match}

/-- Up to the end of the text, the rest with the sentinel is that of the text. -/
lemma rest_eq (h : i ≤ text.toList.length) : r.rest text i = text.toList.drop i ++ [r.sentinel] :=
  List.drop_append_of_le_length h

lemma length_rest (h : i ≤ text.toList.length) :
    (r.rest text i).length = text.toList.length - i + 1 := by
  rw [rest_eq h, List.length_append, List.length_drop, List.length_singleton]

lemma take_rest (h : i + k ≤ text.toList.length) :
    (r.rest text i).take k = text.toList.extract i (i + k) := by
  rw [rest_eq (by omega), List.take_append_of_le_length (by rw [List.length_drop]; omega),
    List.extract, Nat.add_sub_cancel_left]

/-- The text of a match is what the run over the rest of the text reads first. -/
lemma toList_text (h : r.nfa.Reports i (r.rest text i) k x) (hle : i + k ≤ text.toList.length) :
    (x.text text).toList = (r.rest text i).take k := by
  rw [← x.extract_span, h.span_eq, take_rest hle]

/-- The matches in a text are those of the runs over it and the sentinel. -/
lemma matchesIn_eq_filterMap (r : Regex) (text : String) :
    r.matchesIn text = (r.dfa.runsFrom 0 (text.toList ++ [r.sentinel])).filterMap
      fun x => x.2.bind Match.ofSpans := by
  rw [matchesIn, Dfa.evaluateAll, List.filterMap_filterMap]
  rfl

/-- Every match in a text is what a run reports over the rest of the text and the sentinel. -/
lemma exists_report_of_mem (h : x ∈ r.matchesIn text) :
    ∃ i k, i + k ≤ text.toList.length ∧ r.nfa.Reports i (r.rest text i) k x := by
  obtain ⟨stop, hm⟩ := r.exists_hasMain
  rw [matchesIn_eq_filterMap, List.mem_filterMap] at h
  obtain ⟨y, hy, hx⟩ := h
  obtain ⟨i, hi, rfl⟩ := Dfa.exists_of_mem_runsFrom hy
  rw [Nat.zero_add] at hx
  obtain ⟨k, hk⟩ := Nfa.exists_report_of_run hm r.isDeterminizedBy hx
  have hlt := hk.closed.1.1.1
  simp only [List.length_drop, List.length_append, List.length_singleton] at hi hlt
  exact ⟨i, k, by omega, hk⟩

/-- If the first run has a match, it is the first match. -/
lemma find_eq_some (h : (r.dfa.run 0 (r.rest text 0)).1.bind Match.ofSpans = some x) :
    r.find text = some x := by
  rw [rest, List.drop_zero] at h
  rw [find, matchesIn_eq_filterMap, Dfa.runsFrom_eq r.dfa 0 (by simp), List.filterMap_cons]
  simp only [h, List.head?_cons]

end Regex

end CaptureAutomata
