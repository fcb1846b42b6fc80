/-
One run over a text that a sentinel ends:

* `Nfa.Lasts`: how far into a word an automaton can read;
* `Nfa.Longest`: the length of the longest prefix that is accepted, the empty one left aside;
* `Dfa.exists_lasts_of_run`: whatever the sentinel is, a run ends just behind the symbol that could not
  be read, or behind the sentinel;
* `Dfa.completes_runFrom`: what a run closes for the main group. The group is opened once, when the
  initial state is left, and closed again and again;
* `Dfa.run_main`: a run spans the longest accepted prefix.
-/
import CaptureAutomata.Proofs.Dfa.Runs
import CaptureAutomata.Proofs.Pattern.Acceptance
import CaptureAutomata.Regex.Basic

namespace CaptureAutomata

/-! ### Prefixes -/

/-- `n` is the length of the longest prefix that can be read of a word. -/
def Nfa.Lasts {S A T : Type} [Key S] [Key A] (m : Nfa S A T) (w : List A) (n : Nat) : Prop :=
  IsGreatest {k | k ≤ w.length ∧ ∃ s, m.Reaches (w.take k) s} n

/-- `n` is the length of the longest prefix of a word that is accepted and not empty. -/
def Nfa.Longest (m : PatternNfa) (w : List Char) (n : Nat) : Prop :=
  IsGreatest {k | k ≤ w.length ∧ 1 ≤ k ∧ m.Accepts mainGroup (w.take k)} n

/-- A set that is shifted by one has a greatest member one further on. -/
lemma isGreatest_succ_iff {P Q : Set Nat} (h : ∀ k, k + 1 ∈ P ↔ k ∈ Q) {n : Nat} :
    IsGreatest P (n + 1) ↔ IsGreatest Q n := by
  constructor
  · rintro ⟨hmem, hle⟩
    exact ⟨(h n).1 hmem, fun k hk => by have := hle ((h k).2 hk); omega⟩
  · rintro ⟨hmem, hle⟩
    refine ⟨(h n).2 hmem, fun k hk => ?_⟩
    cases k with
    | zero => omega
    | succ k =>
        have := hle ((h k).1 hk)
        omega

namespace Nfa

variable {m : PatternNfa} {u w : List Char} {a : Char}

/-- How many more symbols of `w` can be read after `u`. -/
def readable (m : PatternNfa) (u w : List Char) : Set Nat :=
  {k | k ≤ w.length ∧ ∃ s, m.Reaches (u ++ w.take k) s}

/-- After how many more symbols of `w` a word is accepted that starts with `u` and is not empty. -/
def accepted (m : PatternNfa) (u w : List Char) : Set Nat :=
  {k | k ≤ w.length ∧ 1 ≤ u.length + k ∧ m.Accepts mainGroup (u ++ w.take k)}

/-- One symbol may be counted as read already. -/
lemma succ_mem_accepted (k : Nat) : k + 1 ∈ m.accepted u (a :: w) ↔ k ∈ m.accepted (u ++ [a]) w := by
  show _ ∧ _ ∧ m.Accepts mainGroup (u ++ a :: w.take k) ↔ _ ∧ _ ∧ _
  rw [List.append_cons, List.length_cons, List.length_append, List.length_singleton]
  exact and_congr (by omega) (and_congr_left fun _ => by omega)

lemma zero_mem_accepted : 0 ∈ m.accepted u w ↔ u ≠ [] ∧ m.Accepts mainGroup u := by
  simp [accepted, Nat.one_le_iff_ne_zero]

/-- Every word has a longest prefix that can be read. -/
lemma exists_lasts (m : PatternNfa) (w : List Char) : ∃ n, m.Lasts w n := by
  have hb : BddAbove {k | k ≤ w.length ∧ ∃ s, m.Reaches (w.take k) s} :=
    ⟨w.length, fun k hk => hk.1⟩
  exact ⟨_, Nat.sSup_mem ⟨0, Nat.zero_le _, m.initial, .nil _⟩ hb, fun k hk => le_csSup hb hk⟩

/-- The longest accepted prefix is the longest accepted word that is still to come at first. -/
lemma longest_iff {n : Nat} : m.Longest w n ↔ IsGreatest (m.accepted [] w) n := by
  simp only [Longest, accepted, List.length_nil, Nat.zero_add, List.nil_append]

/-- If any prefix is accepted that is not empty, there is a longest one. -/
lemma exists_longest (h : (m.accepted [] w).Nonempty) : ∃ n, m.Longest w n := by
  have hb : BddAbove (m.accepted [] w) := ⟨w.length, fun k hk => hk.1⟩
  exact ⟨_, longest_iff.2 ⟨Nat.sSup_mem h hb, fun k hk => le_csSup hb hk⟩⟩

end Nfa

/-! ### The main group in a run -/

namespace Dfa

variable {m : PatternNfa} {d : PatternDfa} {stop i : Nat} {c : Char}

/-- The deterministic automaton reads as far as the other one. -/
lemma lasts_extent (hd : m.IsDeterminizedBy d) (w : List Char) :
    m.Lasts w (d.extent d.initial w) := by
  have hreads : ∀ k ≤ w.length, (∃ s, m.Reaches (w.take k) s) ↔ k ≤ d.extent d.initial w :=
    fun k hk => by rw [← hd.reads_iff, exists_after?_take_iff hk]
  have hle := d.extent_le_length d.initial w
  exact ⟨⟨hle, (hreads _ hle).2 le_rfl⟩, fun k ⟨hk, hr⟩ => (hreads k hk).1 hr⟩

/-- A run ends behind the first symbol of a text that cannot be read, and if there is none, behind the
sentinel. -/
lemma exists_lasts_of_run (hd : m.IsDeterminizedBy d) (i : Nat) (w : List Char) (c : Char) :
    ∃ n, m.Lasts w n ∧ (d.run i (w ++ [c])).2 = i + n + 1 :=
  ⟨_, lasts_extent hd w, d.run_index_append_singleton i w c⟩

section Main

variable {u w : List Char} {q : KeySet Nat} {opened : KeyMap String Nat} {closed : Spans String}
  {a : Char}

/-- The main group starts only in the state where nothing has been read. -/
lemma main_mem_tagsStarting_iff (hm : m.HasMain stop) (hd : m.IsDeterminizedBy d)
    (hq : d.after? d.initial u = some q) : mainGroup ∈ d.tagsStarting q ↔ u = [] := by
  rw [hd.mem_tagsStarting q (hd.mem_states u q hq)]
  constructor
  · rintro ⟨t, ht, hname, hstart⟩
    obtain rfl := (hm.mem_tags_iff t).1 ⟨ht, hname⟩
    exact hm.eq_nil_of_reaches ((hd.statesAfter u q hq 0).1 hstart)
  · rintro rfl
    obtain ⟨ht, hname⟩ := (hm.mem_tags_iff _).2 rfl
    refine ⟨_, ht, hname, (hd.statesAfter [] q hq 0).2 ?_⟩
    rw [Nfa.Reaches, hm.initial_eq]
    exact .nil 0

/-- The main group ends in the states after the accepted words. -/
lemma main_mem_tagsEnding_iff (hm : m.HasMain stop) (hd : m.IsDeterminizedBy d)
    (hq : d.after? d.initial u = some q) :
    mainGroup ∈ d.tagsEnding q ↔ m.Accepts mainGroup u := by
  rw [hd.mem_tagsEnding q (hd.mem_states u q hq), hm.accepts_iff]
  constructor
  · rintro ⟨t, ht, hname, hstop⟩
    obtain rfl := (hm.mem_tags_iff t).1 ⟨ht, hname⟩
    exact (hd.statesAfter u q hq stop).1 hstop
  · intro hr
    obtain ⟨ht, hname⟩ := (hm.mem_tags_iff _).2 rfl
    exact ⟨_, ht, hname, (hd.statesAfter u q hq stop).2 hr⟩

/-- Leaving a state opens the main group if nothing has been read. -/
lemma main_openTags (hm : m.HasMain stop) (hd : m.IsDeterminizedBy d)
    (hq : d.after? d.initial u = some q)
    (hopen : opened[mainGroup]? = if u = [] then none else some i) :
    (d.openTags q (i + u.length) opened)[mainGroup]? = some i := by
  rw [getElem?_openTags, hopen]
  by_cases hu : u = []
  · rw [if_pos ((main_mem_tagsStarting_iff hm hd hq).2 hu), hu]
    rfl
  · rw [if_neg (fun h => hu ((main_mem_tagsStarting_iff hm hd hq).1 h)), if_neg hu]

/-- Leaving a state closes the main group if an accepted word has been read. -/
lemma main_closeTags (closed : Spans String) (w : List Char) (hm : m.HasMain stop) (hd : m.IsDeterminizedBy d)
    (hq : d.after? d.initial u = some q)
    (hopen : opened[mainGroup]? = if u = [] then none else some i) :
    (0 ∈ m.accepted u w →
        (d.closeTags q (i + u.length) opened closed)[mainGroup]? = some ⟨i, i + u.length⟩) ∧
      (0 ∉ m.accepted u w →
        (d.closeTags q (i + u.length) opened closed)[mainGroup]? = closed[mainGroup]?) := by
  rw [Nfa.zero_mem_accepted, ← main_mem_tagsEnding_iff hm hd hq, getElem?_closeTags, hopen]
  constructor
  · rintro ⟨hu, hends⟩
    simp [hu, hends]
  · intro hnot
    by_cases hu : u = []
    · simp [hu]
    · rw [if_neg fun hends => hnot ⟨hu, hends⟩]

/-- Where no transition leads on, nothing more can be read, and nothing longer is accepted. -/
lemma of_next?_eq_none (hd : m.IsDeterminizedBy d) (hq : d.after? d.initial u = some q)
    (hnone : ∀ b, w.head? = some b → d.next? q b = none) {k : Nat} (hk : k ∈ m.readable u w) :
    k = 0 := by
  by_contra hpos
  cases w with
  | nil =>
      have := hk.1
      simp only [List.length_nil] at this
      omega
  | cons b w =>
      obtain ⟨k, rfl⟩ := Nat.exists_eq_succ_of_ne_zero hpos
      obtain ⟨s, hs⟩ := hk.2
      rw [List.take_succ_cons, List.append_cons] at hs
      obtain ⟨t, hr, -⟩ := Nfa.Run.append_iff.1 hs
      obtain ⟨q', hq'⟩ := (hd.reads_iff (u ++ [b])).2 ⟨t, hr⟩
      rw [after?_append_singleton, hq] at hq'
      have hdead : d.next? q b = some q' := hq'
      rw [hnone b rfl] at hdead
      cases hdead

lemma accepted_subset_readable {k : Nat} (hk : k ∈ m.accepted u w) : k ∈ m.readable u w := by
  obtain ⟨hle, -, t, -, -, hr⟩ := hk
  exact ⟨hle, t.stop, hr⟩

end Main

/-! ### Whole runs -/

/-- What becomes of the main group if `u` has been read from position `i` on and `w` follows, and the
group last was closed over `old`: it spans the longest accepted word of those still to come. -/
structure Completes (m : PatternNfa) (i : Nat) (u w : List Char) (old : Option Span)
    (closed : Spans String) : Prop where
  /-- The group is closed where the longest accepted word ends. -/
  found : ∀ k, IsGreatest (m.accepted u w) k → closed[mainGroup]? = some ⟨i, i + u.length + k⟩
  /-- The group stays as it was if nothing is accepted. -/
  kept : m.accepted u w = ∅ → closed[mainGroup]? = old

/-- A run goes on over one more symbol. -/
lemma Completes.cons {u w : List Char} {a : Char} {old old' : Option Span} {closed : Spans String}
    (h : Completes m i (u ++ [a]) w old' closed)
    (hfound : 0 ∈ m.accepted u (a :: w) → m.accepted (u ++ [a]) w = ∅ →
      old' = some ⟨i, i + u.length⟩)
    (hkept : 0 ∉ m.accepted u (a :: w) → m.accepted (u ++ [a]) w = ∅ → old' = old) :
    Completes m i u (a :: w) old closed := by
  have hlen : (u ++ [a]).length = u.length + 1 := List.length_append
  have hnone : (∀ k ∈ m.accepted u (a :: w), k = 0) → m.accepted (u ++ [a]) w = ∅ := fun hall =>
    Set.eq_empty_of_forall_notMem fun k hk =>
      absurd (hall _ ((Nfa.succ_mem_accepted k).2 hk)) (Nat.succ_ne_zero k)
  refine ⟨fun k hk => ?_, fun hempty => ?_⟩
  · cases k with
    | zero =>
        have hlater := hnone fun k hk' => Nat.le_zero.1 (hk.2 hk')
        rw [h.kept hlater]
        exact hfound hk.1 hlater
    | succ k =>
        rw [h.found k ((isGreatest_succ_iff Nfa.succ_mem_accepted).1 hk), hlen]
        simp only [Option.some.injEq, Span.mk.injEq, true_and]
        omega
  · have hlater := hnone fun k hk => by
      rw [hempty] at hk
      exact absurd hk (Set.notMem_empty k)
    rw [h.kept hlater]
    exact hkept (by simp [hempty]) hlater

/-- A run that cannot go on closes what it has. -/
lemma completes_dead (hm : m.HasMain stop) (hd : m.IsDeterminizedBy d) {u w : List Char}
    {q : KeySet Nat} {opened : KeyMap String Nat} {closed : Spans String}
    (hq : d.after? d.initial u = some q)
    (hopen : opened[mainGroup]? = if u = [] then none else some i)
    (hdead : ∀ b, w.head? = some b → d.next? q b = none) :
    Completes m i u w closed[mainGroup]? (d.closeTags q (i + u.length) opened closed) := by
  obtain ⟨hclose, hkeep⟩ := main_closeTags closed w hm hd hq hopen
  refine ⟨fun k hk => ?_, fun hempty => hkeep (by simp [hempty])⟩
  obtain rfl := of_next?_eq_none hd hq hdead (accepted_subset_readable hk.1)
  exact hclose hk.1

/-- What a run makes of the main group on the rest of a text with the sentinel behind it. -/
lemma completes_runFrom (hm : m.HasMain stop) (hd : m.IsDeterminizedBy d)
    (hc : ∀ q, d.next? q c = none) (w : List Char) {u : List Char} {q : KeySet Nat}
    {opened : KeyMap String Nat} {closed : Spans String} (hq : d.after? d.initial u = some q)
    (hopen : opened[mainGroup]? = if u = [] then none else some i) :
    Completes m i u w closed[mainGroup]?
      (d.runFrom q (i + u.length) opened closed (w ++ [c])).1 := by
  induction w generalizing u q opened closed with
  | nil =>
      rw [List.nil_append, runFrom_dead (hc q)]
      exact completes_dead hm hd hq hopen (by simp)
  | cons a w ih =>
      rw [List.cons_append]
      cases ha : d.next? q a with
      | none =>
          rw [runFrom_dead ha]
          exact completes_dead hm hd hq hopen (by simpa using ha)
      | some q' =>
          have hq' : d.after? d.initial (u ++ [a]) = some q' := by
            rw [after?_append_singleton, hq]
            exact ha
          have hpos : i + u.length + 1 = i + (u ++ [a]).length := by simp [Nat.add_assoc]
          have hne : u ++ [a] ≠ [] := by simp
          by_cases hstay : q' = q
          · subst hstay
            -- the initial state is never entered again
            have hu : u ≠ [] := fun hu =>
              hne ((main_mem_tagsStarting_iff hm hd hq').1
                ((main_mem_tagsStarting_iff hm hd hq).2 hu))
            rw [if_neg hu] at hopen
            rw [runFrom_stay ha, hpos]
            refine (ih hq' (by rw [hopen, if_neg hne])).cons (fun h0 hlater => ?_)
              fun _ _ => rfl
            -- the same state means that the longer word is accepted, too
            have haccepts := (main_mem_tagsEnding_iff hm hd hq).2 (Nfa.zero_mem_accepted.1 h0).2
            have h0' : 0 ∈ m.accepted (u ++ [a]) w :=
              Nfa.zero_mem_accepted.2 ⟨hne, (main_mem_tagsEnding_iff hm hd hq').1 haccepts⟩
            rw [hlater] at h0'
            exact absurd h0' (Set.notMem_empty 0)
          · obtain ⟨hclose, hkeep⟩ := main_closeTags closed (a :: w) hm hd hq hopen
            rw [runFrom_leave ha hstay, hpos]
            refine (ih hq' ?_).cons (fun h0 _ => hclose h0) fun h0 _ => hkeep h0
            rw [main_openTags hm hd hq hopen, if_neg hne]

/-- A run over the rest of a text spans the longest prefix that is accepted, and ends behind the first
symbol that cannot be read. -/
lemma run_main (hm : m.HasMain stop) (hd : m.IsDeterminizedBy d) (hc : ∀ q, d.next? q c = none)
    (i : Nat) (w : List Char) :
    (∃ n, m.Lasts w n ∧ (d.run i (w ++ [c])).2 = i + n + 1) ∧
      (∀ k, m.Longest w k → (d.run i (w ++ [c])).1.bind (·[mainGroup]?) = some ⟨i, i + k⟩) ∧
      ((¬ ∃ k, m.Longest w k) → (d.run i (w ++ [c])).1.bind (·[mainGroup]?) = none) := by
  have h : Completes m i [] w none (d.runFrom d.initial i ∅ ∅ (w ++ [c])).1 := by
    have h : Completes m i [] w (∅ : Spans String)[mainGroup]?
        (d.runFrom d.initial (i + 0) ∅ ∅ (w ++ [c])).1 :=
      completes_runFrom hm hd hc w rfl (by simp)
    simpa using h
  rw [run_bind]
  refine ⟨exists_lasts_of_run hd i w c, fun k hk => h.found k (Nfa.longest_iff.1 hk), fun hnone => h.kept ?_⟩
  by_contra hne
  obtain ⟨k, hk⟩ := Nfa.exists_longest (Set.nonempty_iff_ne_empty.2 hne)
  exact hnone ⟨k, hk⟩

end Dfa

end CaptureAutomata
