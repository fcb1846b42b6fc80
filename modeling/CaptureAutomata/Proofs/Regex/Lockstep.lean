/-
Regular expressions whose matches go hand in hand:

* `Nfa.Mirrors`: the states of one automaton stand for those of another, and the same words lead to
  them;
* `Nfa.Mirrors.of_maps`: so it is if the transitions of each are runs of the other, along maps between
  the states;
* `Nfa.Mirrors.openings_eq`, `Nfa.Mirrors.closings_eq`: tags that are the same there are opened and
  closed at the same positions;
* `Nfa.FindsAlike`: two automata read the same words, and open and close the main group alike;
* `Regex.forall₂_matchesIn`: then what is found in a text is found in the same runs, one match for each
  match;
* `Regex.exists_forall₂_matchesIn`: so it is for two patterns if the automata that are written down for
  them are such.
-/
import CaptureAutomata.Proofs.Regex.Iterations

namespace CaptureAutomata

namespace Nfa

/-! ### Automata with the same words -/

section Mirrors

variable {S S' A T T' : Type} [Key S] [Key S'] [Key A] {m : Nfa S A T} {m' : Nfa S' A T'} {f : S → S'}
  {g : S' → S} {w : List A} {k : Nat} {name : T} {name' : T'}

lemma Run.of_mem_targets {s t : S} {l : Option A} (h : t ∈ m.graph.targets s l) :
    m.Run s l.toList t := by
  cases l with
  | none => exact .silent h (.nil t)
  | some a => exact .read h (.nil t)

/-- If each transition is a run of another automaton, each run is one, over the same word. -/
lemma Run.map (hf : ∀ s l t, t ∈ m.graph.targets s l → m'.Run (f s) l.toList (f t)) {s t : S}
    (h : m.Run s w t) : m'.Run (f s) w (f t) := by
  induction h with
  | nil s => exact .nil (f s)
  | silent h _ ih => exact (hf _ _ _ h).append ih
  | read h _ ih => exact (hf _ _ _ h).append ih

/-- A tag starts and ends in states of the automaton. -/
lemma mem_states_of_mem_tags {t : Tag T S} (h : t ∈ m.tags) : t.start ∈ m.states ∧ t.stop ∈ m.states :=
  (m.tags_mem t h).imp (fun h => Std.ExtTreeMap.mem_keys.2 (Std.ExtTreeMap.contains_iff_mem.1 h))
    fun h => Std.ExtTreeMap.mem_keys.2 (Std.ExtTreeMap.contains_iff_mem.1 h)

/-- The states of `m'` stand for those of `m`, all of them: the same words lead there. -/
structure Mirrors (m' : Nfa S' A T') (m : Nfa S A T) (g : S' → S) : Prop where
  /-- The words that lead to a state are those that lead to what it stands for. -/
  reaches_iff : ∀ w, ∀ t ∈ m'.states, m'.Reaches w t ↔ m.Reaches w (g t)
  /-- Some state stands for each state. -/
  exists_eq : ∀ s ∈ m.states, ∃ t ∈ m'.states, g t = s

/-- Along two maps the transitions of each automaton are runs of the other. If a state can be reached
from where both maps lead it, and for the other automaton this is the state itself, then the same words
lead to them. -/
lemma Mirrors.of_maps (hf₀ : f m.initial = m'.initial) (hg₀ : g m'.initial = m.initial)
    (hf : ∀ s l t, t ∈ m.graph.targets s l → m'.Run (f s) l.toList (f t))
    (hg : ∀ s l t, t ∈ m'.graph.targets s l → m.Run (g s) l.toList (g t))
    (hfg : ∀ t ∈ m'.states, m'.Run (f (g t)) [] t)
    (hgf : ∀ s ∈ m.states, f s ∈ m'.states ∧ g (f s) = s) : m'.Mirrors m g where
  reaches_iff w t ht := by
    constructor
    · intro h
      have hrun := Run.map hg h
      rwa [hg₀] at hrun
    · intro h
      have hrun := Run.map hf h
      rw [hf₀] at hrun
      exact Reaches.silent hrun (hfg t ht)
  exists_eq s hs := ⟨f s, hgf s hs⟩

namespace Mirrors

/-- Both automata read the same words. -/
lemma reads_iff (h : m'.Mirrors m g) : (∃ s, m.Reaches w s) ↔ ∃ t, m'.Reaches w t := by
  constructor
  · rintro ⟨s, hs⟩
    obtain ⟨t, ht, rfl⟩ := h.exists_eq s (mem_states_of_reaches hs)
    exact ⟨t, (h.reaches_iff w t ht).2 hs⟩
  · rintro ⟨t, ht⟩
    exact ⟨g t, (h.reaches_iff w t (mem_states_of_reaches ht)).1 ht⟩

/-- Two words lead to the same states of one automaton if they do of the other. -/
lemma forall_reaches_iff (h : m'.Mirrors m g) {u v : List A} :
    (∀ t, m'.Reaches u t ↔ m'.Reaches v t) ↔ ∀ s, m.Reaches u s ↔ m.Reaches v s := by
  constructor
  · intro hsame s
    by_cases hs : s ∈ m.states
    · obtain ⟨t, ht, rfl⟩ := h.exists_eq s hs
      rw [← h.reaches_iff u t ht, ← h.reaches_iff v t ht]
      exact hsame t
    · exact iff_of_false (hs ∘ mem_states_of_reaches) (hs ∘ mem_states_of_reaches)
  · intro hsame t
    by_cases ht : t ∈ m'.states
    · rw [h.reaches_iff u t ht, h.reaches_iff v t ht]
      exact hsame (g t)
    · exact iff_of_false (ht ∘ mem_states_of_reaches) (ht ∘ mem_states_of_reaches)

/-- The states change at the same positions. -/
lemma changes_iff (h : m'.Mirrors m g) : m'.Changes w k ↔ m.Changes w k :=
  and_congr_right fun _ => not_congr h.forall_reaches_iff

end Mirrors

/-- Through `g` the tags called `name'` in `m'` stand for those called `name` in `m`. -/
def SameTags (m' : Nfa S' A T') (m : Nfa S A T) (g : S' → S) (name' : T') (name : T) : Prop :=
  ∀ s e, ⟨name, s, e⟩ ∈ m.tags ↔ ∃ s' e', ⟨name', s', e'⟩ ∈ m'.tags ∧ g s' = s ∧ g e' = e

/-- Some tag has a property if some tag does that stands for it. -/
lemma SameTags.exists_iff (h : m'.SameTags m g name' name) (P : S → S → Prop) :
    (∃ t ∈ m'.tags, t.name = name' ∧ P (g t.start) (g t.stop)) ↔
      ∃ t ∈ m.tags, t.name = name ∧ P t.start t.stop := by
  constructor
  · rintro ⟨t, ht, rfl, hP⟩
    exact ⟨⟨name, g t.start, g t.stop⟩, (h _ _).2 ⟨_, _, ht, rfl, rfl⟩, rfl, hP⟩
  · rintro ⟨t, ht, rfl, hP⟩
    obtain ⟨s, e, hmem, hs, he⟩ := (h t.start t.stop).1 ht
    exact ⟨⟨name', s, e⟩, hmem, rfl, by rwa [hs, he]⟩

namespace Mirrors

/-- Such tags are opened at the same positions. -/
lemma openings_eq (h : m'.Mirrors m g) (ht : m'.SameTags m g name' name) (w : List A) :
    m'.openings w name' = m.openings w name := by
  ext k
  refine and_congr h.changes_iff (Iff.trans ?_ (ht.exists_iff fun s _ => m.Reaches (w.take k) s))
  refine exists_congr fun t => and_congr_right fun hmem => and_congr_right fun _ => ?_
  exact h.reaches_iff _ _ (mem_states_of_mem_tags hmem).1

/-- Such tags are closed at the same positions. -/
lemma closings_eq (h : m'.Mirrors m g) (ht : m'.SameTags m g name' name) (w : List A) :
    m'.closings w name' = m.closings w name := by
  ext k
  refine and_congr h.changes_iff (Iff.trans ?_ (ht.exists_iff fun _ e => m.Reaches (w.take k) e))
  refine exists_congr fun t => and_congr_right fun hmem => and_congr_right fun _ => ?_
  exact h.reaches_iff _ _ (mem_states_of_mem_tags hmem).2

end Mirrors

end Mirrors

/-! ### Automata that find the same -/

variable {m m' : PatternNfa} {d d' : PatternDfa} {stop stop' i : Nat} {g : Nat → Nat} {w t : List Char}
  {x : Match} {Q : Match → Match → Prop}

/-- Two automata read the same words, and open and close the main group at the same positions. -/
structure FindsAlike (m m' : PatternNfa) : Prop where
  /-- The same words can be read. -/
  reads_iff : ∀ w, (∃ s, m.Reaches w s) ↔ ∃ s, m'.Reaches w s
  /-- The main group is opened at the same positions. -/
  openings_eq : ∀ w, m'.openings w mainGroup = m.openings w mainGroup
  /-- The main group is closed at the same positions. -/
  closings_eq : ∀ w, m'.closings w mainGroup = m.closings w mainGroup

/-- The main tags are the same if their states stand for each other. -/
lemma HasMain.sameTags (hm : m.HasMain stop) (hm' : m'.HasMain stop') (h₀ : g 0 = 0)
    (hstop : g stop' = stop) : m'.SameTags m g mainGroup mainGroup := by
  have hmain : ∀ {n : PatternNfa} {e s e' : Nat}, n.HasMain e →
      (⟨mainGroup, s, e'⟩ ∈ n.tags ↔ s = 0 ∧ e' = e) := fun {n e s e'} hn => by
    have := hn.mem_tags_iff ⟨mainGroup, s, e'⟩
    simpa using this
  intro s e
  rw [hmain hm]
  constructor
  · rintro ⟨rfl, rfl⟩
    exact ⟨0, stop', (hmain hm').2 ⟨rfl, rfl⟩, h₀, hstop⟩
  · rintro ⟨s', e', hmem, rfl, rfl⟩
    obtain ⟨rfl, rfl⟩ := (hmain hm').1 hmem
    exact ⟨h₀, hstop⟩

namespace IsLaidOutAs

variable {p p' : Pattern}

lemma mem_states_iff (h : m.IsLaidOutAs p) {s : Nat} : s ∈ m.states ↔ s < 2 + p.states := by
  rw [h.states_eq, List.mem_range]

/-- The main tag ends where the pattern does. -/
lemma hasMain (h : m.IsLaidOutAs p) (hm : m.HasMain stop) : m.HasMain (p.stop 2 1) := by
  have hmem : (⟨mainGroup, 0, p.stop 2 1⟩ : Tag String Nat) ∈ m.tags := by
    rw [h.tags_eq]
    exact List.mem_append_right _ (.head _)
  obtain rfl : p.stop 2 1 = stop := congrArg Tag.stop ((hm.mem_tags_iff _).1 ⟨hmem, rfl⟩)
  exact hm

/-- Along two maps between the states that are written down, the states stand for each other if the
transitions of each automaton are runs of the other. -/
lemma mirrors {f : Nat → Nat} (h : m.IsLaidOutAs p) (h' : m'.IsLaidOutAs p') (hf₀ : f 0 = 0)
    (hg₀ : g 0 = 0) (hf : ∀ s l t, t ∈ m.graph.targets s l → m'.Run (f s) l.toList (f t))
    (hg : ∀ s l t, t ∈ m'.graph.targets s l → m.Run (g s) l.toList (g t))
    (hfg : ∀ t, m'.Run (f (g t)) [] t)
    (hgf : ∀ s < 2 + p.states, f s < 2 + p'.states ∧ g (f s) = s) : m'.Mirrors m g := by
  refine .of_maps ?_ ?_ hf hg (fun t _ => hfg t) fun s hs => ?_
  · rw [h.initial_eq, h'.initial_eq, hf₀]
  · rw [h.initial_eq, h'.initial_eq, hg₀]
  · exact (hgf s (h.mem_states_iff.1 hs)).imp_left h'.mem_states_iff.2

end IsLaidOutAs

/-- Automata of which one stands for the other, and its main tag for the other's, find the same. -/
lemma Mirrors.findsAlike (h : m'.Mirrors m g) (hmain : m'.SameTags m g mainGroup mainGroup) :
    m.FindsAlike m' :=
  ⟨fun _ => h.reads_iff, h.openings_eq hmain, h.closings_eq hmain⟩

namespace FindsAlike

lemma symm (h : m.FindsAlike m') : m'.FindsAlike m :=
  ⟨fun w => (h.reads_iff w).symm, fun w => (h.openings_eq w).symm, fun w => (h.closings_eq w).symm⟩

/-- Their runs read equally far. -/
lemma extent_eq (h : m.FindsAlike m') (hd : m.IsDeterminizedBy d) (hd' : m'.IsDeterminizedBy d')
    (w : List Char) : d'.extent d'.initial w = d.extent d.initial w := by
  have hlasts := Dfa.lasts_extent hd' w
  simp only [Lasts, ← h.reads_iff] at hlasts
  exact hlasts.unique (Dfa.lasts_extent hd w)

/-- Where a run of one has a match, a run of the other has one. -/
lemma exists_run (h : m.FindsAlike m') (hm : m.HasMain stop) (hm' : m'.HasMain stop')
    (hd : m.IsDeterminizedBy d) (hd' : m'.IsDeterminizedBy d')
    (hx : (d.run i w).1.bind Match.ofSpans = some x) :
    ∃ y, (d'.run i w).1.bind Match.ofSpans = some y := by
  obtain ⟨k, hk⟩ := exists_report_of_run hm hd hx
  refine exists_run_of_closed hm' hd' ?_ hk.pos ?_
  · rw [h.openings_eq]
    exact hk.opened
  · rw [h.closings_eq]
    exact hk.closed

/-- The matches of their runs are related if what these report of the same symbols is. -/
lemma rel_run (h : m.FindsAlike m') (hm : m.HasMain stop) (hm' : m'.HasMain stop')
    (hd : m.IsDeterminizedBy d) (hd' : m'.IsDeterminizedBy d')
    (hQ : ∀ k x y, m.Reports i w k x → m'.Reports i w k y → Q x y) :
    Option.Rel Q ((d.run i w).1.bind Match.ofSpans) ((d'.run i w).1.bind Match.ofSpans) := by
  cases hx : (d.run i w).1.bind Match.ofSpans with
  | none =>
      cases hy : (d'.run i w).1.bind Match.ofSpans with
      | none => exact .none
      | some y =>
          obtain ⟨x, hsome⟩ := h.symm.exists_run hm' hm hd' hd hy
          cases hx.symm.trans hsome
  | some x =>
      obtain ⟨y, hy⟩ := h.exists_run hm hm' hd hd' hx
      obtain ⟨k, hk⟩ := exists_report_of_run hm hd hx
      obtain ⟨k', hk'⟩ := exists_report_of_run hm' hd' hy
      have hclosed := hk'.closed
      rw [h.closings_eq] at hclosed
      obtain rfl := hclosed.unique hk.closed
      rw [hy]
      exact .some (hQ k' x y hk hk')

/-- So are those of all runs over a text, one by one. -/
lemma forall₂_runsFrom (h : m.FindsAlike m') (hm : m.HasMain stop) (hm' : m'.HasMain stop')
    (hd : m.IsDeterminizedBy d) (hd' : m'.IsDeterminizedBy d')
    (hQ : ∀ j w k x y, m.Reports j w k x → m'.Reports j w k y → Q x y) (c : Char)
    (hi : i ≤ t.length) :
    List.Forall₂ (fun x y => Option.Rel Q (x.2.bind Match.ofSpans) (y.2.bind Match.ofSpans))
      (d.runsFrom i (t.drop i ++ [c])) (d'.runsFrom i (t.drop i ++ [c])) := by
  induction hlen : t.length - i using Nat.strong_induction_on generalizing i with
  | _ len ih =>
      have hle := (Dfa.lasts_extent hd (t.drop i)).le_length hi
      have hindex := d'.run_index_append_singleton i (t.drop i) c
      rw [h.extent_eq hd hd'] at hindex
      rw [Dfa.runsFrom_within hi hle (d.run_index_append_singleton i (t.drop i) c),
        Dfa.runsFrom_within hi hle hindex]
      refine .cons (h.rel_run hm hm' hd hd' (hQ i _)) ?_
      by_cases hlt : i < t.length
      · rw [if_pos hlt, if_pos hlt]
        exact ih _ (by omega) (by omega) rfl
      · rw [if_neg hlt, if_neg hlt, Dfa.runsFrom, Dfa.runsFrom]
        exact .nil

end FindsAlike

end Nfa

/-! ### Matches hand in hand -/

namespace Regex

/-- If two regular expressions find the same, and what their runs report of the same symbols is related,
so are their matches in a text, one by one. -/
lemma forall₂_matchesIn {r r' : Regex} (h : r.nfa.FindsAlike r'.nfa)
    (hsentinel : r'.sentinel = r.sentinel) {Q : Match → Match → Prop}
    (hQ : ∀ i w k x y, r.nfa.Reports i w k x → r'.nfa.Reports i w k y → Q x y) (text : String) :
    List.Forall₂ Q (r.matchesIn text) (r'.matchesIn text) := by
  obtain ⟨stop, hm⟩ := r.exists_hasMain
  obtain ⟨stop', hm'⟩ := r'.exists_hasMain
  rw [matchesIn_eq_filterMap, matchesIn_eq_filterMap, hsentinel]
  refine List.rel_filterMap (fun _ _ hxy => hxy) ?_
  exact h.forall₂_runsFrom (t := text.toList) hm hm' r.isDeterminizedBy r'.isDeterminizedBy hQ
    r.sentinel (Nat.zero_le _)

/-- If the automaton that is written down for one pattern stands for that of another, both patterns
compile, with any sentinel, and if what they report of the same symbols is related, so are their
matches. -/
theorem exists_forall₂_matchesIn {pattern pattern' : String} {p p' : Pattern} {g : Nat → Nat}
    (hp : Pattern.parse pattern = .ok p) (hp' : Pattern.parse pattern' = .ok p')
    (hg : ∀ {m m' : PatternNfa}, m.IsLaidOutAs p → m'.IsLaidOutAs p' → m'.Mirrors m g) (h₀ : g 0 = 0)
    (hstop : g (p'.stop 2 1) = p.stop 2 1) {Q : Match → Match → Prop}
    (hQ : ∀ {m m' : PatternNfa}, m.IsLaidOutAs p → m'.IsLaidOutAs p' → m.HasMain (p.stop 2 1) →
      ∀ i w k x y, m.Reports i w k x → m'.Reports i w k y → Q x y) (sentinel : Char) :
    ∃ r r', compile pattern sentinel = .ok r ∧ compile pattern' sentinel = .ok r' ∧
      ∀ text, List.Forall₂ Q (r.matchesIn text) (r'.matchesIn text) := by
  obtain ⟨m, hm⟩ := Pattern.exists_nfa_of_parse ⟨p, hp⟩
  obtain ⟨m', hm'⟩ := Pattern.exists_nfa_of_parse ⟨p', hp'⟩
  obtain ⟨r, hr, rfl⟩ := exists_compile hm sentinel
  obtain ⟨r', hr', rfl⟩ := exists_compile hm' sentinel
  obtain ⟨hpattern, hsentinel⟩ := eq_of_compile hr
  obtain ⟨hpattern', hsentinel'⟩ := eq_of_compile hr'
  have hlaid := isLaidOutAs (r := r) (hpattern.symm ▸ hp)
  have hlaid' := isLaidOutAs (r := r') (hpattern'.symm ▸ hp')
  obtain ⟨stop, hmain⟩ := r.exists_hasMain
  obtain ⟨stop', hmain'⟩ := r'.exists_hasMain
  have hfinds := (hg hlaid hlaid').findsAlike
    ((hlaid.hasMain hmain).sameTags (hlaid'.hasMain hmain') h₀ hstop)
  exact ⟨r, r', hr, hr', forall₂_matchesIn hfinds (hsentinel'.trans hsentinel.symm)
    (hQ hlaid hlaid' (hlaid.hasMain hmain))⟩

end Regex

end CaptureAutomata
