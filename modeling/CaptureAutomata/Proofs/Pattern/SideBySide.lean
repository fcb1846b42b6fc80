/-
Groups side by side:

* `Pattern.Encloses.mem_threaded_iff`, `Pattern.Encloses.reaches_entry_iff`: in a pattern that
  encloses others, the words of these are read, and nothing leads back to the state that all groups
  start in;
* `Pattern.Bounds`: labels of states, by which only certain words can be read over some transitions;
  `Bounds.alternative` says that one more group around a text can be labelled if what the text starts
  with are such words;
* `Pattern.Encloses.exists_reaches`: two patterns that enclose the same patterns and then some texts
  each can read the same words, if the texts of one can be read by the other.
-/
import CaptureAutomata.Proofs.Pattern.Enclosing
import CaptureAutomata.Proofs.Pattern.Sites
import CaptureAutomata.Proofs.Regex.Escaping

namespace CaptureAutomata

open scoped Computability

namespace Pattern

/-! ### Groups side by side -/

section Around

variable (body : Pattern)

/-- Nothing leads back to the start of a group. -/
@[simp] lemma Sequence.trips_around : (around body).trips 0 = 0 := rfl

/-- In a branch that is a group what it encloses is read. -/
@[simp] lemma Sequence.walks_around : (around body).walks 0 = body.threaded := by
  simp [around, walks, Quantifier.passes, Atom.threaded, threaded]

/-- A branch that is a group ends with this group. -/
lemma Sequence.mem_sites_around (n g source : Nat) :
    ⟨toString (g + 1), source, n, body⟩ ∈ (around body).sites n g source := by
  have hatom : ⟨toString (g + 1), source, n, body⟩ ∈
      (Atom.group .anonymous body).sites n g source :=
    List.mem_append_right _ (List.mem_singleton.2 rfl)
  exact List.mem_append_right _ hatom

/-- The transitions of a branch that is a group lead to its own states. -/
lemma Sequence.le_target_around {n source : Nat} {e : Edge Nat (Option Char)}
    (he : e ∈ (around body).edges n source) : n ≤ e.target := by
  have hedges : (around body).edges n source = (Atom.group .anonymous body).edges n source :=
    List.append_nil _
  rw [hedges] at he
  exact (Atom.target_range _ he).1

end Around

namespace Encloses

variable {p : Pattern} {bodies : List Pattern} {m : PatternNfa}

/-- Nothing leads back to where the groups start. -/
lemma trips_eq_zero (h : p.Encloses bodies) : p.trips = 0 := by
  induction h with
  | single body => exact Sequence.trips_around body
  | alternative h body ih => rw [trips, ih, Sequence.trips_around, add_zero]

/-- The words of the groups are read on the way to the end of a branch. -/
lemma mem_walks_iff (h : p.Encloses bodies) {w : List Char} :
    w ∈ p.walks ↔ ∃ body ∈ bodies, w ∈ body.threaded := by
  induction h with
  | single body =>
      rw [walks, Sequence.walks_around]
      simp
  | @alternative p bodies h body ih =>
      rw [walks, Sequence.walks_around, Language.mem_add, ih]
      simp [or_and_right, exists_or]

/-- The words of the groups are read. -/
lemma mem_threaded_iff (h : p.Encloses bodies) {w : List Char} :
    w ∈ p.threaded ↔ ∃ body ∈ bodies, w ∈ body.threaded := by
  rw [threaded, h.trips_eq_zero, kstar_zero, one_mul, h.mem_walks_iff]

/-- Each group has its place, under the number that tells the groups before it. -/
lemma exists_site (h : p.Encloses bodies) (n g source : Nat) {before after : List Pattern}
    {body : Pattern} (hsplit : bodies = before ++ body :: after) :
    ∃ entry, ⟨toString (g + 1 + groupsAround before), source, entry, body⟩ ∈
      p.sites n g source := by
  induction h generalizing before body after with
  | single body' =>
      obtain ⟨rfl, rfl, rfl⟩ : before = [] ∧ body' = body ∧ after = [] := by
        simpa [List.append_eq_singleton_iff, eq_comm] using hsplit
      exact ⟨n, Sequence.mem_sites_around _ n g source⟩
  | @alternative p bodies h body' ih =>
      rw [sites]
      rcases List.eq_nil_or_concat' after with rfl | ⟨after, y, rfl⟩
      · -- the group is the last one
        obtain ⟨rfl, rfl⟩ : bodies = before ∧ body' = body := by simpa using hsplit
        have hnumber : g + 1 + groupsAround bodies = g + p.groups + 1 := by
          rw [h.groups_eq]
          omega
        rw [hnumber]
        exact ⟨_, List.mem_append_right _ (Sequence.mem_sites_around body' _ _ source)⟩
      · rw [← List.cons_append, ← List.append_assoc] at hsplit
        obtain ⟨rfl, -⟩ := List.append_inj' hsplit rfl
        obtain ⟨entry, hentry⟩ := ih rfl
        exact ⟨entry, List.mem_append_left _ hentry⟩

/-- In the automaton of the pattern, the tag of each group starts in the state that all groups start
in. -/
lemma exists_tag (h : p.Encloses bodies) (hm : m.IsLaidOutAs p) {before after : List Pattern}
    {body : Pattern} (hsplit : bodies = before ++ body :: after) :
    ∃ t ∈ m.tags, t.name = toString (1 + groupsAround before) ∧ t.start = 1 := by
  obtain ⟨entry, hentry⟩ := h.exists_site 2 0 1 hsplit
  rw [Nat.zero_add] at hentry
  refine ⟨Site.tag ⟨_, 1, entry, body⟩, ?_, rfl, rfl⟩
  rw [hm.tags_eq, tags_eq_map]
  exact List.mem_append_left _ (List.mem_map_of_mem hentry)

/-- The transitions of the branches lead to states that they take up. -/
lemma le_target_of_branch (h : p.Encloses bodies) {n source : Nat} {e : Edge Nat (Option Char)}
    (he : e ∈ p.branchEdges n source) : n ≤ e.target := by
  induction h generalizing n with
  | single body => exact Sequence.le_target_around body he
  | alternative h body ih =>
      rcases List.mem_append.1 he with he | he
      · exact ih he
      · have hle := Sequence.le_target_around body he
        omega

/-- The transitions of the pattern lead to states that it takes up. -/
lemma le_target (h : p.Encloses bodies) {n source : Nat} {e : Edge Nat (Option Char)}
    (he : e ∈ p.edges n source) : n ≤ e.target := by
  rcases List.mem_append.1 he with he | he
  · exact h.le_target_of_branch he
  · have hjoin := target_of_mem_joinEdges he
    omega

/-- In the automaton of the pattern, the groups can start only where nothing has been read. -/
lemma reaches_entry_iff (h : p.Encloses bodies) (hm : m.IsLaidOutAs p) {w : List Char} :
    m.Reaches w 1 ↔ w = [] := by
  have hentry : (1 : Nat) ∈ m.graph.targets 0 none := (hm.mem_targets 0 none 1).2 (.head _)
  constructor
  · intro hr
    -- only the transition from the initial state leads to the first two states
    have hL : ∀ s l t, t ∈ m.graph.targets s l →
        (if s < 2 then (1 : Language Char) else ⊤) * Assembly.symbol l ≤
          if t < 2 then 1 else ⊤ := by
      intro s l t ht
      rcases List.mem_cons.1 ((hm.mem_targets s l t).1 ht) with heq | he
      · cases heq
        exact (mul_one _).le
      · have hle : 2 ≤ t := h.le_target he
        rw [if_neg (show ¬ t < 2 by omega)]
        exact le_top
    rw [Nfa.Reaches, hm.initial_eq] at hr
    exact Assembly.append_mem_of_run hL hr Language.nil_mem_one
  · rintro rfl
    rw [Nfa.Reaches, hm.initial_eq]
    exact .silent hentry (.nil 1)

/-- The groups tell the pattern. -/
lemma unique (h : p.Encloses bodies) {q : Pattern} (hq : q.Encloses bodies) : q = p := by
  induction h generalizing q with
  | single body =>
      generalize hl : [body] = l at hq
      cases hq with
      | single => rw [List.singleton_inj.1 hl]
      | alternative hq => exact absurd (by simpa using congrArg List.length hl) hq.ne_nil
  | @alternative p bodies h body ih =>
      generalize hl : bodies ++ [body] = l at hq
      cases hq with
      | single => exact absurd (by simpa using congrArg List.length hl) h.ne_nil
      | alternative hq =>
          obtain ⟨rfl, hbody⟩ := List.append_inj' hl rfl
          rw [ih hq, List.singleton_inj.1 hbody]

/-- The last group is a branch of its own if it is not the only one. -/
lemma exists_alternative {body : Pattern} (h : p.Encloses (bodies ++ [body])) (hne : bodies ≠ []) :
    ∃ q : Pattern, q.Encloses bodies ∧ p = .alternative q (.around body) := by
  generalize hl : bodies ++ [body] = l at h
  cases h with
  | single => exact absurd (by simpa using congrArg List.length hl) hne
  | alternative h =>
      obtain ⟨rfl, hbody⟩ := List.append_inj' hl rfl
      exact ⟨_, h, by rw [List.singleton_inj.1 hbody]⟩

/-- The first groups are the branches of a pattern whose transitions are among those of all groups. -/
lemma exists_front {more : List Pattern} (h : p.Encloses (bodies ++ more)) (hne : bodies ≠ []) :
    ∃ q : Pattern, q.Encloses bodies ∧
      ∀ n source, ∀ e ∈ q.branchEdges n source, e ∈ p.branchEdges n source := by
  induction more using List.reverseRecOn generalizing p with
  | nil => exact ⟨p, by rwa [List.append_nil] at h, fun _ _ _ he => he⟩
  | append_singleton more body ih =>
      rw [← List.append_assoc] at h
      obtain ⟨p, hp, rfl⟩ := h.exists_alternative (by simp [hne])
      obtain ⟨q, hq, hmem⟩ := ih hp
      exact ⟨q, hq, fun n source e he => List.mem_append_left _ (hmem n source e he)⟩

end Encloses

/-! ### Texts -/

namespace Sequence

variable {s : Sequence} {n : Nat}

/-- A character takes up one state, in which the branch then ends. -/
lemma states_append_ofChar (s : Sequence) (c : Char) :
    (s.append (.literal (.ofChar c)) .once).states = s.states + 1 := by
  rw [states, Atom.states, Literal.meaning_ofChar]
  rfl

/-- Characters take up one state each. -/
lemma states_appendChars (s : Sequence) (cs : List Char) :
    (s.appendChars cs).states = s.states + cs.length := by
  induction cs generalizing s with
  | nil => rfl
  | cons c cs ih =>
      rw [appendChars, ih, states_append_ofChar, List.length_cons]
      omega

/-- Behind a branch that ends in its last state, characters end in their last one. -/
lemma stop_appendChars (hs : s.stop (n + 1) n = n + s.states) (cs : List Char) :
    (s.appendChars cs).stop (n + 1) n = n + (s.appendChars cs).states := by
  induction cs generalizing s with
  | nil => exact hs
  | cons c cs ih =>
      refine ih ?_
      rw [states_append_ofChar]
      show n + 1 + s.states = _
      omega

/-- Characters lead from one state to the next. -/
lemma mem_edges_appendChars (hs : s.stop (n + 1) n = n + s.states) {cs : List Char}
    {e : Edge Nat (Option Char)} (he : e ∈ (s.appendChars cs).edges (n + 1) n) :
    e ∈ s.edges (n + 1) n ∨ ∃ j c, cs[j]? = some c ∧
      e = ⟨n + s.states + j, some c, n + s.states + j + 1⟩ := by
  induction cs generalizing s with
  | nil => exact Or.inl he
  | cons c cs ih =>
      have hstop : (s.append (.literal (.ofChar c)) .once).stop (n + 1) n =
          n + (s.append (.literal (.ofChar c)) .once).states :=
        stop_appendChars hs [c]
      rcases ih hstop he with he | ⟨j, d, hd, rfl⟩
      · rw [edges, Atom.edges, Literal.meaning_ofChar, hs] at he
        simp only [Meaning.edges, fan, Quantifier.edges, List.map_cons, List.map_nil, List.append_nil,
          List.mem_append, List.mem_singleton] at he
        refine he.imp_right fun he => ⟨0, c, rfl, ?_⟩
        rw [he, Edge.mk.injEq]
        exact ⟨rfl, rfl, by omega⟩
      · refine Or.inr ⟨j + 1, d, hd, ?_⟩
        rw [states_append_ofChar, Edge.mk.injEq]
        exact ⟨by omega, rfl, by omega⟩

/-- The transitions of a group around a text lead into it, from one of its characters to the next, and
out of it. -/
lemma mem_edges_around_ofChars {cs : List Char} {source : Nat} {e : Edge Nat (Option Char)}
    (he : e ∈ (around (ofChars cs)).edges n source) :
    e = ⟨source, none, n⟩ ∨ (∃ j c, cs[j]? = some c ∧ e = ⟨n + j, some c, n + j + 1⟩) ∨
      e = ⟨n + cs.length, none, n + 1 + cs.length⟩ := by
  have hstates : (ofChars cs).states = cs.length :=
    (states_appendChars .empty cs).trans (Nat.zero_add _)
  have hstop : (ofChars cs).stop (n + 1) n = n + cs.length := by
    rw [← hstates]
    exact stop_appendChars (s := .empty) rfl cs
  have hedges : (around (ofChars cs)).edges n source =
      (Atom.group .anonymous (ofChars cs)).edges n source := List.append_nil _
  rw [hedges, Atom.edges, hstop, hstates] at he
  rcases List.mem_append.1 he with he | he
  · rcases List.mem_cons.1 he with he | he
    · exact Or.inl he
    · rcases List.mem_append.1 he with he | he
      · rcases mem_edges_appendChars (s := .empty) rfl he with he | he
        · cases he
        · exact Or.inr (Or.inl he)
      · cases he
  · exact Or.inr (Or.inr (List.mem_singleton.1 he))

end Sequence

/-! ### What can be read -/

section Reads

open Assembly

variable {p p' : Pattern} {bodies : List Pattern} {texts texts' : List (List Char)}
  {m m' : PatternNfa} {B : Language Char} {L : Nat → Language Char}

/-- The transitions to the branches of a pattern and in them lie between the first two states and those
that the branches take up. -/
lemma lt_of_mem_branchEdges (hp : p.WellFormed) {e : Edge Nat (Option Char)}
    (he : e ∈ ⟨0, none, 1⟩ :: p.branchEdges 2 1) :
    e.source < 2 + p.branchStates ∧ e.target < 2 + p.branchStates := by
  rcases List.mem_cons.1 he with rfl | he
  · exact ⟨by show 0 < _; omega, by show 1 < _; omega⟩
  · obtain ⟨a, ha, hcount, -⟩ := exists_assembly 1
    obtain ⟨stops, b, hstops⟩ := exists_makes (p.assembleBranches 1) a
    have hinner : a.Inner 1 := ⟨Nat.one_pos, by omega⟩
    obtain ⟨hadds, -⟩ := p.adds_assemble hp ha hinner hstops
    rw [hcount] at hadds
    have hb := hadds.grows.valid ha
    have hedge := (hadds.hasEdge_iff e.source e.label e.target).2 (Or.inr he)
    have hends := And.intro (hb.source_lt hedge) (hb.edge _ _ _ hedge).2
    rwa [hadds.count_eq, hcount] at hends

/-- Each state has a label with words of `B`. What is read from state 0 on over the transitions from
there to state 1 and in the branches of a pattern is in the label of the state that it leads to. -/
structure Bounds (B : Language Char) (p : Pattern) (L : Nat → Language Char) : Prop where
  /-- At first nothing has been read. -/
  nil_mem : [] ∈ L 0
  /-- Nothing has been read where the branches start. -/
  entry : L 1 = 1
  /-- The words of the labels are in `B`. -/
  le : ∀ s, L s ≤ B
  /-- What is read over a transition leads from label to label. -/
  step : ∀ e ∈ ⟨0, none, 1⟩ :: p.branchEdges 2 1, L e.source * symbol e.label ≤ L e.target

/-- The labels below `n` as they are, and from there on what a text starts with. -/
def labelText (n : Nat) (cs : List Char) (L : Nat → Language Char) (s : Nat) : Language Char :=
  if s < n then L s else {cs.take (s - n)}

lemma labelText_of_lt {n s : Nat} (hs : s < n) (cs : List Char) : labelText n cs L s = L s :=
  if_pos hs

lemma labelText_add (n : Nat) (cs : List Char) (L : Nat → Language Char) (j : Nat) :
    labelText n cs L (n + j) = {cs.take j} := by
  rw [labelText, if_neg (by omega), Nat.add_sub_cancel_left]

/-- With one more branch, a group around a text, the states of this group are labelled with what the text
starts with. -/
lemma Bounds.alternative (h : Bounds B p L) (hp : p.WellFormed) {cs : List Char}
    (hcs : ∀ k, cs.take k ∈ B) :
    Bounds B (.alternative p (.around (.ofChars cs))) (labelText (2 + p.branchStates) cs L) := by
  have hentry : labelText (2 + p.branchStates) cs L 1 = 1 := by
    rw [labelText_of_lt (by omega), h.entry]
  refine ⟨?_, hentry, fun s => ?_, fun e he => ?_⟩
  · rw [labelText_of_lt (by omega)]
    exact h.nil_mem
  · rw [labelText]
    split
    · exact h.le s
    · exact fun w hw => Set.mem_singleton_iff.1 hw ▸ hcs _
  · rw [branchEdges, ← List.cons_append, List.mem_append] at he
    rcases he with hold | he
    · obtain ⟨hsource, htarget⟩ := lt_of_mem_branchEdges hp hold
      rw [labelText_of_lt hsource, labelText_of_lt htarget]
      exact h.step e hold
    · generalize 2 + p.branchStates = n at hentry he
      rcases Sequence.mem_edges_around_ofChars he with rfl | ⟨j, c, hc, rfl⟩ | rfl
      · show labelText n cs L 1 * 1 ≤ labelText n cs L (n + 0)
        rw [hentry, labelText_add, mul_one]
        exact le_rfl
      · show labelText n cs L (n + j) * {[c]} ≤ labelText n cs L (n + (j + 1))
        rw [labelText_add, labelText_add, List.take_add_one, hc]
        exact (language_singleton_mul _ _).le
      · show labelText n cs L (n + cs.length) * 1 ≤ labelText n cs L (n + 1 + cs.length)
        rw [Nat.add_right_comm, Nat.add_assoc, labelText_add, labelText_add, mul_one,
          List.take_of_length_le le_rfl, List.take_of_length_le (Nat.le_succ _)]

/-- What can be read in the automaton of a labelled pattern is in `B`. -/
lemma Bounds.mem_of_reaches (h : Bounds B p L) (hp : p.WellFormed) (hm : m.IsLaidOutAs p)
    {w : List Char} {s : Nat} (hr : m.Reaches w s) : w ∈ B := by
  -- only the state in which the branches are led together comes behind them
  have hstep : ∀ s l t, t ∈ m.graph.targets s l →
      (if s < 2 + p.branchStates then L s else B) * symbol l ≤
        if t < 2 + p.branchStates then L t else B := by
    intro s l t ht
    have he := (hm.mem_targets s l t).1 ht
    rw [edges, ← List.cons_append, List.mem_append] at he
    rcases he with he | he
    · obtain ⟨hs, ht⟩ := lt_of_mem_branchEdges hp he
      rw [if_pos hs, if_pos ht]
      exact h.step _ he
    · have hjoin : t = 2 + p.branchStates := (target_of_mem_joinEdges he).1
      obtain rfl : l = none := by
        cases p with
        | single branch => cases he
        | alternative branches branch =>
            obtain ⟨x, -, heq⟩ := List.mem_map.1 he
            cases heq
            rfl
      rw [if_neg (by omega : ¬ t < 2 + p.branchStates)]
      show _ * 1 ≤ _
      rw [mul_one]
      split
      · exact h.le s
      · exact le_rfl
  rw [Nfa.Reaches, hm.initial_eq] at hr
  have hmem : [] ++ w ∈ if s < 2 + p.branchStates then L s else B :=
    append_mem_of_run hstep hr (by rw [if_pos (by omega)]; exact h.nil_mem)
  rw [List.nil_append] at hmem
  split at hmem
  · exact h.le s hmem
  · exact hmem

/-- Behind patterns that are labelled, texts can be labelled if what they start with is in `B`. -/
lemma Encloses.exists_bounds (h : p.Encloses (bodies ++ texts.map ofChars)) {q : Pattern}
    (hq : q.Encloses bodies) (hb : ∀ body ∈ bodies, body.WellFormed) (hL : Bounds B q L)
    (htexts : ∀ cs ∈ texts, ∀ k, cs.take k ∈ B) : ∃ L, Bounds B p L := by
  induction texts using List.reverseRecOn generalizing p with
  | nil =>
      rw [List.map_nil, List.append_nil] at h
      exact ⟨L, hq.unique h ▸ hL⟩
  | append_singleton texts cs ih =>
      rw [List.map_append, List.map_singleton, ← List.append_assoc] at h
      obtain ⟨p, hp, rfl⟩ := h.exists_alternative (by simp [hq.ne_nil])
      obtain ⟨L', hL'⟩ := ih hp fun cs hcs => htexts cs (List.mem_append_left _ hcs)
      have hwf : p.WellFormed := hp.wellFormed fun body hbody => by
        rcases List.mem_append.1 hbody with hbody | hbody
        · exact hb body hbody
        · obtain ⟨cs, -, rfl⟩ := List.mem_map.1 hbody
          exact wellFormed_ofChars cs
      exact ⟨_, hL'.alternative hwf (htexts cs (List.mem_append_right _ (.head _)))⟩

/-- If two patterns enclose the same patterns and then some texts each, and the automaton of the second one
can read the texts of the first one, then it can read all that the automaton of the first one can. -/
theorem Encloses.exists_reaches (h : p.Encloses (bodies ++ texts.map ofChars))
    (h' : p'.Encloses (bodies ++ texts'.map ofChars)) (hne : bodies ≠ [])
    (hb : ∀ body ∈ bodies, body.WellFormed) (hm : m.IsLaidOutAs p) (hm' : m'.IsLaidOutAs p')
    (htexts : ∀ cs ∈ texts, ∃ s, m'.Reaches cs s) {w : List Char} {s : Nat} (hr : m.Reaches w s) :
    ∃ t, m'.Reaches w t := by
  have hprefix : ∀ u v : List Char, (∃ s, m'.Reaches (u ++ v) s) → ∃ s, m'.Reaches u s := by
    rintro u v ⟨s, hs⟩
    obtain ⟨t, ht, -⟩ := Nfa.Run.append_iff.1 hs
    exact ⟨t, ht⟩
  have hwf : ∀ {p : Pattern} {texts : List (List Char)},
      p.Encloses (bodies ++ texts.map ofChars) → p.WellFormed := fun h =>
    h.wellFormed fun body hbody => (List.mem_append.1 hbody).elim (hb body) fun hbody => by
      obtain ⟨cs, -, rfl⟩ := List.mem_map.1 hbody
      exact wellFormed_ofChars cs
  obtain ⟨q, hq, hmem⟩ := h'.exists_front hne
  -- what the patterns have in common is labelled with what the second automaton reads
  have hL : Bounds {w | ∃ s, m'.Reaches w s} q m'.wordsTo := by
    refine ⟨?_, ?_, fun s w hw => ⟨s, hw⟩, fun e he => ?_⟩
    · show m'.Reaches [] 0
      rw [Nfa.Reaches, hm'.initial_eq]
      exact .nil 0
    · ext w
      exact (h'.reaches_entry_iff hm').trans (Language.mem_one w).symm
    · refine Nfa.wordsTo_mul_symbol_le ((hm'.mem_targets _ _ _).2 ?_)
      rcases List.mem_cons.1 he with rfl | he
      · exact .head _
      · exact .tail _ (List.mem_append_left _ (hmem 2 1 e he))
  obtain ⟨L, hL⟩ := h.exists_bounds hq hb hL fun cs hcs k =>
    hprefix _ (cs.drop k) (by rw [List.take_append_drop]; exact htexts cs hcs)
  exact hL.mem_of_reaches (hwf h) hm hr

end Reads

end Pattern

end CaptureAutomata
