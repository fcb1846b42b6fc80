/-
The subset construction is exact:

* `Dfa.after?`: the state that a deterministic automaton is in after reading a word;
* `foldl_addRow`: what the rows of the table add to the automaton under construction;
* `exists_build_rows`: the automaton of the table can be built, and has its sets as states, its moves
  as transitions and the tags of the members of a set as tags (`IsTableOf`);
* `IsTableOf.after?_spec`: one more symbol leads from the states after a word to the states after the
  longer word, so that the automaton is in the set of them after every word that can be read;
* `toDfa_exact`: the deterministic automaton is there, it reads exactly the words that the given one
  can read, and it is then in the set of the states that the given one can be in. Its tags are those
  of the members, and it has no other states.
-/
import CaptureAutomata.Proofs.Dfa.Build
import CaptureAutomata.Proofs.Nfa.Table

namespace CaptureAutomata

/-! ### Reading words -/

namespace Dfa

variable {D A T : Type} [Key D] [Key A] [Key T]

/-- The state reached from `d` by reading a word, unless a transition is dead. -/
def after? (m : Dfa D A T) (d : D) : List A → Option D
  | [] => some d
  | a :: w => m.next? d a >>= fun d' => m.after? d' w

/-- Reading goes on where it stopped. -/
lemma after?_append (m : Dfa D A T) (d : D) (w x : List A) :
    m.after? d (w ++ x) = m.after? d w >>= fun d' => m.after? d' x := by
  induction w generalizing d with
  | nil => rfl
  | cons a w ih =>
      simp only [List.cons_append, after?]
      cases m.next? d a with
      | none => rfl
      | some d' => exact ih d'

/-- The last symbol is read in the state after those before it. -/
lemma after?_append_singleton (m : Dfa D A T) (d : D) (w : List A) (a : A) :
    m.after? d (w ++ [a]) = m.after? d w >>= fun d' => m.next? d' a := by
  rw [after?_append]
  cases m.after? d w with
  | none => rfl
  | some d' =>
      show m.next? d' a >>= _ = m.next? d' a
      cases m.next? d' a <;> rfl

end Dfa

namespace Nfa

variable {S A T : Type} [Key S] [Key A] [Key T]

/-! ### Adding rows -/

/-- The transitions of a row. -/
def Row.edges (row : Row S A) : List (Edge (KeySet S) A) :=
  row.moves.map fun p => ⟨row.states, p.1, p.2⟩

/-- Marks a key with a name. -/
def mark {Q : Type} [Key Q] (q : Q) (marks : KeyMap Q (KeySet T)) (name : T) :
    KeyMap Q (KeySet T) :=
  marks.insert q ((marks.getD q ∅).insert name)

/-- Marks a set with the name of a tag if it holds the tag's start, or stop. -/
def markTag (state : Tag T S → S) (q : KeySet S) (marks : KeyMap (KeySet S) (KeySet T))
    (t : Tag T S) : KeyMap (KeySet S) (KeySet T) :=
  if state t ∈ q then mark q marks t.name else marks

/-- What the rows of a table add: their transitions, and the marks for starts and stops. -/
lemma foldl_addRow (tags : List (Tag T S)) (rows : List (Row S A))
    (b : Dfa.Builder (KeySet S) A T) :
    rows.foldl (addRow tags) b =
      { initial := b.initial
        graph := (rows.flatMap Row.edges).foldl
          (fun g e => g.path e.source e.label e.target) b.graph
        starting := rows.foldl (fun marks row => tags.foldl (markTag Tag.start row.states) marks)
          b.starting
        ending := rows.foldl (fun marks row => tags.foldl (markTag Tag.stop row.states) marks)
          b.ending } := by
  -- one tag
  have htag : ∀ (q : KeySet S) (t : Tag T S) (b : Dfa.Builder (KeySet S) A T),
      (let b := if t.start ∈ q then b.tagStart q t.name else b
        if t.stop ∈ q then b.tagEnd q t.name else b) =
      { b with
        starting := markTag Tag.start q b.starting t
        ending := markTag Tag.stop q b.ending t } := by
    intro q t b
    simp only [markTag]
    by_cases hs : t.start ∈ q <;> by_cases he : t.stop ∈ q <;>
      simp [hs, he, mark, Dfa.Builder.tagStart, Dfa.Builder.tagEnd]
  -- all tags of a set
  have htags : ∀ (q : KeySet S) (ts : List (Tag T S)) (b : Dfa.Builder (KeySet S) A T),
      ts.foldl (fun b t =>
        let b := if t.start ∈ q then b.tagStart q t.name else b
        if t.stop ∈ q then b.tagEnd q t.name else b) b =
      { b with
        starting := ts.foldl (markTag Tag.start q) b.starting
        ending := ts.foldl (markTag Tag.stop q) b.ending } := by
    intro q ts
    induction ts with
    | nil => exact fun _ => rfl
    | cons t ts ih =>
        intro b
        rw [List.foldl_cons, htag, ih]
        rfl
  -- the transitions of a set
  have hmoves : ∀ (q : KeySet S) (l : List (A × KeySet S)) (b : Dfa.Builder (KeySet S) A T),
      l.foldl (fun b p => b.transition q p.1 p.2) b =
      { b with
        graph := (l.map fun p => (⟨q, p.1, p.2⟩ : Edge (KeySet S) A)).foldl
          (fun g e => g.path e.source e.label e.target) b.graph } := by
    intro q l
    induction l with
    | nil => exact fun _ => rfl
    | cons p l ih =>
        intro b
        rw [List.foldl_cons, ih]
        rfl
  induction rows generalizing b with
  | nil => rfl
  | cons row rows ih =>
      rw [List.foldl_cons, ih, addRow]
      simp only [hmoves, htags, List.flatMap_cons, List.foldl_append, List.foldl_cons]
      rfl

/-- A set is marked with the names of the tags whose start, or stop, it holds. -/
lemma mem_getD_foldl_markTag {state : Tag T S → S} {q d : KeySet S} {tags : List (Tag T S)}
    {marks : KeyMap (KeySet S) (KeySet T)} {name : T} :
    name ∈ (tags.foldl (markTag state q) marks).getD d ∅ ↔
      name ∈ marks.getD d ∅ ∨ q = d ∧ ∃ t ∈ tags, t.name = name ∧ state t ∈ q := by
  induction tags generalizing marks with
  | nil => simp
  | cons t tags ih =>
      have hstep : name ∈ (markTag state q marks t).getD d ∅ ↔
          name ∈ marks.getD d ∅ ∨ q = d ∧ t.name = name ∧ state t ∈ q := by
        rw [markTag]
        by_cases ht : state t ∈ q
        · rw [if_pos ht, mark, Std.ExtTreeMap.getD_insert]
          by_cases hq : q = d
          · subst hq
            simp [ht, or_comm]
          · simp [hq]
        · simp [ht]
      rw [List.foldl_cons, ih, hstep]
      simp only [List.mem_cons, exists_eq_or_imp]
      tauto

/-- Only sets that hold the start, or stop, of a tag are marked. -/
lemma mem_foldl_markTag {state : Tag T S → S} {q d : KeySet S} {tags : List (Tag T S)}
    {marks : KeyMap (KeySet S) (KeySet T)} (h : d ∈ tags.foldl (markTag state q) marks) :
    d ∈ marks ∨ d = q := by
  induction tags generalizing marks with
  | nil => exact Or.inl h
  | cons t tags ih =>
      rcases ih h with h | h
      · rw [markTag] at h
        split at h
        · rw [mark, Std.ExtTreeMap.mem_insert, Key.compare_eq_iff] at h
          exact h.symm.imp_right Eq.symm
        · exact Or.inl h
      · exact Or.inr h

/-! ### The automaton of a table -/

/-- The deterministic automaton whose transitions and tags are those of a table. -/
structure IsTableOf (m : Nfa S A T) (initial : KeySet S) (rows : List (Row S A))
    (d : Dfa (KeySet S) A T) : Prop where
  /-- It starts in the initial set. -/
  initial_eq : d.initial = initial
  /-- Its states are the sets of the table. -/
  mem_states : ∀ q, q ∈ d.states ↔ ∃ row ∈ rows, row.states = q
  /-- Its transitions are the moves of the table. -/
  next?_iff : ∀ q a q', d.next? q a = some q' ↔ ∃ row ∈ rows, row.states = q ∧ (a, q') ∈ row.moves
  /-- Tags start in the sets that hold their start. -/
  mem_tagsStarting : ∀ q ∈ d.states, ∀ name,
    name ∈ d.tagsStarting q ↔ ∃ t ∈ m.tags, t.name = name ∧ t.start ∈ q
  /-- Tags end in the sets that hold their stop. -/
  mem_tagsEnding : ∀ q ∈ d.states, ∀ name,
    name ∈ d.tagsEnding q ↔ ∃ t ∈ m.tags, t.name = name ∧ t.stop ∈ q

omit [Key A] in
/-- The marks of all rows of a table. -/
lemma mem_getD_foldl_marks {state : Tag T S → S} {d : KeySet S} {tags : List (Tag T S)}
    {rows : List (Row S A)} {marks : KeyMap (KeySet S) (KeySet T)} {name : T} :
    name ∈ (rows.foldl (fun marks row => tags.foldl (markTag state row.states) marks) marks).getD
        d ∅ ↔
      name ∈ marks.getD d ∅ ∨
        (∃ row ∈ rows, row.states = d) ∧ ∃ t ∈ tags, t.name = name ∧ state t ∈ d := by
  induction rows generalizing marks with
  | nil => simp
  | cons row rows ih =>
      rw [List.foldl_cons, ih, mem_getD_foldl_markTag]
      simp only [List.mem_cons, exists_eq_or_imp]
      by_cases hd : row.states = d
      · subst hd
        simp only [true_and, true_or]
        constructor
        · rintro ((h | h) | ⟨-, h⟩)
          · exact Or.inl h
          · exact Or.inr h
          · exact Or.inr h
        · exact fun h => Or.inl h
      · simp only [hd, false_and, false_or, or_false]

omit [Key A] in
/-- Only sets of the table are marked. -/
lemma mem_foldl_marks {state : Tag T S → S} {d : KeySet S} {tags : List (Tag T S)}
    {rows : List (Row S A)} {marks : KeyMap (KeySet S) (KeySet T)}
    (h : d ∈ rows.foldl (fun marks row => tags.foldl (markTag state row.states) marks) marks) :
    d ∈ marks ∨ ∃ row ∈ rows, row.states = d := by
  induction rows generalizing marks with
  | nil => exact Or.inl h
  | cons row rows ih =>
      rcases ih h with h | ⟨row', hrow', hd⟩
      · exact (mem_foldl_markTag h).imp_right fun hd => ⟨row, .head _, hd.symm⟩
      · exact Or.inr ⟨row', .tail _ hrow', hd⟩

omit [Key A] [Key T] in
/-- The edges of a table are the moves of its rows. -/
lemma mem_flatMap_edges {rows : List (Row S A)} {e : Edge (KeySet S) A} :
    e ∈ rows.flatMap Row.edges ↔
      ∃ row ∈ rows, row.states = e.source ∧ (e.label, e.target) ∈ row.moves := by
  simp only [List.mem_flatMap, Row.edges, List.mem_map]
  constructor
  · rintro ⟨row, hrow, p, hp, rfl⟩
    exact ⟨row, hrow, rfl, hp⟩
  · rintro ⟨row, hrow, hs, hp⟩
    exact ⟨row, hrow, (e.label, e.target), hp, by rw [hs]⟩

/-- The graph of a table under construction. -/
def tableGraph (initial : KeySet S) (rows : List (Row S A)) :
    DeterministicGraph.Builder (KeySet S) A :=
  (rows.flatMap Row.edges).foldl (fun g e => g.path e.source e.label e.target)
    (({} : DeterministicGraph.Builder (KeySet S) A).vertex initial)

section Table

variable {m : Nfa S A T} {initial : KeySet S} {hmem : initial ∈ m.stateSets}
  {rows : List (Row S A)}

omit [Key T] in
/-- Rows with the same set have the same moves, and a symbol has one of them. -/
lemma edges_agree (h : m.rows initial hmem = .ok rows) :
    ∀ e ∈ rows.flatMap Row.edges, ∀ f ∈ rows.flatMap Row.edges,
      e.source = f.source → e.label = f.label → e.target = f.target := by
  intro e he f hf hsource hlabel
  obtain ⟨row, hrow, hs, hp⟩ := mem_flatMap_edges.1 he
  obtain ⟨row', hrow', hs', hp'⟩ := mem_flatMap_edges.1 hf
  have hmoves := moves_of_mem_rows h hrow
  have hmoves' := moves_of_mem_rows h hrow'
  rw [hs', ← hsource, ← hs, hmoves] at hmoves'
  rw [← Except.ok.inj hmoves', ← hlabel] at hp'
  exact moves_unique hmoves hp hp'

omit [Key T] in
/-- The targets in the graph of a table are those of its moves. -/
lemma target?_tableGraph (h : m.rows initial hmem = .ok rows) {q q' : KeySet S} {a : A} :
    (tableGraph initial rows).target? q a = some q' ↔
      ∃ row ∈ rows, row.states = q ∧ (a, q') ∈ row.moves := by
  have hempty : ∀ (q : KeySet S) (a : A),
      (({} : DeterministicGraph.Builder (KeySet S) A).vertex initial).target? q a = none := by
    intro q a
    rw [DeterministicGraph.Builder.target?_vertex]
    simp [DeterministicGraph.Builder.target?]
  rw [tableGraph, DeterministicGraph.Builder.target?_foldl_path (edges_agree h)
    fun e _ u hu => by rw [hempty] at hu; cases hu]
  simp only [hempty, reduceCtorEq, false_or]
  exact mem_flatMap_edges

omit [Key T] in
/-- The vertices in the graph of a table are its sets. -/
lemma mem_tableGraph (h : m.rows initial hmem = .ok rows) {q : KeySet S} :
    q ∈ (tableGraph initial rows).adjacency ↔ ∃ row ∈ rows, row.states = q := by
  have hbase : q ∈ (({} : DeterministicGraph.Builder (KeySet S) A).vertex initial).adjacency ↔
      q = initial := by
    rw [DeterministicGraph.Builder.vertex, Std.ExtTreeMap.mem_insertIfNew, Key.compare_eq_iff]
    simp [eq_comm]
  rw [tableGraph, DeterministicGraph.Builder.mem_foldl_path, hbase]
  constructor
  · rintro (rfl | ⟨e, he, rfl | rfl⟩)
    · exact exists_row_initial h
    · obtain ⟨row, hrow, hs, -⟩ := mem_flatMap_edges.1 he
      exact ⟨row, hrow, hs⟩
    · obtain ⟨row, hrow, -, hp⟩ := mem_flatMap_edges.1 he
      exact exists_row_of_mem_moves h hrow hp
  · rintro ⟨row, hrow, rfl⟩
    rcases eq_initial_or_target h hrow with hi | ⟨row', hrow', p, hp, hq⟩
    · exact Or.inl hi
    · exact Or.inr ⟨⟨row'.states, p.1, p.2⟩, mem_flatMap_edges.2 ⟨row', hrow', rfl, hp⟩,
        Or.inr hq.symm⟩

/-- The automaton of a table can be built. -/
lemma exists_build_rows (h : m.rows initial hmem = .ok rows) :
    ∃ d, (rows.foldl (addRow m.tags) (.ofInitial initial)).build = .ok d ∧
      m.IsTableOf initial rows d := by
  have hmarked : ∀ {state : Tag T S → S} {q : KeySet S},
      q ∈ rows.foldl (fun marks row => m.tags.foldl (markTag state row.states) marks) ∅ →
      q ∈ (tableGraph initial rows).adjacency :=
    fun hq => (mem_tableGraph h).2 ((mem_foldl_marks hq).resolve_left (by simp))
  obtain ⟨d, hd, hinitial, hadj, hstarting, hending⟩ :=
    Dfa.Builder.exists_build (b := rows.foldl (addRow m.tags) (.ofInitial initial))
      (fun q a q' hq' => by
        rw [foldl_addRow] at hq' ⊢
        obtain ⟨row, hrow, -, hp⟩ := (target?_tableGraph h).1 hq'
        exact (mem_tableGraph h).2 (exists_row_of_mem_moves h hrow hp))
      (by
        rw [foldl_addRow]
        exact (mem_tableGraph h).2 (exists_row_initial h))
      (fun q hq => by
        rw [foldl_addRow] at hq ⊢
        exact hmarked hq)
      (fun q hq => by
        rw [foldl_addRow] at hq ⊢
        exact hmarked hq)
  rw [foldl_addRow] at hinitial hadj hstarting hending
  have hstates : ∀ q, q ∈ d.states ↔ ∃ row ∈ rows, row.states = q := fun q => by
    rw [Dfa.states, Std.ExtTreeMap.mem_keys, hadj]
    exact mem_tableGraph h
  refine ⟨d, hd, hinitial, hstates, fun q a q' => ?_, fun q hq name => ?_, fun q hq name => ?_⟩
  · rw [Dfa.next?, DeterministicGraph.target?_eq, hadj]
    exact target?_tableGraph h
  · rw [Dfa.tagsStarting, hstarting, mem_getD_foldl_marks]
    simp [Dfa.Builder.ofInitial, (hstates q).1 hq]
  · rw [Dfa.tagsEnding, hending, mem_getD_foldl_marks]
    simp [Dfa.Builder.ofInitial, (hstates q).1 hq]

/-! ### The automaton after a word -/

variable {d : Dfa (KeySet S) A T}

/-- After a word that can be read the automaton is in the set of the states after the word. -/
lemma IsTableOf.after?_spec (hd : m.IsTableOf initial rows d) (h : m.rows initial hmem = .ok rows)
    (hi : m.epsilonClosure [m.initial] = .ok initial) (w : List A) :
    (∀ q, d.after? d.initial w = some q → (∃ row ∈ rows, row.states = q) ∧ m.StatesAfter w q) ∧
      ∀ s, m.Reaches w s → ∃ q, d.after? d.initial w = some q := by
  -- words grow at their end, as runs do
  induction w using List.reverseRecOn with
  | nil =>
      refine ⟨fun q hq => ?_, fun s _ => ⟨d.initial, rfl⟩⟩
      obtain rfl := Option.some.inj hq
      rw [hd.initial_eq]
      exact ⟨exists_row_initial h, statesAfter_nil hi⟩
  | append_singleton w a ih =>
      obtain ⟨hstates, hreads⟩ := ih
      rw [Dfa.after?_append_singleton]
      constructor
      · intro q' hq'
        obtain ⟨q, hq, hnext⟩ := Option.bind_eq_some_iff.1 hq'
        obtain ⟨row, hrow, rfl, hp⟩ := (hd.next?_iff q a q').1 hnext
        exact ⟨exists_row_of_mem_moves h hrow hp,
          ((hstates _ hq).2.of_mem_moves (moves_of_mem_rows h hrow) hp).2⟩
      · intro s hs
        obtain ⟨r, -, hr, -⟩ := reaches_append_singleton.1 hs
        obtain ⟨q, hq⟩ := hreads r hr
        obtain ⟨⟨row, hrow, rfl⟩, hafter⟩ := hstates q hq
        obtain ⟨q', hp⟩ := hafter.exists_mem_moves (moves_of_mem_rows h hrow) hs
        refine ⟨q', ?_⟩
        rw [hq]
        exact (hd.next?_iff _ a q').2 ⟨row, hrow, rfl, hp⟩

end Table

/-- The deterministic form of an automaton is that of its table. -/
lemma toDfa_eq_ok {m : Nfa S A T} {initial : KeySet S} {hmem : initial ∈ m.stateSets}
    {rows : List (Row S A)} {d : Dfa (KeySet S) A T}
    (hi : m.epsilonClosure [m.initial] = .ok initial) (hrows : m.rows initial hmem = .ok rows)
    (hd : (rows.foldl (addRow m.tags) (.ofInitial initial)).build = .ok d) : m.toDfa = .ok d := by
  rw [toDfa]
  split
  next u hu => exact absurd (hi.symm.trans hu) (by simp)
  next initial' hi' =>
    obtain rfl := Except.ok.inj (hi.symm.trans hi')
    simp [hrows, hd, Except.mapError, bind, Except.bind]

/-- The states of `d` are the sets of states that `m` can be in after reading, and the runs and tags
of `d` are those of the members. -/
structure IsDeterminizedBy (m : Nfa S A T) (d : Dfa (KeySet S) A T) : Prop where
  /-- A word can be read by both or by none. -/
  reads_iff : ∀ w, (∃ q, d.after? d.initial w = some q) ↔ ∃ s, m.Reaches w s
  /-- A word leads to the set of the states after it. -/
  statesAfter : ∀ w q, d.after? d.initial w = some q → m.StatesAfter w q
  /-- A word leads to a state. -/
  mem_states : ∀ w q, d.after? d.initial w = some q → q ∈ d.states
  /-- Each state is reached by a word. -/
  exists_word : ∀ q ∈ d.states, ∃ w, d.after? d.initial w = some q
  /-- Tags start in the sets that hold their start. -/
  mem_tagsStarting : ∀ q ∈ d.states, ∀ name,
    name ∈ d.tagsStarting q ↔ ∃ t ∈ m.tags, t.name = name ∧ t.start ∈ q
  /-- Tags end in the sets that hold their stop. -/
  mem_tagsEnding : ∀ q ∈ d.states, ∀ name,
    name ∈ d.tagsEnding q ↔ ∃ t ∈ m.tags, t.name = name ∧ t.stop ∈ q

/-- No state has a transition on a symbol exactly if no word that ends with it can be read. -/
lemma IsDeterminizedBy.next?_eq_none_iff {m : Nfa S A T} {d : Dfa (KeySet S) A T}
    (h : m.IsDeterminizedBy d) {a : A} :
    (∀ q ∈ d.states, d.next? q a = none) ↔ ∀ w s, ¬ m.Reaches (w ++ [a]) s := by
  constructor
  · intro hdead w s hs
    obtain ⟨q, hq⟩ := (h.reads_iff _).2 ⟨s, hs⟩
    rw [Dfa.after?_append_singleton] at hq
    obtain ⟨q', hq', hnext⟩ := Option.bind_eq_some_iff.1 hq
    rw [hdead q' (h.mem_states w q' hq')] at hnext
    cases hnext
  · intro hdead q hq
    obtain ⟨w, hw⟩ := h.exists_word q hq
    by_contra hnext
    obtain ⟨q', hq'⟩ := Option.ne_none_iff_exists'.1 hnext
    obtain ⟨s, hs⟩ := (h.reads_iff (w ++ [a])).1
      ⟨q', by rw [Dfa.after?_append_singleton, hw]; exact hq'⟩
    exact hdead w s hs

/-- Every automaton has a deterministic form. -/
lemma exists_toDfa (m : Nfa S A T) : ∃ d, m.toDfa = .ok d ∧ m.IsDeterminizedBy d := by
  have hinitial : m.initial ∈ m.states :=
    Std.ExtTreeMap.mem_keys.2 (Std.ExtTreeMap.contains_iff_mem.1 m.initial_mem)
  obtain ⟨initial, hi⟩ : ∃ initial, m.epsilonClosure [m.initial] = .ok initial :=
    exists_epsilonClosure fun s hs => by rwa [List.mem_singleton.1 hs]
  obtain ⟨rows, hrows, hreached⟩ : ∃ rows,
      m.rows initial (mem_stateSets_of_epsilonClosure hi) = .ok rows ∧
        ∀ row ∈ rows, m.IsReached row.states := exists_rows hi
  obtain ⟨d, hd, htable⟩ := exists_build_rows hrows
  have hspec := htable.after?_spec hrows hi
  have hreads : ∀ w, (∃ q, d.after? d.initial w = some q) ↔ ∃ s, m.Reaches w s := by
    refine fun w => ⟨fun ⟨q, hq⟩ => ?_, fun ⟨s, hs⟩ => (hspec w).2 s hs⟩
    obtain ⟨⟨row, hrow, rfl⟩, hafter⟩ := (hspec w).1 q hq
    obtain ⟨x, ⟨s, hs⟩, hx⟩ := hreached row hrow
    exact ⟨s, (hafter s).1 ((hx s).2 hs)⟩
  refine ⟨d, toDfa_eq_ok hi hrows hd, hreads, fun w q hq => ((hspec w).1 q hq).2,
    fun w q hq => (htable.mem_states q).2 ((hspec w).1 q hq).1, fun q hq => ?_,
    htable.mem_tagsStarting, htable.mem_tagsEnding⟩
  obtain ⟨row, hrow, rfl⟩ := (htable.mem_states q).1 hq
  obtain ⟨w, hw, hafter⟩ := hreached row hrow
  obtain ⟨q, hq⟩ := (hreads w).2 hw
  exact ⟨w, by rw [hq, ((hspec w).1 q hq).2.unique hafter]⟩

/-- The subset construction is exact: it succeeds, the deterministic automaton reads exactly the
words that the given one can read, and is then in the state that holds the states reached by the
word. The tags of that state are those of its members, and no state is left out of reach. -/
theorem toDfa_exact (m : Nfa S A T) :
    ∃ d, m.toDfa = .ok d ∧
      (∀ w, (∃ q, d.after? d.initial w = some q) ↔ ∃ s, m.Reaches w s) ∧
      (∀ w q, d.after? d.initial w = some q →
        q ∈ d.states ∧ (∀ s, s ∈ q ↔ m.Reaches w s) ∧
          (∀ name, name ∈ d.tagsStarting q ↔
            ∃ t ∈ m.tags, t.name = name ∧ m.Reaches w t.start) ∧
          ∀ name, name ∈ d.tagsEnding q ↔ ∃ t ∈ m.tags, t.name = name ∧ m.Reaches w t.stop) ∧
      ∀ q ∈ d.states, ∃ w, d.after? d.initial w = some q := by
  obtain ⟨d, hd, h⟩ := exists_toDfa m
  refine ⟨d, hd, h.reads_iff, fun w q hq => ?_, h.exists_word⟩
  have hmem := h.mem_states w q hq
  have hafter := h.statesAfter w q hq
  refine ⟨hmem, hafter, fun name => ?_, fun name => ?_⟩
  · rw [h.mem_tagsStarting q hmem]
    simp only [hafter _]
  · rw [h.mem_tagsEnding q hmem]
    simp only [hafter _]

end Nfa

end CaptureAutomata
