/-
The table of the subset construction:

* `StatesAfter`: a set holds exactly the states that the automaton can be in after a word;
* `StatesAfter.of_mem_moves`, `StatesAfter.exists_mem_moves`: the moves of such a set are the sets
  after one more symbol, for every symbol that can be read;
* `exists_rowsFrom`: the table can be made, and what all sets of the queue have and moves keep, all
  of its rows have;
* `rowsFrom_closed`: every set of the queue has a row, every row has the moves of its set, and every
  move leads to a set that has a row or had been seen before;
* `exists_rows`, `eq_initial_or_target`: the sets of the whole table are those after some word, and
  moves of the table lead to all of them but the initial one.
-/
import CaptureAutomata.Nfa.Subset
import CaptureAutomata.Proofs.Nfa.Reach
import CaptureAutomata.Proofs.Outcome

namespace CaptureAutomata

namespace Nfa

variable {S A T : Type} [Key S] [Key A] {m : Nfa S A T}

/-! ### The moves of one set -/

/-- The set holds exactly the states that the automaton can be in after reading the word. -/
def StatesAfter (m : Nfa S A T) (w : List A) (q : KeySet S) : Prop :=
  ∀ s, s ∈ q ↔ m.Reaches w s

lemma StatesAfter.unique {w : List A} {q q' : KeySet S} (h : m.StatesAfter w q)
    (h' : m.StatesAfter w q') : q = q' :=
  Std.ExtTreeSet.ext_mem fun s => (h s).trans (h' s).symm

/-- The targets collected for a symbol are those of the edges labelled with it. -/
lemma mem_getD_foldl_addTarget {es : List (Edge S (Option A))} {c : KeyMap A (KeySet S)} {a : A}
    {s : S} :
    s ∈ (es.foldl addTarget c).getD a ∅ ↔
      s ∈ c.getD a ∅ ∨ ∃ e ∈ es, e.label = some a ∧ e.target = s := by
  induction es generalizing c with
  | nil => simp
  | cons e es ih =>
      rw [List.foldl_cons, ih]
      have hstep : s ∈ (addTarget c e).getD a ∅ ↔
          s ∈ c.getD a ∅ ∨ (e.label = some a ∧ e.target = s) := by
        rw [addTarget.eq_def]
        cases hl : e.label with
        | none => simp
        | some b =>
            by_cases hab : b = a
            · subst hab
              simp [or_comm]
            · simp [Std.ExtTreeMap.getD_insert, hab]
      rw [hstep]
      simp only [List.mem_cons, exists_eq_or_imp]
      tauto

/-- Targets are collected for the symbols that label an edge. -/
lemma mem_foldl_addTarget {es : List (Edge S (Option A))} {c : KeyMap A (KeySet S)} {a : A} :
    a ∈ es.foldl addTarget c ↔ a ∈ c ∨ ∃ e ∈ es, e.label = some a := by
  induction es generalizing c with
  | nil => simp
  | cons e es ih =>
      rw [List.foldl_cons, ih]
      have hstep : a ∈ addTarget c e ↔ a ∈ c ∨ e.label = some a := by
        rw [addTarget.eq_def]
        cases hl : e.label with
        | none => simp
        | some b => simp [or_comm]
      rw [hstep]
      simp only [List.mem_cons, exists_eq_or_imp]
      tauto

/-- The edges that are read from a set lead from its members over symbols. -/
lemma mem_readingPaths {q : KeySet S} {es : List (Edge S (Option A))} {e : Edge S (Option A)}
    (h : (reading : Traversal S (Option A)).paths m.graph.toDigraph q.toList = .ok es) :
    e ∈ es ↔ e.source ∈ q ∧ e.target ∈ m.graph.targets e.source e.label ∧ e.label.isSome := by
  rw [Traversal.mem_paths h]
  constructor
  · rintro ⟨v, hv, he, ha⟩
    obtain ⟨rfl, ht⟩ := NondeterministicGraph.mem_edgesFrom.1 he
    exact ⟨Std.ExtTreeSet.mem_toList.1 hv, ht, ha⟩
  · rintro ⟨hs, ht, ha⟩
    exact ⟨e.source, Std.ExtTreeSet.mem_toList.2 hs,
      NondeterministicGraph.mem_edgesFrom.2 ⟨rfl, ht⟩, ha⟩

/-- A set of states has its moves. -/
lemma exists_moves {q : KeySet S} (h : ∀ s ∈ q, s ∈ m.states) : ∃ l, m.moves q = .ok l := by
  obtain ⟨es, hes⟩ := Traversal.exists_paths (t := (reading : Traversal S (Option A)))
    (g := m.graph.toDigraph) fun v hv => h v (Std.ExtTreeSet.mem_toList.1 hv)
  have hclosure : ∀ p ∈ (es.foldl addTarget ∅).toList,
      ∃ b, (do let closed ← m.epsilonClosure p.2.toList; return (p.1, closed) :
        Except (Undefined S (Option A)) (A × KeySet S)) = .ok b := by
    rintro ⟨a, ts⟩ hp
    have hts : (es.foldl addTarget ∅)[a]? = some ts :=
      Std.ExtTreeMap.mem_toList_iff_getElem?_eq_some.1 hp
    have hmem : ∀ s ∈ ts.toList, s ∈ m.states := by
      intro s hs
      have hs : s ∈ (es.foldl addTarget ∅).getD a ∅ := by
        simpa [Std.ExtTreeMap.getD_eq_getD_getElem?, hts] using hs
      obtain ⟨e, he, -, rfl⟩ := (mem_getD_foldl_addTarget.1 hs).resolve_left (by simp)
      exact (NondeterministicGraph.mem_vertices_of_mem_targets ((mem_readingPaths hes).1 he).2.1).2
    obtain ⟨closed, hc⟩ := exists_epsilonClosure hmem
    exact ⟨(a, closed), by simp [hc, bind, Except.bind, pure, Except.pure]⟩
  obtain ⟨l, hl⟩ := exists_mapM hclosure
  exact ⟨l, by rw [moves, hes]; exact hl⟩

/-- The edges read over a symbol lead to its targets. -/
lemma exists_readingPath_iff {q : KeySet S} {es : List (Edge S (Option A))} {a : A} {t : S}
    (h : (reading : Traversal S (Option A)).paths m.graph.toDigraph q.toList = .ok es) :
    (∃ e ∈ es, e.label = some a ∧ e.target = t) ↔ ∃ r ∈ q, t ∈ m.graph.targets r (some a) := by
  constructor
  · rintro ⟨e, he, hl, rfl⟩
    obtain ⟨hs, ht, -⟩ := (mem_readingPaths h).1 he
    exact ⟨e.source, hs, hl ▸ ht⟩
  · rintro ⟨r, hr, ht⟩
    exact ⟨⟨r, some a, t⟩, (mem_readingPaths h).2 ⟨hr, ht, rfl⟩, rfl, rfl⟩

/-- What is reached over a symbol is the silent closure of the targets collected for it. -/
lemma mem_closure_of_collected {q ts closed : KeySet S} {es : List (Edge S (Option A))} {a : A}
    {s : S}
    (h : (reading : Traversal S (Option A)).paths m.graph.toDigraph q.toList = .ok es)
    (hts : (es.foldl addTarget ∅)[a]? = some ts) (hc : m.epsilonClosure ts.toList = .ok closed) :
    s ∈ closed ↔ ∃ r ∈ q, ∃ t ∈ m.graph.targets r (some a), m.Run t [] s := by
  have hmem : ∀ t, t ∈ ts ↔ ∃ r ∈ q, t ∈ m.graph.targets r (some a) := by
    intro t
    rw [← exists_readingPath_iff h]
    have hcollect : t ∈ (es.foldl addTarget ∅).getD a ∅ ↔ _ := mem_getD_foldl_addTarget
    simpa [Std.ExtTreeMap.getD_eq_getD_getElem?, hts] using hcollect
  rw [mem_epsilonClosure hc]
  simp only [Std.ExtTreeSet.mem_toList, hmem]
  exact ⟨fun ⟨t, ⟨r, hr, ht⟩, hs⟩ => ⟨r, hr, t, ht, hs⟩,
    fun ⟨r, hr, t, ht, hs⟩ => ⟨t, ⟨r, hr, ht⟩, hs⟩⟩

/-- A move leads over a symbol that can be read to the states behind it. -/
lemma of_mem_moves {q q' : KeySet S} {l : List (A × KeySet S)} {a : A} (h : m.moves q = .ok l)
    (hp : (a, q') ∈ l) :
    (∃ r ∈ q, ∃ t, t ∈ m.graph.targets r (some a)) ∧
      ∀ s, s ∈ q' ↔ ∃ r ∈ q, ∃ t ∈ m.graph.targets r (some a), m.Run t [] s := by
  obtain ⟨es, hes, h⟩ := bind_eq_ok.1 h
  obtain ⟨⟨b, ts⟩, hts, hb⟩ := exists_of_mem_mapM h _ hp
  obtain ⟨closed, hc, hb⟩ := bind_eq_ok.1 hb
  cases hb
  rw [Std.ExtTreeMap.mem_toList_iff_getElem?_eq_some] at hts
  have hkey : b ∈ es.foldl addTarget ∅ := by
    rw [Std.ExtTreeMap.mem_iff_isSome_getElem?, hts]
    rfl
  obtain ⟨e, he, hl⟩ := (mem_foldl_addTarget.1 hkey).resolve_left (by simp)
  obtain ⟨r, hr, ht⟩ := (exists_readingPath_iff hes).1 ⟨e, he, hl, rfl⟩
  exact ⟨⟨r, hr, e.target, ht⟩, fun s => mem_closure_of_collected hes hts hc⟩

/-- There is a move on each symbol that can be read. -/
lemma exists_mem_moves {q : KeySet S} {l : List (A × KeySet S)} {a : A} {r t : S}
    (h : m.moves q = .ok l) (hr : r ∈ q) (ht : t ∈ m.graph.targets r (some a)) :
    ∃ q', (a, q') ∈ l := by
  obtain ⟨es, hes, h⟩ := bind_eq_ok.1 h
  obtain ⟨e, he, hl, -⟩ := (exists_readingPath_iff hes).2 ⟨r, hr, ht⟩
  have hkey : a ∈ es.foldl addTarget ∅ := mem_foldl_addTarget.2 (Or.inr ⟨e, he, hl⟩)
  rw [Std.ExtTreeMap.mem_iff_isSome_getElem?, Option.isSome_iff_exists] at hkey
  obtain ⟨ts, hts⟩ := hkey
  obtain ⟨p, hp, hb⟩ := exists_mem_of_mapM h (a, ts)
    (Std.ExtTreeMap.mem_toList_iff_getElem?_eq_some.2 hts)
  obtain ⟨closed, -, hb⟩ := bind_eq_ok.1 hb
  cases hb
  exact ⟨closed, hp⟩

lemma moves_unique {q q₁ q₂ : KeySet S} {l : List (A × KeySet S)} {a : A} (h : m.moves q = .ok l)
    (h₁ : (a, q₁) ∈ l) (h₂ : (a, q₂) ∈ l) : q₁ = q₂ :=
  Std.ExtTreeSet.ext_mem fun s =>
    ((of_mem_moves h h₁).2 s).trans ((of_mem_moves h h₂).2 s).symm

/-- What lies behind a symbol for the states after a word are the states after one more symbol. -/
lemma StatesAfter.succ_iff {w : List A} {q : KeySet S} {a : A} {s : S} (hq : m.StatesAfter w q) :
    (∃ r ∈ q, ∃ t ∈ m.graph.targets r (some a), m.Run t [] s) ↔ m.Reaches (w ++ [a]) s := by
  rw [reaches_append_singleton]
  constructor
  · rintro ⟨r, hr, t, ht, hs⟩
    exact ⟨r, t, (hq r).1 hr, ht, hs⟩
  · rintro ⟨r, t, hr, ht, hs⟩
    exact ⟨r, (hq r).2 hr, t, ht, hs⟩

/-- A move of the states after a word leads to the states after one more symbol. -/
lemma StatesAfter.of_mem_moves {w : List A} {q q' : KeySet S} {l : List (A × KeySet S)} {a : A}
    (hq : m.StatesAfter w q) (h : m.moves q = .ok l) (hp : (a, q') ∈ l) :
    (∃ s, m.Reaches (w ++ [a]) s) ∧ m.StatesAfter (w ++ [a]) q' := by
  obtain ⟨⟨r, hr, t, ht⟩, hq'⟩ := Nfa.of_mem_moves h hp
  exact ⟨⟨t, hq.succ_iff.1 ⟨r, hr, t, ht, .nil t⟩⟩, fun s => (hq' s).trans hq.succ_iff⟩

/-- If one more symbol can be read after a word, the states after the word have a move on it. -/
lemma StatesAfter.exists_mem_moves {w : List A} {q : KeySet S} {l : List (A × KeySet S)} {a : A}
    {s : S} (hq : m.StatesAfter w q) (h : m.moves q = .ok l) (hs : m.Reaches (w ++ [a]) s) :
    ∃ q', (a, q') ∈ l := by
  obtain ⟨r, hr, t, ht, -⟩ := hq.succ_iff.2 hs
  exact Nfa.exists_mem_moves h hr ht

/-! ### The rows -/

/-- The table can be made if all sets of the queue have moves, and so have the sets behind them. -/
lemma exists_rowsFrom {P : KeySet S → Prop} (hmoves : ∀ q, P q → ∃ l, m.moves q = .ok l)
    (hstep : ∀ q l, P q → m.moves q = .ok l → ∀ p ∈ l, P p.2) {seen : KeySet (KeySet S)}
    {hs : ∀ t ∈ seen, t ∈ m.stateSets} {queue : List (KeySet S)} (hq : ∀ q ∈ queue, P q) :
    ∃ rows, m.rowsFrom seen hs queue = .ok rows ∧ ∀ row ∈ rows, P row.states := by
  fun_induction rowsFrom m seen hs queue with
  | case1 => exact ⟨[], rfl, by simp⟩
  | case2 seen hs q queue u h =>
      obtain ⟨l, hl⟩ := hmoves q (hq q (.head _))
      rw [h] at hl
      cases hl
  | case3 seen hs q queue l h found ih =>
      have hP := hq q (.head _)
      obtain ⟨rows, hrows, hall⟩ := ih fun q' hq' => by
        rcases List.mem_append.1 hq' with hq' | hq'
        · exact hq q' (.tail _ hq')
        · obtain ⟨p, hp, rfl⟩ := List.mem_map.1 hq'
          exact hstep q l hP h p (KeySet.of_mem_newcomers hp).1
      refine ⟨⟨q, l⟩ :: rows, by rw [hrows]; rfl, fun row hrow => ?_⟩
      rcases List.mem_cons.1 hrow with rfl | hrow
      · exact hP
      · exact hall row hrow

/-- Every set of the queue has a row, every row has the moves of its set, and a move leads to a set
seen before or to one that has a row. -/
lemma rowsFrom_closed {seen : KeySet (KeySet S)} {hs : ∀ t ∈ seen, t ∈ m.stateSets}
    {queue : List (KeySet S)} {rows : List (Row S A)} (h : m.rowsFrom seen hs queue = .ok rows) :
    (∀ q ∈ queue, ∃ row ∈ rows, row.states = q) ∧
      ∀ row ∈ rows, m.moves row.states = .ok row.moves ∧
        ∀ p ∈ row.moves, p.2 ∈ seen ∨ ∃ row' ∈ rows, row'.states = p.2 := by
  fun_induction rowsFrom m seen hs queue generalizing rows with
  | case1 =>
      cases h
      simp
  | case2 => cases h
  | case3 seen hs q queue l hl found =>
      rename_i ih
      obtain ⟨rest, hrest, rfl⟩ := map_eq_ok.1 h
      obtain ⟨hqueue, hrows⟩ := ih hrest
      have hfound : ∀ p ∈ l, p.2 ∈ seen ∨
          ∃ row ∈ (⟨q, l⟩ :: rest : List (Row S A)), row.states = p.2 := by
        intro p hp
        by_cases hseen : p.2 ∈ seen
        · exact Or.inl hseen
        · have hfresh : p.2 ∈ freshSets seen l :=
            KeySet.mem_map_newcomers.2 ⟨List.mem_map_of_mem hp, hseen⟩
          obtain ⟨row, hrow, hst⟩ := hqueue p.2 (List.mem_append.2 (Or.inr hfresh))
          exact Or.inr ⟨row, .tail _ hrow, hst⟩
      refine ⟨fun q' hq' => ?_, fun row hrow => ?_⟩
      · rcases List.mem_cons.1 hq' with rfl | hq'
        · exact ⟨_, .head _, rfl⟩
        · obtain ⟨row, hrow, hst⟩ := hqueue q' (List.mem_append.2 (Or.inl hq'))
          exact ⟨row, .tail _ hrow, hst⟩
      · rcases List.mem_cons.1 hrow with rfl | hrow
        · exact ⟨hl, hfound⟩
        · obtain ⟨hmoves, hnext⟩ := hrows row hrow
          refine ⟨hmoves, fun p hp => ?_⟩
          rcases hnext p hp with hseen | ⟨row', hrow', hst⟩
          · rcases KeySet.mem_insertMany_newcomers.1 hseen with hseen | hnew
            · exact Or.inl hseen
            · obtain ⟨p', hp', hst⟩ := List.mem_map.1 hnew
              exact hst ▸ hfound p' hp'
          · exact Or.inr ⟨row', .tail _ hrow', hst⟩

/-! ### The whole table -/

variable {initial : KeySet S} {hmem : initial ∈ m.stateSets}

/-- The silent closure of the initial state holds the states after the empty word. -/
lemma statesAfter_nil (h : m.epsilonClosure [m.initial] = .ok initial) :
    m.StatesAfter [] initial := fun s => by
  simp [mem_epsilonClosure h, Reaches]

/-- The states after a word, of which there is at least one. -/
def IsReached (m : Nfa S A T) (q : KeySet S) : Prop :=
  ∃ w, (∃ s, m.Reaches w s) ∧ m.StatesAfter w q

/-- The states after a word have moves. -/
lemma IsReached.exists_moves {q : KeySet S} (h : m.IsReached q) : ∃ l, m.moves q = .ok l := by
  obtain ⟨w, -, hq⟩ := h
  exact Nfa.exists_moves fun s hs => mem_states_of_reaches ((hq s).1 hs)

/-- Moves lead on to the states after a word. -/
lemma IsReached.of_mem_moves {q : KeySet S} {l : List (A × KeySet S)} {p : A × KeySet S}
    (h : m.IsReached q) (hl : m.moves q = .ok l) (hp : p ∈ l) : m.IsReached p.2 := by
  obtain ⟨w, -, hq⟩ := h
  exact ⟨w ++ [p.1], hq.of_mem_moves hl hp⟩

/-- The table can be made, and its rows are for the states after words. -/
lemma exists_rows (h : m.epsilonClosure [m.initial] = .ok initial) :
    ∃ rows, m.rows initial hmem = .ok rows ∧ ∀ row ∈ rows, m.IsReached row.states := by
  refine exists_rowsFrom (fun q hq => hq.exists_moves) (fun q l hq hl p => hq.of_mem_moves hl) ?_
  intro q hq
  obtain rfl := List.mem_singleton.1 hq
  exact ⟨[], ⟨m.initial, .nil _⟩, statesAfter_nil h⟩

variable {rows : List (Row S A)}

/-- The table has a row for the initial set. -/
lemma exists_row_initial (h : m.rows initial hmem = .ok rows) :
    ∃ row ∈ rows, row.states = initial :=
  (rowsFrom_closed h).1 initial (.head _)

lemma moves_of_mem_rows (h : m.rows initial hmem = .ok rows) {row : Row S A} (hrow : row ∈ rows) :
    m.moves row.states = .ok row.moves :=
  ((rowsFrom_closed h).2 row hrow).1

/-- The table has a row for each set that a move leads to. -/
lemma exists_row_of_mem_moves (h : m.rows initial hmem = .ok rows) {row : Row S A}
    (hrow : row ∈ rows) {p : A × KeySet S} (hp : p ∈ row.moves) :
    ∃ row' ∈ rows, row'.states = p.2 := by
  rcases ((rowsFrom_closed h).2 row hrow).2 p hp with hseen | hnext
  · have hinitial : initial = p.2 := by simpa using hseen
    exact hinitial ▸ exists_row_initial h
  · exact hnext

/-- Every set of the table is the initial one or the target of a move of the table. -/
lemma eq_initial_or_target (h : m.rows initial hmem = .ok rows) {row : Row S A}
    (hrow : row ∈ rows) :
    row.states = initial ∨ ∃ row' ∈ rows, ∃ p ∈ row'.moves, p.2 = row.states := by
  have hrows : ∀ {q}, (q = initial ∨ ∃ row' ∈ rows, ∃ p ∈ row'.moves, p.2 = q) →
      ∃ row' ∈ rows, row'.states = q := by
    rintro q (rfl | ⟨row', hrow', p, hp, rfl⟩)
    · exact exists_row_initial h
    · exact exists_row_of_mem_moves h hrow' hp
  -- making the same table again, with this as what moves keep
  have hagain : ∃ rows', m.rows initial hmem = .ok rows' ∧ ∀ row ∈ rows',
      row.states = initial ∨ ∃ row' ∈ rows, ∃ p ∈ row'.moves, p.2 = row.states := by
    refine exists_rowsFrom (m := m)
      (P := fun q => q = initial ∨ ∃ row' ∈ rows, ∃ p ∈ row'.moves, p.2 = q)
      (fun q hq => ?_) (fun q l hq hl p hp => ?_)
      fun q hq => Or.inl (List.mem_singleton.1 hq)
    · obtain ⟨row', hrow', rfl⟩ := hrows hq
      exact ⟨_, moves_of_mem_rows h hrow'⟩
    · obtain ⟨row', hrow', rfl⟩ := hrows hq
      obtain rfl := Except.ok.inj (hl.symm.trans (moves_of_mem_rows h hrow'))
      exact Or.inr ⟨row', hrow', p, hp, rfl⟩
  obtain ⟨rows', hrows', hall⟩ := hagain
  obtain rfl := Except.ok.inj (hrows'.symm.trans h)
  exact hall row hrow

end Nfa

end CaptureAutomata
