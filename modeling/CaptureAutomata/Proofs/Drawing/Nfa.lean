/-
A nondeterministic automaton is told by its drawing:

* `Nfa.stateLine`, `Nfa.transitionLine`, `Nfa.tagLine`: the lines that draw a state, a transition and a tag, and
  `Nfa.drawing_eq`: the drawing has all lines of the first kind, then those of the second and of the third;
* `Nfa.eq_of_stateLine`, `Nfa.eq_of_transitionLine`, `Nfa.eq_of_tagLine`: a state is told by its line, and so is
  a transition or a tag among the same states, by whose numbers the line calls them. The label of a symbol
  must not be what is written for no symbol (`Drawing.label_ne_epsilon`);
* `Nfa.drawing_congr`, `Nfa.eq_of_drawing`: what decides a drawing, and what is told by it;
* `Nfa.render_drawing_eq_iff`: the texts of two drawings are the same if and only if the automata have the
  same initial state, states, transitions and tags.
-/
import CaptureAutomata.Proofs.Drawing.Lines
import CaptureAutomata.Proofs.Graph.Building

namespace CaptureAutomata

/-! ### Lists of lines -/

section Lists

variable {α β γ : Type}

/-- Lists are told by what becomes of their members if each member is. -/
lemma eq_of_map_eq {f g : α → β} {l l' : List α} (hfg : ∀ a ∈ l, ∀ b, f a = g b → a = b)
    (h : l.map f = l'.map g) : l = l' := by
  induction l generalizing l' with
  | nil => exact (List.map_eq_nil_iff.1 h.symm).symm
  | cons a l ih =>
      cases l' with
      | nil => cases h
      | cons b l' =>
          obtain ⟨hhead, htail⟩ := List.cons.inj h
          rw [hfg a (by simp) b hhead, ih (fun c hc => hfg c (by simp [hc])) htail]

/-- Two lists of which one passes a test and the other does not are told when they stand together. -/
lemma append_inj_of_test {p : α → Bool} {l l' r r' : List α} (hl : ∀ a ∈ l, p a = true)
    (hl' : ∀ a ∈ l', p a = true) (hr : ∀ a ∈ r, ¬ p a = true) (hr' : ∀ a ∈ r', ¬ p a = true)
    (h : l ++ r = l' ++ r') : l = l' ∧ r = r' := by
  have hleft := congrArg (List.filter p) h
  rw [List.filter_append, List.filter_append, List.filter_eq_self.2 hl, List.filter_eq_self.2 hl',
    List.filter_eq_nil_iff.2 hr, List.filter_eq_nil_iff.2 hr', List.append_nil, List.append_nil] at hleft
  subst hleft
  exact ⟨rfl, List.append_cancel_left h⟩

end Lists

namespace Drawing

/-- The line draws a state. -/
def Line.isState : Line → Bool
  | state .. => true
  | _ => false

/-- The line draws a transition. -/
def Line.isTransition : Line → Bool
  | transition .. => true
  | _ => false

/-- The label of a character begins with a quote, so it is not the one for no symbol. -/
lemma label_ne_epsilon (c : Char) : label c ≠ "ε" := by
  intro h
  have hquote : (quote c).toList = '\'' :: (Text.quoted '\'' c ++ ['\'']) := String.toList_ofList
  have hplain : escapeChar '\'' = ['\''] := by decide
  have hlabel := congrArg String.toList h
  rw [label, String.toList_ofList, hquote, List.flatMap_cons, hplain] at hlabel
  exact absurd (List.cons.inj hlabel).1 (by decide)

end Drawing

namespace Nfa

open Drawing

variable {S A T : Type} [Key S] [Key A] {m m' : Nfa S A T}

/-! ### The lines of a drawing -/

/-- The line that draws a state. -/
def stateLine [Quoted S] (m : Nfa S A T) (s : S) : Line :=
  .state (label s) (if s = m.initial then .box else .plain) (m.stateId s)

/-- The line that draws a transition. -/
def transitionLine [Quoted A] (m : Nfa S A T) (e : Edge S (Option A)) : Line :=
  .transition (m.stateId e.source) (m.stateId e.target) ((e.label.map label).getD "ε")

/-- The line that draws a tag. -/
def tagLine [Quoted T] (m : Nfa S A T) (t : Tag T S) : Line :=
  .tag (m.stateId t.start) (m.stateId t.stop) (label t.name)

/-- The transitions, in the order in which they are drawn. -/
def transitions (m : Nfa S A T) : List (Edge S (Option A)) :=
  ({} : Traversal S (Option A)).allPaths m.graph.toDigraph

lemma drawing_eq [Quoted S] [Quoted A] [Quoted T] (m : Nfa S A T) :
    m.drawing = m.states.map m.stateLine ++ (m.transitions.map m.transitionLine ++ m.tags.map m.tagLine) :=
  List.append_assoc _ _ _

/-- Transitions lead from a state to the states that are found for it and the symbol. -/
lemma mem_transitions {e : Edge S (Option A)} :
    e ∈ m.transitions ↔ e.target ∈ m.graph.targets e.source e.label :=
  LabelledGraph.mem_allPaths (g := .nondeterministic m.graph) compare compare

lemma mem_states_iff {s : S} : s ∈ m.states ↔ m.graph.contains s = true :=
  LabelledGraph.mem_vertices_iff (g := .nondeterministic m.graph)

/-! ### What is told by a line -/

lemma eq_of_stateLine [Quoted S] [LawfulQuoted S] {s s' : S} (h : m.stateLine s = m'.stateLine s') :
    s = s' :=
  label_inj (Line.state.inj h).1

lemma eq_of_stateId (hstates : m.states = m'.states) {s s' : S} (hs : s ∈ m.states)
    (h : m.stateId s = m'.stateId s') : s = s' := by
  rw [stateId, stateId, ← hstates] at h
  exact (List.idxOf_inj hs).1 h

omit [Key A] in
/-- A symbol, or that there is none, is told by what is written for it. -/
lemma eq_of_symbol [Quoted A] [LawfulQuoted A] (hsilent : ∀ a : A, label a ≠ "ε") {a b : Option A}
    (h : (a.map label).getD "ε" = (b.map label).getD "ε") : a = b := by
  cases a with
  | none =>
      cases b with
      | none => rfl
      | some b => exact absurd h.symm (hsilent b)
  | some a =>
      cases b with
      | none => exact absurd h (hsilent a)
      | some b => exact congrArg some (label_inj h)

/-- A transition is told by its line. -/
lemma eq_of_transitionLine [Quoted A] [LawfulQuoted A] (hsilent : ∀ a : A, label a ≠ "ε")
    (hstates : m.states = m'.states) {e e' : Edge S (Option A)} (he : e ∈ m.transitions)
    (h : m.transitionLine e = m'.transitionLine e') : e = e' := by
  obtain ⟨hsource, htarget, hlabel⟩ := Line.transition.inj h
  obtain ⟨hs, ht⟩ := NondeterministicGraph.mem_vertices_of_mem_targets (mem_transitions.1 he)
  cases e
  cases e'
  obtain rfl := eq_of_stateId hstates hs hsource
  obtain rfl := eq_of_stateId hstates ht htarget
  obtain rfl := eq_of_symbol hsilent hlabel
  rfl

/-- A tag is told by its line. -/
lemma eq_of_tagLine [Quoted T] [LawfulQuoted T] (hstates : m.states = m'.states) {t t' : Tag T S}
    (ht : t ∈ m.tags) (h : m.tagLine t = m'.tagLine t') : t = t' := by
  obtain ⟨hstart, hstop, hname⟩ := Line.tag.inj h
  obtain ⟨hs, hs'⟩ := m.tags_mem t ht
  cases t
  cases t'
  obtain rfl := eq_of_stateId hstates (mem_states_iff.2 hs) hstart
  obtain rfl := eq_of_stateId hstates (mem_states_iff.2 hs') hstop
  obtain rfl := label_inj hname
  rfl

/-! ### What is told by a drawing -/

section Told

variable [Quoted S] [Quoted A] [Quoted T]

/-- The states, the transitions and the tags of a drawing are told apart. -/
lemma lines_of_drawing (h : m.drawing = m'.drawing) :
    m.states.map m.stateLine = m'.states.map m'.stateLine ∧
      m.transitions.map m.transitionLine = m'.transitions.map m'.transitionLine ∧
      m.tags.map m.tagLine = m'.tags.map m'.tagLine := by
  have hstates : ∀ m : Nfa S A T, ∀ x ∈ m.states.map m.stateLine, x.isState = true := fun m x hx => by
    obtain ⟨s, -, rfl⟩ := List.mem_map.1 hx
    rfl
  have htransitions : ∀ m : Nfa S A T, ∀ x ∈ m.transitions.map m.transitionLine,
      x.isTransition = true ∧ ¬ x.isState = true := fun m x hx => by
    obtain ⟨e, -, rfl⟩ := List.mem_map.1 hx
    exact ⟨rfl, Bool.false_ne_true⟩
  have htags : ∀ m : Nfa S A T, ∀ x ∈ m.tags.map m.tagLine,
      ¬ x.isTransition = true ∧ ¬ x.isState = true := fun m x hx => by
    obtain ⟨t, -, rfl⟩ := List.mem_map.1 hx
    exact ⟨Bool.false_ne_true, Bool.false_ne_true⟩
  have hrest : ∀ m : Nfa S A T, ∀ x ∈ m.transitions.map m.transitionLine ++ m.tags.map m.tagLine,
      ¬ x.isState = true := fun m x hx =>
    (List.mem_append.1 hx).elim (fun hx => (htransitions m x hx).2) fun hx => (htags m x hx).2
  rw [drawing_eq, drawing_eq] at h
  obtain ⟨hleft, hright⟩ := append_inj_of_test (hstates m) (hstates m') (hrest m) (hrest m') h
  exact ⟨hleft, append_inj_of_test (fun x hx => (htransitions m x hx).1)
    (fun x hx => (htransitions m' x hx).1) (fun x hx => (htags m x hx).1)
    (fun x hx => (htags m' x hx).1) hright⟩

/-- What is drawn decides the drawing. -/
lemma drawing_congr (hinitial : m.initial = m'.initial) (hstates : m.states = m'.states)
    (htargets : ∀ s a, m.graph.targets s a = m'.graph.targets s a) (htags : m.tags = m'.tags) :
    m.drawing = m'.drawing := by
  have hid : m.stateId = m'.stateId := by
    funext s
    rw [stateId, stateId, hstates]
  have htransitions : m.transitions = m'.transitions := by
    have hedges : m.graph.toDigraph.edgesFrom = m'.graph.toDigraph.edgesFrom :=
      funext fun s => NondeterministicGraph.edgesFrom_congr (htargets s)
    have hvertices : m.graph.toDigraph.vertices = m'.graph.toDigraph.vertices := hstates
    simp only [transitions, Traversal.allPaths, Traversal.pathsFrom, Traversal.edgesFrom, hedges,
      hvertices]
  have hstate : m.stateLine = m'.stateLine := by
    funext s
    rw [stateLine, stateLine, hinitial, hid]
  have htransition : m.transitionLine = m'.transitionLine := by
    funext e
    rw [transitionLine, transitionLine, hid]
  have htag : m.tagLine = m'.tagLine := by
    funext t
    rw [tagLine, tagLine, hid]
  rw [drawing_eq, drawing_eq, hstates, htransitions, htags, hstate, htransition, htag]

variable [LawfulQuoted S] [LawfulQuoted A] [LawfulQuoted T]

/-- What is drawn is told by the drawing. -/
lemma eq_of_drawing (hsilent : ∀ a : A, label a ≠ "ε") (h : m.drawing = m'.drawing) :
    m.initial = m'.initial ∧ m.states = m'.states ∧
      (∀ s a, m.graph.targets s a = m'.graph.targets s a) ∧ m.tags = m'.tags := by
  obtain ⟨hstate, htransition, htag⟩ := lines_of_drawing h
  have hstates : m.states = m'.states := eq_of_map_eq (fun _ _ _ => eq_of_stateLine) hstate
  have htransitions : m.transitions = m'.transitions :=
    eq_of_map_eq (fun _ he _ => eq_of_transitionLine hsilent hstates he) htransition
  have htags : m.tags = m'.tags := eq_of_map_eq (fun _ ht _ => eq_of_tagLine hstates ht) htag
  refine ⟨?_, hstates, fun s a => Std.ExtTreeSet.ext_mem fun s' => ?_, htags⟩
  · -- The initial state is the one that is drawn as a box.
    rw [← hstates] at hstate
    have hline := List.map_inj_left.1 hstate m.initial (mem_states_iff.2 m.initial_mem)
    have hshape := (Line.state.inj hline).2.1
    rw [if_pos rfl] at hshape
    by_contra hne
    rw [if_neg hne] at hshape
    cases hshape
  · have hmem := mem_transitions (m := m) (e := ⟨s, a, s'⟩)
    rw [htransitions, mem_transitions] at hmem
    exact hmem.symm

/-- The labels of a drawing are labels. -/
lemma isLabel_of_mem_drawing {x : Line} (h : x ∈ m.drawing) : IsLabel x.text := by
  rw [drawing_eq, List.mem_append, List.mem_append, List.mem_map, List.mem_map, List.mem_map] at h
  rcases h with ⟨s, -, rfl⟩ | ⟨⟨s, a, s'⟩, -, rfl⟩ | ⟨t, -, rfl⟩
  · exact isLabel_label s
  · cases a with
    | none => exact isLabel_epsilon
    | some a => exact isLabel_label a
  · exact isLabel_label t.name

end Told

/-- If the states of two automata are integers, their symbols characters and their tags named by strings, the
texts of their drawings are the same if and only if they have the same initial state, the same states, the
same transitions, and the same tags in the same order. -/
theorem render_drawing_eq_iff (m m' : Nfa Int Char String) :
    render m.drawing = render m'.drawing ↔
      m.initial = m'.initial ∧ m.states = m'.states ∧
        (∀ s a, m.graph.targets s a = m'.graph.targets s a) ∧ m.tags = m'.tags := by
  constructor
  · intro h
    refine eq_of_drawing label_ne_epsilon (eq_of_render ?_ ?_ h)
    · exact fun x hx => isLabel_of_mem_drawing hx
    · exact fun x hx => isLabel_of_mem_drawing hx
  · rintro ⟨hinitial, hstates, htargets, htags⟩
    rw [drawing_congr hinitial hstates htargets htags]

end Nfa

end CaptureAutomata
