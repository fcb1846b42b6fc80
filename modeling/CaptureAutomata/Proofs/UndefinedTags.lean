/-
Automata are built unless a tag is on an undefined state:

* `definedBy_append_singleton`, `definedBy_append_map`: which states further calls define;
* `Nfa.Builder.Holds`, `Dfa.Builder.Holds`: what a builder has after some calls. `Holds.call` says that one
  more call keeps this true, `holds_ofCalls` that it is true after all calls. A transition always enters a
  defined state, since one that is replaced leaves its end behind as a state (`Holds.exists_graph`);
* `Nfa.undefinedTag?_eq_some_iff`, `Dfa.Builder.missing?_eq_some_iff`: what the checks of the tags find. The
  one goes over a list, the other over the keys of a map;
* `Nfa.Builder.Holds.build_eq_error_iff`, `Dfa.Builder.Holds.build_eq_error_iff`: so building fails with
  `FirstUndefined`, and in no other way;
* `builds_unless_tags_undefined`: automata of both kinds are built if and only if all tags are on defined
  states, with all that was added, and can be mended by adding the missing states.
-/
import CaptureAutomata.Calls
import CaptureAutomata.Proofs.Dfa.Build
import CaptureAutomata.Proofs.Graph.Building
import CaptureAutomata.Proofs.Nfa.Build

namespace CaptureAutomata

/-! ### Defined states -/

section Defined

variable {C S : Type} {defines : C → S → Prop} {initial s : S} {calls : List C}

/-- One more call defines more states. -/
lemma definedBy_append_singleton {c : C} :
    DefinedBy defines initial (calls ++ [c]) s ↔ defines c s ∨ DefinedBy defines initial calls s :=
  (or_congr_right exists_mem_append_singleton).trans or_left_comm

/-- States that are added are defined besides those that were defined before. -/
lemma definedBy_append_map {state : S → C} (hstate : ∀ s s', defines (state s') s ↔ s = s')
    (missing : List S) :
    DefinedBy defines initial (calls ++ missing.map state) s ↔
      DefinedBy defines initial calls s ∨ s ∈ missing := by
  simp only [DefinedBy, List.mem_append, List.mem_map, or_and_right, exists_or]
  rw [or_assoc]
  simp [hstate]

end Defined

/-! ### Nondeterministic automata -/

namespace Nfa

variable {S A T : Type}

section Calls

variable {calls : List (Call S A T)}

/-- States that are added add no tags. -/
lemma tagsOf_append_states {missing : List S} :
    tagsOf (calls ++ missing.map .state) = tagsOf calls := by
  have hnone : (missing.map .state : List (Call S A T)).filterMap Call.tag? = [] := by
    refine List.filterMap_eq_nil_iff.2 fun c hc => ?_
    obtain ⟨s, -, rfl⟩ := List.mem_map.1 hc
    rfl
  rw [tagsOf, tagsOf, List.filterMap_append, hnone, List.append_nil]

/-- States that are added add no transitions. -/
lemma transition_mem_append_states {missing : List S} {e : Edge S (Option A)} :
    Call.transition e ∈ calls ++ missing.map .state ↔ Call.transition e ∈ calls := by
  simp

end Calls

variable [Key S] [Key A]

/-! #### What a builder has -/

namespace Builder

variable {b : Builder S A T} {initial : S} {calls : List (Call S A T)} {c : Call S A T}

/-- The builder has what the calls add. -/
structure Holds (b : Builder S A T) (initial : S) (calls : List (Call S A T)) : Prop where
  /-- A run starts where it should. -/
  initial_eq : b.initial = initial
  /-- The defined states are there. -/
  mem_iff : ∀ s, s ∈ b.graph.adjacency ↔ Defined initial calls s
  /-- A transition is there if it has been added. -/
  hasEdge_iff : ∀ s a s', b.graph.HasEdge s a s' ↔ .transition ⟨s, a, s'⟩ ∈ calls
  /-- The tags are there in the order in which they have been added. -/
  tags_eq : b.tags = tagsOf calls

/-- A call makes its states. -/
lemma mem_call {s : S} : s ∈ (b.call c).graph.adjacency ↔ c.Defines s ∨ s ∈ b.graph.adjacency := by
  cases c with
  | state s' => exact NondeterministicGraph.Builder.mem_vertex
  | transition e => exact NondeterministicGraph.Builder.mem_path.trans or_assoc.symm
  | tag t => exact (or_iff_right id).symm

/-- A call adds its transition. -/
lemma hasEdge_call {s s' : S} {a : Option A} :
    (b.call c).graph.HasEdge s a s' ↔ b.graph.HasEdge s a s' ∨ .transition ⟨s, a, s'⟩ = c := by
  cases c with
  | state s' => simp [call, state]
  | transition e =>
      cases e
      simp [call, transition, or_comm]
  | tag t => simp [call, tag]

/-- One more call adds what it says. -/
lemma Holds.call (h : b.Holds initial calls) : (b.call c).Holds initial (calls ++ [c]) where
  initial_eq := by cases c <;> exact h.initial_eq
  mem_iff s := by rw [mem_call, h.mem_iff, Defined, definedBy_append_singleton]
  hasEdge_iff s a s' := by rw [hasEdge_call, h.hasEdge_iff, List.mem_append, List.mem_singleton]
  tags_eq := by
    rw [tagsOf, List.filterMap_append, ← tagsOf, ← h.tags_eq]
    cases c <;> simp [Builder.call, state, transition, tag, Call.tag?]

/-- After some calls a builder has what they add. -/
lemma holds_ofCalls (initial : S) (calls : List (Call S A T)) :
    (ofCalls initial calls).Holds initial calls := by
  induction calls using List.reverseRecOn with
  | nil =>
      refine ⟨rfl, fun s => ?_, fun s a s' => ?_, rfl⟩
      · refine NondeterministicGraph.Builder.mem_vertex.trans ?_
        simp [DefinedBy]
      · refine NondeterministicGraph.Builder.hasEdge_vertex.trans ?_
        simp [NondeterministicGraph.Builder.HasEdge]
  | append_singleton calls c ih =>
      rw [ofCalls, List.foldl_append]
      exact ih.call

end Builder

/-! #### Checking the tags -/

section Checks

variable {g : NondeterministicGraph S (Option A)} {t : Tag T S} {tags : List (Tag T S)} {initial : S}
  {u : Undefined S (Option A)} {m : Nfa S A T}

/-- A tag is at fault if one of its states is missing. -/
lemma undefinedTag?_eq_some_iff :
    undefinedTag? g t = some u ↔
      ¬ g.contains t.start = true ∧ u = .tagStart t.start ∨
        g.contains t.start = true ∧ ¬ g.contains t.stop = true ∧ u = .tagEnd t.stop := by
  rw [undefinedTag?]
  cases g.contains t.start <;> cases g.contains t.stop <;> simp [eq_comm]

lemma undefinedTag?_eq_none_iff :
    undefinedTag? g t = none ↔ g.contains t.start = true ∧ g.contains t.stop = true := by
  rw [undefinedTag?]
  cases g.contains t.start <;> cases g.contains t.stop <;> simp

/-- An automaton with an initial state fails by its tags only. -/
lemma ofGraph_eq_error_iff (hi : g.contains initial = true) :
    ofGraph initial g tags = .error u ↔ tags.findSome? (undefinedTag? g) = some u := by
  rw [ofGraph, dif_pos hi]
  split
  next u' hu => simp [hu]
  next hnone => simp [hnone]

/-- An automaton on a graph has this graph. -/
lemma parts_of_ofGraph (h : ofGraph initial g tags = .ok m) :
    m.initial = initial ∧ m.graph = g ∧ m.tags = tags := by
  rw [ofGraph] at h
  split at h
  next =>
    split at h
    next => cases h
    next =>
      cases h
      exact ⟨rfl, rfl, rfl⟩
  next => cases h

end Checks

/-! #### Building -/

namespace Builder.Holds

variable {b : Builder S A T} {initial : S} {calls : List (Call S A T)}

/-- Transitions enter states, so only the tags are left to be checked. -/
lemma exists_graph (h : b.Holds initial calls) :
    ∃ g, b.build = ofGraph initial g (tagsOf calls) ∧
      (∀ s, g.contains s = true ↔ Defined initial calls s) ∧
      ∀ s a s', s' ∈ g.targets s a ↔ .transition ⟨s, a, s'⟩ ∈ calls := by
  have htarget : ∀ s a s', b.graph.HasEdge s a s' → s' ∈ b.graph.adjacency := fun s a s' hedge => by
    have hcall := (h.hasEdge_iff s a s').1 hedge
    exact (h.mem_iff s').2 (Or.inr ⟨_, hcall, Or.inr rfl⟩)
  obtain ⟨g, hg, hadj⟩ := NondeterministicGraph.Builder.exists_build htarget
  refine ⟨g, ?_, fun s => ?_, fun s a s' => ?_⟩
  · rw [build, hg, h.initial_eq, h.tags_eq]
  · rw [NondeterministicGraph.contains, Std.ExtTreeMap.contains_iff_mem, hadj, h.mem_iff]
  · rw [NondeterministicGraph.targets, hadj]
    exact h.hasEdge_iff s a s'

/-- What is built has all that was added. -/
lemma collects (h : b.Holds initial calls) {m : Nfa S A T} (hm : b.build = .ok m) :
    m.Collects initial (Defined initial calls) calls := by
  obtain ⟨g, hbuild, hcontains, htargets⟩ := h.exists_graph
  obtain ⟨hinitial, rfl, htags⟩ := parts_of_ofGraph (hbuild.symm.trans hm)
  exact ⟨hinitial, hcontains, htargets, htags⟩

/-- Building fails with the first tag of which a state is not defined. -/
lemma build_eq_error_iff (h : b.Holds initial calls) {u : Undefined S (Option A)} :
    b.build = .error u ↔ FirstUndefined initial calls u := by
  obtain ⟨g, hbuild, hcontains, -⟩ := h.exists_graph
  rw [hbuild, ofGraph_eq_error_iff ((hcontains initial).2 (Or.inl rfl)), List.findSome?_eq_some_iff]
  simp only [undefinedTag?_eq_some_iff, undefinedTag?_eq_none_iff, hcontains]
  constructor
  · rintro ⟨before, t, after, htags, hfault, hbefore⟩
    exact ⟨before, t, after, htags, hbefore, hfault⟩
  · rintro ⟨before, t, after, htags, hbefore, hfault⟩
    exact ⟨before, t, after, htags, hfault, hbefore⟩

/-- Building succeeds if the tags are on defined states. -/
lemma exists_build_iff (h : b.Holds initial calls) :
    (∃ m, b.build = .ok m) ↔
      ∀ t ∈ tagsOf calls, Defined initial calls t.start ∧ Defined initial calls t.stop := by
  obtain ⟨g, hbuild, hcontains, -⟩ := h.exists_graph
  have hnone : (∃ m, b.build = .ok m) ↔ (tagsOf calls).findSome? (undefinedTag? g) = none := by
    rw [exists_ok_iff, Option.eq_none_iff_forall_ne_some, hbuild]
    exact forall_congr' fun u =>
      not_congr (ofGraph_eq_error_iff ((hcontains initial).2 (Or.inl rfl)))
  rw [hnone, List.findSome?_eq_none_iff]
  simp only [undefinedTag?_eq_none_iff, hcontains]

end Builder.Holds

/-- An automaton can be built once the missing states of its tags are added. -/
lemma exists_mended (initial : S) (calls : List (Call S A T)) (missing : List S)
    (hmissing : ∀ t ∈ tagsOf calls, (Defined initial calls t.start ∨ t.start ∈ missing) ∧
      (Defined initial calls t.stop ∨ t.stop ∈ missing)) :
    ∃ m, (Builder.ofCalls initial (calls ++ missing.map .state)).build = .ok m ∧
      m.Collects initial (fun s => Defined initial calls s ∨ s ∈ missing) calls := by
  have hdefined : ∀ s, Defined initial (calls ++ missing.map .state) s ↔
      Defined initial calls s ∨ s ∈ missing :=
    fun s => definedBy_append_map (fun _ _ => Iff.rfl) missing
  have hholds := Builder.holds_ofCalls initial (calls ++ missing.map .state)
  obtain ⟨m, hm⟩ := hholds.exists_build_iff.2 fun t ht => by
    rw [tagsOf_append_states] at ht
    rw [hdefined, hdefined]
    exact hmissing t ht
  obtain ⟨hinitial, hcontains, htargets, htags⟩ := hholds.collects hm
  refine ⟨m, hm, hinitial, fun s => ?_, fun s a s' => ?_, ?_⟩
  · rw [hcontains, hdefined]
  · rw [htargets, transition_mem_append_states]
  · rw [htags, tagsOf_append_states]

end Nfa

/-! ### Deterministic automata -/

namespace Dfa

variable {D A T : Type}

section Calls

variable {calls : List (Call D A T)} {c : Call D A T} {d : D} {side : Side} {name : T}

lemma marked_append_singleton :
    Marked (calls ++ [c]) side d name ↔ c.Marks side d name ∨ Marked calls side d name :=
  exists_mem_append_singleton

/-- One more call may add the transition, or another one in its place. -/
lemma takes_append_singleton {e : Edge D A} :
    Takes (calls ++ [c]) e ↔ .transition e = c ∨ Takes calls e ∧ ¬ c.Redirects e.source e.label := by
  have hlast := exists_last_append_singleton (P := (Call.transition e = ·))
    (Q := fun c => c.Redirects e.source e.label) (l := calls) (a := c)
  simpa [Takes] using hlast

/-- States that are added add no tags. -/
lemma marked_append_states {missing : List D} :
    Marked (calls ++ missing.map .state) side d name ↔ Marked calls side d name := by
  simp only [Marked, List.mem_append, List.mem_map, or_and_right, exists_or]
  simp [Call.Marks]

/-- States that are added redirect no transitions. -/
lemma takes_append_states {missing : List D} {e : Edge D A} :
    Takes (calls ++ missing.map .state) e ↔ Takes calls e := by
  induction missing using List.reverseRecOn with
  | nil => simp
  | append_singleton missing d ih =>
      rw [List.map_append, ← List.append_assoc, List.map_singleton, takes_append_singleton, ih]
      simp [Call.Redirects]

end Calls

variable [Key D] [Key A] [Key T]

/-! #### What a builder has -/

namespace Builder

variable {b : Builder D A T} {initial : D} {calls : List (Call D A T)} {c : Call D A T}

/-- The names of the tags that start or end in a state. -/
def marks (b : Builder D A T) : Side → KeyMap D (KeySet T)
  | .start => b.starting
  | .stop => b.ending

/-- The builder has what the calls come to. -/
structure Holds (b : Builder D A T) (initial : D) (calls : List (Call D A T)) : Prop where
  /-- A run starts where it should. -/
  initial_eq : b.initial = initial
  /-- The defined states are there. -/
  mem_iff : ∀ d, d ∈ b.graph.adjacency ↔ Defined initial calls d
  /-- A transition is there if it has been the last one from its state on its symbol. -/
  target?_iff : ∀ d a d', b.graph.target? d a = some d' ↔ Takes calls ⟨d, a, d'⟩
  /-- A state is looked at for the tags that have been put there. -/
  mem_marks_iff : ∀ side d, d ∈ b.marks side ↔ ∃ name, Marked calls side d name
  /-- The tags are there in which states they have been put. -/
  mem_names_iff : ∀ side d name, name ∈ (b.marks side).getD d ∅ ↔ Marked calls side d name

/-- A call makes its states. -/
lemma mem_call {d : D} : d ∈ (b.call c).graph.adjacency ↔ c.Defines d ∨ d ∈ b.graph.adjacency := by
  cases c with
  | state d' => exact DeterministicGraph.Builder.mem_vertex
  | transition e => exact DeterministicGraph.Builder.mem_path.trans or_assoc.symm
  | tagStart d' name => exact (or_iff_right id).symm
  | tagEnd d' name => exact (or_iff_right id).symm
  | tag t => exact (or_iff_right id).symm

/-- A call adds its transition, in place of another one. -/
lemma target?_call {d d' : D} {a : A} :
    (b.call c).graph.target? d a = some d' ↔
      .transition ⟨d, a, d'⟩ = c ∨ b.graph.target? d a = some d' ∧ ¬ c.Redirects d a := by
  cases c with
  | state s => simp [call, state, Call.Redirects]
  | transition e =>
      cases e
      simp only [call, transition, DeterministicGraph.Builder.target?_path, Call.Redirects]
      split
      next h => simp [h, eq_comm]
      next h =>
        simp only [not_and] at h
        simp_all
  | tagStart s name => simp [call, tagStart, Call.Redirects]
  | tagEnd s name => simp [call, tagEnd, Call.Redirects]
  | tag t => simp [call, tag, tagStart, tagEnd, Call.Redirects]

section Names

variable {marks : KeyMap D (KeySet T)} {d d' : D} {name name' : T}

@[simp] lemma mem_insert_names :
    d' ∈ marks.insert d ((marks.getD d ∅).insert name) ↔ d' = d ∨ d' ∈ marks := by
  rw [Std.ExtTreeMap.mem_insert, Key.compare_eq_iff, eq_comm]

/-- A name that is added is there besides those that were there before. -/
@[simp] lemma mem_getD_insert_names :
    name' ∈ (marks.insert d ((marks.getD d ∅).insert name)).getD d' ∅ ↔
      d' = d ∧ name' = name ∨ name' ∈ marks.getD d' ∅ := by
  rw [KeyMap.getD_insert]
  by_cases hd : d' = d
  · subst hd
    rw [if_pos rfl, Std.ExtTreeSet.mem_insert, Key.compare_eq_iff]
    simp [eq_comm]
  · simp [hd]

end Names

/-- A call brings the states of its tags. -/
@[simp] lemma mem_marks_call {side : Side} {d : D} :
    d ∈ (b.call c).marks side ↔ (∃ name, c.Marks side d name) ∨ d ∈ b.marks side := by
  cases c <;> cases side <;>
    simp only [call, state, transition, tagStart, tagEnd, tag, marks, Call.Marks, mem_insert_names,
      exists_and_left, exists_eq, and_true, exists_false, false_or]

/-- A call lets its tags start or end in their states. -/
lemma mem_names_call {side : Side} {d : D} {name : T} :
    name ∈ ((b.call c).marks side).getD d ∅ ↔
      c.Marks side d name ∨ name ∈ (b.marks side).getD d ∅ := by
  cases c <;> cases side <;>
    simp [call, state, transition, tagStart, tagEnd, tag, marks, Call.Marks]

/-- One more call adds what it says. -/
lemma Holds.call (h : b.Holds initial calls) : (b.call c).Holds initial (calls ++ [c]) where
  initial_eq := by cases c <;> exact h.initial_eq
  mem_iff d := by rw [mem_call, h.mem_iff, Defined, definedBy_append_singleton]
  target?_iff d a d' := by rw [target?_call, h.target?_iff, takes_append_singleton]
  mem_marks_iff side d := by
    simp only [mem_marks_call, h.mem_marks_iff, marked_append_singleton, exists_or]
  mem_names_iff side d name := by
    rw [mem_names_call, h.mem_names_iff, marked_append_singleton]

/-- After some calls a builder has what they come to. -/
lemma holds_ofCalls (initial : D) (calls : List (Call D A T)) :
    (ofCalls initial calls).Holds initial calls := by
  induction calls using List.reverseRecOn with
  | nil =>
      refine ⟨rfl, fun d => ?_, fun d a d' => ?_, fun side d => ?_, fun side d name => ?_⟩
      · refine DeterministicGraph.Builder.mem_vertex.trans ?_
        simp [DefinedBy]
      · show (({} : DeterministicGraph.Builder D A).vertex initial).target? d a = some d' ↔ _
        rw [DeterministicGraph.Builder.target?_vertex]
        simp [DeterministicGraph.Builder.target?, Takes]
      · cases side <;> simp [ofCalls, ofInitial, marks, Marked]
      · cases side <;> simp [ofCalls, ofInitial, marks, Marked]
  | append_singleton calls c ih =>
      rw [ofCalls, List.foldl_append]
      exact ih.call

end Builder

/-! #### Checking the tags -/

namespace Builder

variable {b : Builder D A T} {g : DeterministicGraph D A} {marks : KeyMap D (KeySet T)} {d : D}
  {u : Undefined D A} {m : Dfa D A T}

/-- Of the states with tags that are missing the least is found. -/
lemma missing?_eq_some_iff :
    missing? g marks = some d ↔ (d ∈ marks ∧ ¬ g.contains d = true) ∧
      ∀ d', d' ∈ marks ∧ ¬ g.contains d' = true → (compare d d').isLE := by
  rw [missing?, find?_eq_some_iff_of_pairwise Std.ExtTreeMap.ordered_keys]
  simp only [Std.ExtTreeMap.mem_keys, Bool.not_eq_true', Bool.not_eq_true]

lemma missing?_eq_none_iff : missing? g marks = none ↔ ∀ d ∈ marks, g.contains d = true := by
  rw [missing?, List.find?_eq_none]
  simp only [Std.ExtTreeMap.mem_keys, Bool.not_eq_true', Bool.not_eq_false]

/-- An automaton with a graph and an initial state fails by its tags only, those that start somewhere before
those that end there. -/
lemma build_eq_error_iff_of_graph (hg : b.graph.build = .ok g) (hi : g.contains b.initial = true) :
    b.build = .error u ↔ (∃ d, missing? g (b.marks .start) = some d ∧ u = .tagStart d) ∨
      missing? g (b.marks .start) = none ∧ ∃ d, missing? g (b.marks .stop) = some d ∧ u = .tagEnd d := by
  rw [build, hg]
  simp only [hi, ↓reduceDIte, Builder.marks]
  split
  next d hd => simp [hd, eq_comm]
  next hstart =>
    split
    next d hd => simp [hstart, hd, eq_comm]
    next hstop => simp [hstart, hstop]

/-- An automaton with a graph and an initial state is built if no state of its tags is missing. -/
lemma exists_build_iff_of_graph (hg : b.graph.build = .ok g) (hi : g.contains b.initial = true) :
    (∃ m, b.build = .ok m) ↔ ∀ side, missing? g (b.marks side) = none := by
  rw [exists_ok_iff]
  simp only [ne_eq, build_eq_error_iff_of_graph hg hi]
  constructor
  · intro hok
    have hstart : missing? g (b.marks .start) = none :=
      Option.eq_none_iff_forall_ne_some.2 fun d hd => hok (.tagStart d) (Or.inl ⟨d, hd, rfl⟩)
    rintro (_ | _)
    · exact hstart
    · exact Option.eq_none_iff_forall_ne_some.2 fun d hd =>
        hok (.tagEnd d) (Or.inr ⟨hstart, d, hd, rfl⟩)
  · rintro hnone u (⟨d, hd, -⟩ | ⟨-, d, hd, -⟩)
    · simp [hnone] at hd
    · simp [hnone] at hd

/-- An automaton has the parts that were collected. -/
lemma parts_of_build (hg : b.graph.build = .ok g) (h : b.build = .ok m) :
    m.initial = b.initial ∧ m.graph = g ∧ m.starting = b.starting ∧ m.ending = b.ending := by
  rw [build, hg] at h
  dsimp only at h
  split at h
  next =>
    split at h
    next => cases h
    next =>
      split at h
      next => cases h
      next =>
        cases h
        exact ⟨rfl, rfl, rfl, rfl⟩
  next => cases h

end Builder

/-! #### Building -/

namespace Builder.Holds

variable {b : Builder D A T} {initial : D} {calls : List (Call D A T)}

/-- Transitions enter states, so only the tags are left to be checked. -/
lemma exists_graph (h : b.Holds initial calls) :
    ∃ g, b.graph.build = .ok g ∧ (∀ d, g.contains d = true ↔ Defined initial calls d) ∧
      ∀ d a d', g.target? d a = some d' ↔ Takes calls ⟨d, a, d'⟩ := by
  -- The transition may have taken the place of others, but the ends of all of them have become states.
  have htarget : ∀ d a d', b.graph.target? d a = some d' → d' ∈ b.graph.adjacency := fun d a d' hd => by
    obtain ⟨before, after, hcalls, -⟩ := (h.target?_iff d a d').1 hd
    exact (h.mem_iff d').2 (Or.inr ⟨.transition ⟨d, a, d'⟩, by simp [hcalls], Or.inr rfl⟩)
  obtain ⟨g, hg, hadj⟩ := DeterministicGraph.Builder.exists_build htarget
  refine ⟨g, hg, fun d => ?_, fun d a d' => ?_⟩
  · rw [DeterministicGraph.contains, Std.ExtTreeMap.contains_iff_mem, hadj, h.mem_iff]
  · rw [DeterministicGraph.target?_eq, hadj]
    exact h.target?_iff d a d'

/-- What is built has all that the calls come to. -/
lemma collects (h : b.Holds initial calls) {m : Dfa D A T} (hm : b.build = .ok m) :
    m.Collects initial (Defined initial calls) calls := by
  obtain ⟨g, hg, hcontains, htargets⟩ := h.exists_graph
  obtain ⟨hinitial, rfl, hstarting, hending⟩ := parts_of_build hg hm
  refine ⟨hinitial.trans h.initial_eq, hcontains, htargets, fun side d name => ?_⟩
  rw [← h.mem_names_iff]
  cases side with
  | start => rw [tagsAt, tagsStarting, hstarting, marks]
  | stop => rw [tagsAt, tagsEnding, hending, marks]

/-- Building fails with the least undefined state in which a tag starts, or else the least in which one
ends. -/
lemma build_eq_error_iff (h : b.Holds initial calls) {u : Undefined D A} :
    b.build = .error u ↔ FirstUndefined initial calls u := by
  obtain ⟨g, hg, hcontains, -⟩ := h.exists_graph
  have hi : g.contains b.initial = true := (hcontains _).2 (Or.inl h.initial_eq)
  have hfault : ∀ side d, Unfounded initial calls side d ↔ d ∈ b.marks side ∧ ¬ g.contains d = true :=
    fun side d => by rw [Unfounded, h.mem_marks_iff, hcontains]
  have hleast : ∀ side d, missing? g (b.marks side) = some d ↔ Unfounded initial calls side d ∧
      ∀ d', Unfounded initial calls side d' → (compare d d').isLE := fun side d => by
    rw [missing?_eq_some_iff]
    simp only [hfault]
  have hnone : missing? g (b.marks .start) = none ↔ ∀ d, ¬ Unfounded initial calls .start d := by
    rw [missing?_eq_none_iff]
    exact forall_congr' fun d => by rw [hfault, not_and_not_right]
  simp only [build_eq_error_iff_of_graph hg hi, hleast, hnone]
  cases u <;> simp [FirstUndefined]

/-- Building succeeds if the tags are on defined states. -/
lemma exists_build_iff (h : b.Holds initial calls) :
    (∃ m, b.build = .ok m) ↔ ∀ side d name, Marked calls side d name → Defined initial calls d := by
  obtain ⟨g, hg, hcontains, -⟩ := h.exists_graph
  rw [exists_build_iff_of_graph hg ((hcontains _).2 (Or.inl h.initial_eq))]
  simp only [missing?_eq_none_iff, h.mem_marks_iff, hcontains, forall_exists_index]

end Builder.Holds

/-- An automaton can be built once the missing states of its tags are added. -/
lemma exists_mended (initial : D) (calls : List (Call D A T)) (missing : List D)
    (hmissing : ∀ side d name, Marked calls side d name → Defined initial calls d ∨ d ∈ missing) :
    ∃ m, (Builder.ofCalls initial (calls ++ missing.map .state)).build = .ok m ∧
      m.Collects initial (fun d => Defined initial calls d ∨ d ∈ missing) calls := by
  have hdefined : ∀ d, Defined initial (calls ++ missing.map .state) d ↔
      Defined initial calls d ∨ d ∈ missing :=
    fun d => definedBy_append_map (fun _ _ => Iff.rfl) missing
  have hholds := Builder.holds_ofCalls initial (calls ++ missing.map .state)
  obtain ⟨m, hm⟩ := hholds.exists_build_iff.2 fun side d name hd => by
    rw [marked_append_states] at hd
    rw [hdefined]
    exact hmissing side d name hd
  obtain ⟨hinitial, hcontains, hnext, htags⟩ := hholds.collects hm
  refine ⟨m, hm, hinitial, fun d => ?_, fun d a d' => ?_, fun side d name => ?_⟩
  · rw [hcontains, hdefined]
  · rw [hnext, takes_append_states]
  · rw [htags, marked_append_states]

end Dfa

/-! ### Automata of both kinds -/

/-- Whatever has been added, an automaton of either kind is built if and only if its tags start and end in
defined states. It then has the defined states, and the transitions and the tags that were added. Otherwise
building names the first tag with an undefined state, or the least undefined state in which a tag starts and
else the least in which one ends, and it never fails for another reason. Once the missing states are added,
it succeeds with the same transitions and tags. -/
theorem builds_unless_tags_undefined {S A T D B U : Type} [Key S] [Key A] [Key D] [Key B] [Key U] :
    (∀ (initial : S) (calls : List (Nfa.Call S A T)),
      ((∃ m, (Nfa.Builder.ofCalls initial calls).build = .ok m) ↔ ∀ t ∈ Nfa.tagsOf calls,
        Nfa.Defined initial calls t.start ∧ Nfa.Defined initial calls t.stop) ∧
      (∀ m, (Nfa.Builder.ofCalls initial calls).build = .ok m →
        m.Collects initial (Nfa.Defined initial calls) calls) ∧
      (∀ u, (Nfa.Builder.ofCalls initial calls).build = .error u ↔ Nfa.FirstUndefined initial calls u) ∧
      ∀ missing : List S, (∀ t ∈ Nfa.tagsOf calls,
          (Nfa.Defined initial calls t.start ∨ t.start ∈ missing) ∧
          (Nfa.Defined initial calls t.stop ∨ t.stop ∈ missing)) →
        ∃ m, (Nfa.Builder.ofCalls initial (calls ++ missing.map .state)).build = .ok m ∧
          m.Collects initial (fun s => Nfa.Defined initial calls s ∨ s ∈ missing) calls) ∧
    ∀ (initial : D) (calls : List (Dfa.Call D B U)),
      ((∃ m, (Dfa.Builder.ofCalls initial calls).build = .ok m) ↔
        ∀ side d name, Dfa.Marked calls side d name → Dfa.Defined initial calls d) ∧
      (∀ m, (Dfa.Builder.ofCalls initial calls).build = .ok m →
        m.Collects initial (Dfa.Defined initial calls) calls) ∧
      (∀ u, (Dfa.Builder.ofCalls initial calls).build = .error u ↔ Dfa.FirstUndefined initial calls u) ∧
      ∀ missing : List D, (∀ side d name, Dfa.Marked calls side d name →
          Dfa.Defined initial calls d ∨ d ∈ missing) →
        ∃ m, (Dfa.Builder.ofCalls initial (calls ++ missing.map .state)).build = .ok m ∧
          m.Collects initial (fun d => Dfa.Defined initial calls d ∨ d ∈ missing) calls := by
  refine ⟨fun initial calls => ?_, fun initial calls => ?_⟩
  · have hholds := Nfa.Builder.holds_ofCalls initial calls
    exact ⟨hholds.exists_build_iff, fun m => hholds.collects, fun u => hholds.build_eq_error_iff,
      Nfa.exists_mended initial calls⟩
  · have hholds := Dfa.Builder.holds_ofCalls initial calls
    exact ⟨hholds.exists_build_iff, fun m => hholds.collects, fun u => hholds.build_eq_error_iff,
      Dfa.exists_mended initial calls⟩

end CaptureAutomata
