/-
What the drawing of a deterministic automaton shows:

* `Dfa.caption`, `Dfa.Ends`, `Dfa.Shows`: the number and the tags of a state, whether a tag ends in it, and
  that its node has them as its label and a double circle as its shape;
* `Dfa.drawnLines`: the lines of a drawing with their labels, and `Dfa.readNodes_render_drawing`: what is read
  of them. Each state sets its own attributes for all nodes from then on, and mentions itself and the states
  that its transitions lead to;
* `Dfa.label_of_drawn`, `Dfa.shape_of_drawn`: the attributes that are set after some states;
* `Dfa.exists_attributes`: so a node has the label of the first state that mentions it;
* `Dfa.shows_iff`: a state is shown as it is if and only if no transition leads to it from an earlier state,
  and a tag ends in it if one ends in an earlier state.
-/
import CaptureAutomata.Proofs.Dfa.Build
import CaptureAutomata.Proofs.Drawing.Reading
import CaptureAutomata.Proofs.Outcome

namespace CaptureAutomata.Dfa

open Drawing

variable {D A T : Type} [Key D] [Key A] [Key T]

/-! ### Captions -/

/-- A tag ends in the state. -/
def Ends (m : Dfa D A T) (d : D) : Prop :=
  ∃ name, name ∈ m.tagsEnding d

/-- The lines of `d` mention `d'`, which is `d` itself or where one of its transitions leads. -/
def Mentions (m : Dfa D A T) (d d' : D) : Prop :=
  d' = d ∨ ∃ a, m.next? d a = some d'

section Caption

variable [Quoted T]

/-- Some names, between brackets. -/
def nameList (names : KeySet T) : String :=
  "[" ++ ",".intercalate (names.toList.map quote) ++ "]"

/-- The number of a state, and the tags that start and end in it. -/
def caption (m : Dfa D A T) (d : D) : String :=
  toString (m.stateId d) ++ " +" ++ nameList (m.tagsStarting d) ++ " -" ++ nameList (m.tagsEnding d)

/-- The node of the state has the caption of the state as its label, and is a double circle if and only if a
tag ends in the state. -/
def Shows (m : Dfa D A T) (nodes : KeyMap String Attributes) (d : D) : Prop :=
  ∃ attributes, nodes[node (m.stateId d)]? = some attributes ∧
    attributes["label"]? = some (m.caption d) ∧ (attributes["shape"]? = some "doublecircle" ↔ m.Ends d)

end Caption

variable {m : Dfa D A T} {d d' : D}

lemma stateId_inj (hd : d ∈ m.states) (h : m.stateId d = m.stateId d') : d = d' :=
  (List.idxOf_inj hd).1 h

lemma node_inj {i j : Nat} (h : node i = node j) : i = j := by
  have h := congrArg String.toList h
  simp only [node, String.toList_append, List.append_cancel_left_eq] at h
  exact toList_toString_inj h

lemma caption_inj [Quoted T] (hd : d ∈ m.states) (h : m.caption d = m.caption d') : d = d' := by
  have h := congrArg String.toList h
  simp only [caption, String.toList_append, List.append_assoc] at h
  have hnumber := (Text.eq_of_append_cons (space_notMem_toString _) (space_notMem_toString _) h).1
  exact stateId_inj hd (toList_toString_inj hnumber)

lemma mem_transitionsFrom_iff {p : A × D} : p ∈ m.transitionsFrom d ↔ m.next? d p.1 = some p.2 := by
  rw [transitionsFrom, Std.ExtTreeMap.mem_toList_iff_getElem?_eq_some, next?, DeterministicGraph.target?_eq]

/-- What a state mentions is a state. -/
lemma Mentions.mem_states (h : m.Mentions d d') (hd : d ∈ m.states) : d' ∈ m.states := by
  rcases h with rfl | ⟨a, ha⟩
  · exact hd
  · exact Std.ExtTreeMap.mem_keys.2 (m.graph.contains_of_target? ha)

/-! ### Lines -/

section Lines

variable [Quoted A] [Quoted T]

/-- The lines of a drawing with the texts of their labels. -/
def drawnLines (m : Dfa D A T) : List (Line × String) :=
  m.states.flatMap fun d => (m.stateLine d, m.caption d) ::
    (m.transitionsFrom d).map fun p => (.transition (m.stateId d) (m.stateId p.2) (label p.1), quote p.1)

lemma map_fst_drawnLines (m : Dfa D A T) : m.drawnLines.map Prod.fst = m.drawing := by
  simp [drawnLines, drawing, List.map_flatMap, Function.comp_def]

omit [Key A] [Key T] [Quoted T] in
lemma escapes_label (a : A) : Escapes (label a) (quote a) := String.toList_ofList

/-- What is written for the tags of a state is the list of their names. -/
lemma escapes_tagList (names : KeySet T) : Escapes (tagList names) (nameList names) := by
  have hopen : Escapes "[" "[" := escapes_self (by simp)
  have hcomma : Escapes "," "," := escapes_self (by simp)
  have hclose : Escapes "]" "]" := escapes_self (by simp)
  exact (hopen.append (escapes_intercalate hcomma fun name _ => escapes_label name)).append hclose

omit [Quoted A] in
/-- What is written for a state is its caption. -/
lemma escapes_stateLine (m : Dfa D A T) (d : D) : Escapes (m.stateLine d).text (m.caption d) := by
  have hnumber : Escapes (toString (m.stateId d)) (toString (m.stateId d)) := by
    refine escapes_self fun c hc hmark => ?_
    rcases hmark with rfl | rfl
    · exact notMem_toString (by decide) hc
    · exact notMem_toString (by decide) hc
  have hplus : Escapes " +" " +" := escapes_self (by simp)
  have hminus : Escapes " -" " -" := escapes_self (by simp)
  exact (((hnumber.append hplus).append (escapes_tagList _)).append hminus).append (escapes_tagList _)

/-- What is written in the lines of a drawing are the texts of their labels. -/
lemma escapes_of_mem_drawnLines {x : Line × String} (h : x ∈ m.drawnLines) : Escapes x.1.text x.2 := by
  obtain ⟨d, -, hx⟩ := List.mem_flatMap.1 h
  rcases List.mem_cons.1 hx with rfl | hx
  · exact m.escapes_stateLine d
  · obtain ⟨p, -, rfl⟩ := List.mem_map.1 hx
    exact escapes_label p.1

end Lines

/-! ### Attributes and nodes -/

section Drawn

variable [Quoted T]

/-- The attributes that a state sets for the nodes from then on. -/
def attributes (m : Dfa D A T) (d : D) : List (String × String) :=
  ("label", m.caption d) ::
    (if (m.tagsEnding d).isEmpty then Shape.plain else Shape.doubleCircle).attributes

omit [Quoted T] in
/-- The nodes that the lines of a state mention. -/
def mentioned (m : Dfa D A T) (d : D) : List String :=
  node (m.stateId d) ::
    (m.transitionsFrom d).flatMap fun p => [node (m.stateId d), node (m.stateId p.2)]

/-- What has been drawn after some states. -/
def drawn (m : Dfa D A T) (l : List D) : Canvas :=
  Canvas.drawn m.attributes m.mentioned l

/-- Reading the text of a drawing gives what has been drawn after all states. -/
lemma readNodes_render_drawing [Quoted A] (m : Dfa D A T) :
    readNodes (render m.drawing) = some (m.drawn m.states).nodes := by
  have hactions : (m.drawnLines.flatMap fun x => x.1.actions x.2) =
      m.states.flatMap fun d => .defaults (m.attributes d) :: (m.mentioned d).map .mention := by
    simp [drawnLines, List.flatMap_assoc, List.flatMap_map, List.map_flatMap, stateLine, Line.actions,
      attributes, mentioned]
  rw [← map_fst_drawnLines, readNodes_render fun x => escapes_of_mem_drawnLines, hactions, drawn,
    Canvas.drawn]

omit [Quoted T] in
/-- A state is mentioned by its own lines, and by those of the states with a transition to it. -/
lemma node_mem_mentioned_iff (hd' : d' ∈ m.states) :
    node (m.stateId d') ∈ m.mentioned d ↔ m.Mentions d d' := by
  have hnode : ∀ e, node (m.stateId d') = node (m.stateId e) ↔ d' = e := fun e =>
    ⟨fun h => stateId_inj hd' (node_inj h), fun h => by rw [h]⟩
  simp only [mentioned, List.mem_cons, List.mem_flatMap, List.not_mem_nil, or_false, hnode, Prod.exists,
    mem_transitionsFrom_iff]
  constructor
  · rintro (h | ⟨a, e, he, h | rfl⟩)
    · exact Or.inl h
    · exact Or.inl h
    · exact Or.inr ⟨a, he⟩
  · rintro (h | ⟨a, ha⟩)
    · exact Or.inl h
    · exact Or.inr ⟨a, d', ha, Or.inr rfl⟩

/-- A state sets its label, and its shape if a tag ends in it. -/
lemma defaults_drawn (m : Dfa D A T) (l : List D) (d : D) (key : String) :
    (m.drawn (l ++ [d])).defaults[key]? =
      if key = "shape" ∧ ¬ (m.tagsEnding d).isEmpty = true then some "doublecircle"
      else if key = "label" then some (m.caption d) else (m.drawn l).defaults[key]? := by
  have hinsert : ∀ (as : Attributes) (k v : String),
      (as.insert k v)[key]? = if key = k then some v else as[key]? := fun as k v => by
    rw [KeyMap.getElem?_insert]
    congr
  rw [drawn, (Canvas.drawn_append_singleton l d).1, attributes, Std.ExtTreeMap.insertMany_cons]
  cases (m.tagsEnding d).isEmpty with
  | true =>
      rw [if_pos rfl, if_neg fun h => h.2 rfl, Shape.attributes, Std.ExtTreeMap.insertMany_nil, hinsert]
      rfl
  | false =>
      rw [if_neg Bool.false_ne_true, Shape.attributes, Std.ExtTreeMap.insertMany_cons,
        Std.ExtTreeMap.insertMany_nil, hinsert, hinsert]
      by_cases hkey : key = "shape"
      · rw [if_pos hkey, if_pos ⟨hkey, Bool.false_ne_true⟩]
      · rw [if_neg hkey, if_neg (c := key = "shape" ∧ _) fun h => hkey h.1]
        rfl

/-- The label is that of the last state. -/
lemma label_of_drawn (m : Dfa D A T) (l : List D) (d : D) :
    (m.drawn (l ++ [d])).defaults["label"]? = some (m.caption d) := by
  rw [defaults_drawn, if_neg fun h => absurd h.1 (by decide), if_pos rfl]

/-- The shape is a double circle once there has been a state in which a tag ends. -/
lemma shape_of_drawn (m : Dfa D A T) (l : List D) :
    (m.drawn l).defaults["shape"]? = some "doublecircle" ↔ ∃ d ∈ l, m.Ends d := by
  induction l using List.reverseRecOn with
  | nil => simp [drawn, Canvas.drawn]
  | append_singleton l d ih =>
      have hends : m.Ends d ↔ ¬ (m.tagsEnding d).isEmpty = true := by
        rw [Ends, Std.ExtTreeSet.isEmpty_iff, Std.ExtTreeSet.eq_empty_iff_forall_not_mem, not_forall_not]
      simp only [List.mem_append, List.mem_singleton, or_and_right, exists_or, exists_eq_left]
      rw [defaults_drawn, ← ih]
      by_cases hd : m.Ends d
      · rw [if_pos ⟨rfl, hends.1 hd⟩]
        exact iff_of_true rfl (Or.inr hd)
      · rw [if_neg fun h => hd (hends.2 h.2), if_neg (by decide)]
        exact (or_iff_left hd).symm

end Drawn

/-! ### What is shown -/

section Shown

variable [Quoted T]

/-- The node of a state has the attributes that are set by the first state that mentions it. -/
lemma exists_attributes {before after : List D} {f : D} (hstates : m.states = before ++ f :: after)
    (hf : m.Mentions f d) (hbefore : ∀ e ∈ before, ¬ m.Mentions e d) :
    ∃ attributes, (m.drawn m.states).nodes[node (m.stateId d)]? = some attributes ∧
      attributes["label"]? = some (m.caption f) ∧
      (attributes["shape"]? = some "doublecircle" ↔ ∃ e ∈ before ++ [f], m.Ends e) := by
  have hmem : f ∈ m.states := by rw [hstates]; simp
  have hd := hf.mem_states hmem
  refine ⟨(m.drawn (before ++ [f])).defaults, ?_, m.label_of_drawn before f, m.shape_of_drawn _⟩
  rw [hstates]
  exact Canvas.nodes_drawn_of_first (fun e he h => hbefore e he ((node_mem_mentioned_iff hd).1 h))
    ((node_mem_mentioned_iff hd).2 hf)

/-- There is a node for each state, and no other. -/
lemma mem_nodes_iff {name : String} :
    name ∈ (m.drawn m.states).nodes ↔ ∃ d ∈ m.states, name = node (m.stateId d) := by
  rw [drawn, Canvas.mem_nodes_drawn_iff]
  constructor
  · rintro ⟨d, hd, hname⟩
    rcases List.mem_cons.1 hname with rfl | hname
    · exact ⟨d, hd, rfl⟩
    · obtain ⟨p, hp, hname⟩ := List.mem_flatMap.1 hname
      have htarget : m.Mentions d p.2 := Or.inr ⟨p.1, mem_transitionsFrom_iff.1 hp⟩
      rcases List.mem_pair.1 hname with rfl | rfl
      · exact ⟨d, hd, rfl⟩
      · exact ⟨p.2, htarget.mem_states hd, rfl⟩
  · rintro ⟨d, hd, rfl⟩
    exact ⟨d, hd, .head _⟩

omit [Quoted T] in
/-- A state that is mentioned is mentioned by a first one. -/
lemma exists_first {l : List D} (h : ∃ e ∈ l, m.Mentions e d) :
    ∃ before f after, l = before ++ f :: after ∧ m.Mentions f d ∧ ∀ e ∈ before, ¬ m.Mentions e d := by
  induction l with
  | nil => simp at h
  | cons e l ih =>
      by_cases he : m.Mentions e d
      · exact ⟨[], e, l, rfl, he, by simp⟩
      · have hl : ∃ e ∈ l, m.Mentions e d := by
          obtain ⟨e', hmem, he'⟩ := h
          rcases List.mem_cons.1 hmem with rfl | hmem
          · exact absurd he' he
          · exact ⟨e', hmem, he'⟩
        obtain ⟨before, f, after, rfl, hf, hbefore⟩ := ih hl
        exact ⟨e :: before, f, after, rfl, hf, List.forall_mem_cons.2 ⟨he, hbefore⟩⟩

omit [Quoted T] in
lemma notMem_before {before after : List D} (hstates : m.states = before ++ d :: after) : d ∉ before := by
  have hnodup : m.states.Nodup := Std.ExtTreeMap.nodup_keys
  rw [hstates] at hnodup
  exact fun hd => List.disjoint_of_nodup_append hnodup hd (.head _)

/-- A state that is shown as it is is not mentioned before its own lines. -/
lemma Shows.not_mentions {before after : List D} (h : m.Shows (m.drawn m.states).nodes d)
    (hstates : m.states = before ++ d :: after) : ∀ e ∈ before, ¬ m.Mentions e d := by
  intro e he hmentions
  obtain ⟨attributes, hnode, hlabel, -⟩ := h
  obtain ⟨before, f, between, rfl, hf, hbefore⟩ := exists_first ⟨e, he, hmentions⟩
  have hd : d ∈ m.states := by rw [hstates]; simp
  have hnotMem := notMem_before hstates
  rw [List.append_assoc] at hstates
  -- The node has the label of the first state that mentions it, and so this is the state itself.
  obtain ⟨attributes', hnode', hlabel', -⟩ := exists_attributes hstates hf hbefore
  obtain rfl : attributes = attributes' := Option.some.inj (hnode.symm.trans hnode')
  obtain rfl : d = f := caption_inj hd (Option.some.inj (hlabel.symm.trans hlabel'))
  exact hnotMem (by simp)

/-- A state is shown as it is if and only if no transition leads to it from an earlier state, and a tag ends
in it if one ends in an earlier state. -/
lemma shows_iff {before after : List D} (hstates : m.states = before ++ d :: after) :
    m.Shows (m.drawn m.states).nodes d ↔
      (∀ e ∈ before, ∀ a, m.next? e a ≠ some d) ∧ ((∃ e ∈ before, m.Ends e) → m.Ends d) := by
  constructor
  · intro h
    have hfirst := h.not_mentions hstates
    refine ⟨fun e he a ha => hfirst e he (Or.inr ⟨a, ha⟩), fun ⟨e, he, hends⟩ => ?_⟩
    obtain ⟨attributes, hnode, -, hshape⟩ := h
    obtain ⟨attributes', hnode', -, hshape'⟩ := exists_attributes hstates (Or.inl rfl) hfirst
    obtain rfl : attributes = attributes' := Option.some.inj (hnode.symm.trans hnode')
    exact hshape.1 (hshape'.2 ⟨e, List.mem_append_left _ he, hends⟩)
  · rintro ⟨hnext, hends⟩
    have hfirst : ∀ e ∈ before, ¬ m.Mentions e d := by
      rintro e he (rfl | ⟨a, ha⟩)
      · exact notMem_before hstates he
      · exact hnext e he a ha
    obtain ⟨attributes, hnode, hlabel, hshape⟩ := exists_attributes hstates (Or.inl rfl) hfirst
    refine ⟨attributes, hnode, hlabel, hshape.trans ⟨fun ⟨e, he, hend⟩ => ?_, fun hend => ⟨d, by simp, hend⟩⟩⟩
    rcases List.mem_append.1 he with he | he
    · exact hends ⟨e, he, hend⟩
    · rwa [List.mem_singleton.1 he] at hend

/-- All states are shown as they are if and only if no transition leads to a later state, and a tag ends in
each state behind one in which a tag ends. -/
lemma shows_states_iff :
    (∀ d ∈ m.states, m.Shows (m.drawn m.states).nodes d) ↔
      ∀ before d after, m.states = before ++ d :: after →
        (∀ e ∈ before, ∀ a, m.next? e a ≠ some d) ∧ ((∃ e ∈ before, m.Ends e) → m.Ends d) := by
  constructor
  · intro h before d after hstates
    exact (shows_iff hstates).1 (h d (by rw [hstates]; simp))
  · intro h d hd
    obtain ⟨before, after, hstates⟩ := List.append_of_mem hd
    exact (shows_iff hstates).2 (h before d after hstates)

end Shown

/-- The text of the drawing of an automaton can be read. There is a node for each state and no other. It is
made when it is mentioned first, in the lines of the state itself or of an earlier state with a transition to
it. Then it gets the caption of this first state as its label, and a double circle as its shape if a tag ends
in the first state or one before it. So the nodes of all states have the numbers and tags of their states if
and only if no transition leads to a later state, and a tag ends in each state behind one in which a tag
ends. -/
theorem drawing_shows_iff [Quoted A] [Quoted T] (m : Dfa D A T) :
    ∃ nodes, readNodes (render m.drawing) = some nodes ∧
      (∀ name, name ∈ nodes ↔ ∃ d ∈ m.states, name = node (m.stateId d)) ∧
      (∀ before f after d, m.states = before ++ f :: after → m.Mentions f d →
        (∀ e ∈ before, ¬ m.Mentions e d) →
          ∃ attributes, nodes[node (m.stateId d)]? = some attributes ∧
            attributes["label"]? = some (m.caption f) ∧
            (attributes["shape"]? = some "doublecircle" ↔ ∃ e ∈ before ++ [f], m.Ends e)) ∧
      ((∀ d ∈ m.states, m.Shows nodes d) ↔ ∀ before d after, m.states = before ++ d :: after →
        (∀ e ∈ before, ∀ a, m.next? e a ≠ some d) ∧ ((∃ e ∈ before, m.Ends e) → m.Ends d)) :=
  ⟨_, m.readNodes_render_drawing, fun _ => mem_nodes_iff,
    fun _ _ _ _ hstates hf hbefore => exists_attributes hstates hf hbefore, shows_states_iff⟩

/-- The automaton with a transition from 0 to 1 and a tag over it is drawn such that the node of 1 has the
label of 0. -/
theorem not_shows_of_later_target : ∃ m : Dfa Int Char String,
    (((Builder.ofInitial 0).transition 0 'a' 1).tag "t" 0 1).build = .ok m ∧
      ¬ ∃ nodes, readNodes (render m.drawing) = some nodes ∧ ∀ d ∈ m.states, m.Shows nodes d := by
  obtain ⟨m, hm, hstate, hlabels⟩ := exists_ok_of_decide
    (x := (((Builder.ofInitial 0).transition 0 'a' 1).tag "t" 0 1 : Builder Int Char String).build)
    (P := fun m => 1 ∈ m.states ∧ ∀ nodes ∈ readNodes (render m.drawing),
      (nodes[node (m.stateId 1)]?.bind (·["label"]?)) ≠ some (m.caption 1)) (by decide +kernel)
  refine ⟨m, hm, fun ⟨nodes, hread, hshows⟩ => ?_⟩
  obtain ⟨attributes, hnode, hlabel, -⟩ := hshows 1 hstate
  exact hlabels nodes hread (Option.bind_eq_some_iff.2 ⟨attributes, hnode, hlabel⟩)

end CaptureAutomata.Dfa
