/-
Drawings are told by their texts:

* `Drawing.selfDelimiting_escapeChar`: inside the quotes of a label a character is told from what follows it;
* `Drawing.IsLabel`, `Drawing.isLabel_label`, `Drawing.label_inj`: the texts that stand there, and that values
  are told by them;
* `Drawing.arrow_inj`, `Drawing.Line.eq_of_render`: an arrow, and any line, is told by its text. Tags and
  transitions differ in what stands behind the label;
* `Drawing.eq_of_render`: so a drawing is told, line by line.
-/
import CaptureAutomata.Drawing
import CaptureAutomata.Proofs.Text.Quoting

namespace CaptureAutomata.Drawing

open Text

/-! ### Labels -/

/-- Inside the quotes of a label a character is told from what follows it, and none is a quote. -/
lemma selfDelimiting_escapeChar : SelfDelimiting '"' escapeChar where
  eq_of_append {a b r r'} h := by
    rw [escapeChar, escapeChar] at h
    split_ifs at h with ha hb hb
    · exact List.cons.inj (List.cons.inj h).2
    · exact absurd (Or.inl (List.cons.inj h).1.symm) hb
    · exact absurd (Or.inl (List.cons.inj h).1) ha
    · exact List.cons.inj h
  ne_stop a r r' h := by
    rw [escapeChar] at h
    split_ifs at h with ha
    · exact absurd (List.cons.inj h).1 (by decide)
    · exact ha (Or.inr (List.cons.inj h).1)

/-- The text may stand inside the quotes of a label, on one line. -/
def IsLabel (s : String) : Prop :=
  ∃ cs : List Char, '\n' ∉ cs ∧ s.toList = cs.flatMap escapeChar

/-- Two labels and what stands behind their quotes are told. -/
lemma IsLabel.eq_of_append {s t : String} {r r' : List Char} (hs : IsLabel s) (ht : IsLabel t)
    (h : s.toList ++ '"' :: r = t.toList ++ '"' :: r') : s = t ∧ r = r' := by
  obtain ⟨cs, -, hs⟩ := hs
  obtain ⟨ds, -, ht⟩ := ht
  rw [hs, ht] at h
  obtain ⟨rfl, hr⟩ := selfDelimiting_escapeChar.eq_of_flatMap h
  exact ⟨String.toList_inj.1 (hs.trans ht.symm), hr⟩

/-- A label has no line break. -/
lemma IsLabel.newline_notMem {s : String} (hs : IsLabel s) : '\n' ∉ s.toList := by
  obtain ⟨cs, hcs, hs⟩ := hs
  rw [hs, List.mem_flatMap]
  rintro ⟨c, hc, h⟩
  rw [escapeChar] at h
  split_ifs at h
  · simp at h
    exact hcs (h ▸ hc)
  · simp at h
    exact hcs (h ▸ hc)

lemma isLabel_epsilon : IsLabel "ε" :=
  ⟨['ε'], by decide, by decide⟩

section Label

variable {α : Type} [Quoted α] [LawfulQuoted α]

lemma isLabel_label (a : α) : IsLabel (label a) :=
  ⟨(quote a).toList, LawfulQuoted.newline_notMem a, String.toList_ofList⟩

lemma label_inj {a b : α} (h : label a = label b) : a = b := by
  have heq : (quote a).toList.flatMap escapeChar = (quote b).toList.flatMap escapeChar :=
    String.ofList_inj.1 h
  have hquote := (selfDelimiting_escapeChar.eq_of_flatMap (congrArg (· ++ ['"']) heq)).1
  exact LawfulQuoted.quote_inj (String.toList_inj.1 hquote)

end Label

/-! ### Lines -/

/-- The text inside the quotes of a line. -/
def Line.text : Line → String
  | state label _ _ | transition _ _ label | tag _ _ label => label

/-- An arrow with a label, up to what stands behind the quotes of the label. -/
def arrow (i j : ℕ) (l : String) (rest : List Char) : List Char :=
  'i' :: 'd' :: ((toString i).toList ++ ' ' :: '-' :: '>' :: ' ' :: 'i' :: 'd' ::
    ((toString j).toList ++ ' ' :: '[' :: 'l' :: 'a' :: 'b' :: 'e' :: 'l' :: '=' :: '"' ::
      (l.toList ++ '"' :: rest)))

@[simp] lemma toList_render_transition (i j : ℕ) (l : String) :
    (Line.transition i j l).render.toList = arrow i j l [']'] := by
  show (node i ++ " -> " ++ node j ++ " [label=\"" ++ l ++ "\"]").toList = _
  simp [node, arrow]

@[simp] lemma toList_render_tag (i j : ℕ) (l : String) :
    (Line.tag i j l).render.toList = arrow i j l ", style=dashed]".toList := by
  show (node i ++ " -> " ++ node j ++ " [label=\"" ++ l ++ "\", style=dashed]").toList = _
  simp [node, arrow]

/-- The text of a state. -/
@[simp] lemma toList_render_state (l : String) (shape : Shape) (i : ℕ) :
    (Line.state l shape i).render.toList =
      "node[label=\"".toList ++ (l.toList ++ '"' ::
        (shape.render.toList ++ ']' :: ' ' :: 'i' :: 'd' :: (toString i).toList)) := by
  show ("node[label=\"" ++ l ++ "\"" ++ shape.render ++ "] " ++ node i).toList = _
  simp [node]

/-- The ends and the label of an arrow are told, and so is what stands behind it. -/
lemma arrow_inj {i j i' j' : ℕ} {l l' : String} {r r' : List Char} (hl : IsLabel l) (hl' : IsLabel l')
    (h : arrow i j l r = arrow i' j' l' r') : i = i' ∧ j = j' ∧ l = l' ∧ r = r' := by
  -- A number ends at the first space, the label at the first quote that is not part of an escape.
  simp only [arrow, List.cons.injEq, true_and] at h
  obtain ⟨hi, h⟩ := eq_of_append_cons (space_notMem_toString i) (space_notMem_toString i') h
  simp only [List.cons.injEq, true_and] at h
  obtain ⟨hj, h⟩ := eq_of_append_cons (space_notMem_toString j) (space_notMem_toString j') h
  simp only [List.cons.injEq, true_and] at h
  obtain ⟨hl, hr⟩ := hl.eq_of_append hl' h
  exact ⟨toList_toString_inj hi, toList_toString_inj hj, hl, hr⟩

/-- An arrow has no line break, up to what stands behind its label. -/
lemma newline_mem_arrow_iff {i j : ℕ} {l : String} {r : List Char} (hl : '\n' ∉ l.toList) :
    '\n' ∈ arrow i j l r ↔ '\n' ∈ r := by
  simp only [arrow, List.mem_cons, List.mem_append, newline_notMem_toString, hl, false_or]
  simp only [Char.reduceEq, false_or]

/-- The shape of a state and what stands behind it are told. -/
lemma shape_inj {shape shape' : Shape} {r r' : List Char}
    (h : shape.render.toList ++ ']' :: r = shape'.render.toList ++ ']' :: r') :
    shape = shape' ∧ r = r' := by
  have hbracket : ∀ shape : Shape, ']' ∉ shape.render.toList := fun shape => by
    cases shape <;> decide
  obtain ⟨hshape, hr⟩ := eq_of_append_cons (hbracket shape) (hbracket shape') h
  refine ⟨?_, hr⟩
  cases shape <;> cases shape' <;> first | rfl | exact absurd hshape (by decide)

/-- A line is told by its text. -/
lemma Line.eq_of_render {x y : Line} (hx : IsLabel x.text) (hy : IsLabel y.text)
    (h : x.render = y.render) : x = y := by
  have h : x.render.toList = y.render.toList := congrArg String.toList h
  -- States differ from arrows in their first character, tags from transitions in what stands behind the label.
  cases x with
  | state l shape i =>
      cases y with
      | state l' shape' i' =>
          rw [toList_render_state, toList_render_state, List.append_cancel_left_eq] at h
          obtain ⟨hl, h⟩ := hx.eq_of_append hy h
          obtain ⟨hshape, h⟩ := shape_inj h
          simp only [List.cons.injEq, true_and] at h
          exact congr (congr (congrArg state hl) hshape) (toList_toString_inj h)
      | transition => simp [arrow] at h
      | tag => simp [arrow] at h
  | transition i j l =>
      cases y with
      | state => simp [arrow] at h
      | transition i' j' l' =>
          rw [toList_render_transition, toList_render_transition] at h
          obtain ⟨rfl, rfl, rfl, -⟩ := arrow_inj hx hy h
          rfl
      | tag i' j' l' =>
          rw [toList_render_transition, toList_render_tag] at h
          exact absurd (arrow_inj hx hy h).2.2.2 (by decide)
  | tag i j l =>
      cases y with
      | state => simp [arrow] at h
      | transition i' j' l' =>
          rw [toList_render_tag, toList_render_transition] at h
          exact absurd (arrow_inj hx hy h).2.2.2 (by decide)
      | tag i' j' l' =>
          rw [toList_render_tag, toList_render_tag] at h
          obtain ⟨rfl, rfl, rfl, -⟩ := arrow_inj hx hy h
          rfl

/-- The text of a line has no line break. -/
lemma Line.newline_notMem_render {x : Line} (hx : IsLabel x.text) : '\n' ∉ x.render.toList := by
  have hlabel := hx.newline_notMem
  cases x with
  | state l shape i =>
      rw [toList_render_state]
      have hshape : '\n' ∉ shape.render.toList := by cases shape <;> decide
      simp only [List.mem_append, List.mem_cons, newline_notMem_toString, hshape, not_or]
      exact ⟨by decide, hlabel, by decide⟩
  | transition i j l =>
      rw [toList_render_transition, newline_mem_arrow_iff (l := l) hlabel]
      decide
  | tag i j l =>
      rw [toList_render_tag, newline_mem_arrow_iff (l := l) hlabel]
      decide

/-! ### Drawings -/

/-- The text of a drawing, character by character. -/
@[simp] lemma toList_render (lines : List Line) :
    (render lines).toList =
      "digraph \x7b\n".toList ++ (lines.flatMap (fun x => x.render.toList ++ ['\n']) ++ ['\x7d', '\n']) := by
  simp [render, String.toList_join, List.flatMap_map]

/-- No line is the one that closes a drawing. -/
lemma Line.render_ne_brace (x : Line) : x.render.toList ≠ ['\x7d'] := by
  cases x <;> simp [arrow]

/-- A drawing is told by its text. -/
lemma eq_of_render {xs ys : List Line} (hxs : ∀ x ∈ xs, IsLabel x.text) (hys : ∀ y ∈ ys, IsLabel y.text)
    (h : render xs = render ys) : xs = ys := by
  replace h := congrArg String.toList h
  rw [toList_render, toList_render, List.append_cancel_left_eq] at h
  -- A drawing has a line that closes it, and is no line of another kind, so two drawings end together.
  have hbrace : '\n' ∉ ['\x7d'] := by decide
  induction xs generalizing ys with
  | nil =>
      cases ys with
      | nil => rfl
      | cons y ys =>
          rw [List.flatMap_nil, List.flatMap_cons, List.append_assoc, List.append_assoc] at h
          have hclose := (eq_of_append_cons hbrace (Line.newline_notMem_render (hys y (by simp))) h).1
          exact absurd hclose.symm y.render_ne_brace
  | cons x xs ih =>
      have hx := Line.newline_notMem_render (hxs x (by simp))
      cases ys with
      | nil =>
          rw [List.flatMap_nil, List.flatMap_cons, List.append_assoc, List.append_assoc] at h
          exact absurd (eq_of_append_cons hx hbrace h).1 x.render_ne_brace
      | cons y ys =>
          simp only [List.flatMap_cons, List.append_assoc, List.cons_append, List.nil_append] at h
          obtain ⟨hline, hrest⟩ := eq_of_append_cons hx (Line.newline_notMem_render (hys y (by simp))) h
          have hhead := Line.eq_of_render (hxs x (by simp)) (hys y (by simp)) (String.toList_inj.1 hline)
          have htail := ih (fun z hz => hxs z (by simp [hz])) (fun z hz => hys z (by simp [hz])) hrest
          rw [hhead, htail]

end CaptureAutomata.Drawing
