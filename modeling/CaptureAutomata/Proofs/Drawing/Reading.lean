/-
The text of a drawing is read as the lines that were drawn:

* `Drawing.Escapes`: what is written between quotes for a text;
* `Drawing.scan_node`, `Drawing.scan_label`, `Drawing.scan_line`: the tokens of a name, of a label in its
  quotes, and of a line. What is read between quotes is the text that was escaped there;
* `Drawing.read_line`: what a line does to the nodes;
* `Drawing.readNodes_render`: so reading a drawing does what its lines do, one after the other;
* `Drawing.Canvas.nodes_drawn_of_first`: a node keeps the attributes that are set when it is mentioned first.
-/
import CaptureAutomata.Drawing.Reading
import CaptureAutomata.Proofs.Drawing.Lines

namespace CaptureAutomata.Drawing

/-! ### Escapes -/

/-- The text `s` is written between quotes for `raw`. -/
def Escapes (s raw : String) : Prop :=
  s.toList = raw.toList.flatMap escapeChar

lemma Escapes.append {s t raw raw' : String} (hs : Escapes s raw) (ht : Escapes t raw') :
    Escapes (s ++ t) (raw ++ raw') := by
  rw [Escapes, String.toList_append, String.toList_append, List.flatMap_append, hs, ht]

/-- A text without quotes and backslashes stands for itself. -/
lemma escapes_self {s : String} (h : ∀ c ∈ s.toList, ¬ (c = '\\' ∨ c = '"')) : Escapes s s := by
  have hplain : ∀ c ∈ s.toList, escapeChar c = [c] := fun c hc => if_neg (h c hc)
  rw [Escapes, List.flatMap_congr hplain, List.flatMap_singleton']

/-- What is written for several texts stands for all of them. -/
lemma escapes_intercalate {α : Type} {f g : α → String} {sep : String} {l : List α} (hsep : Escapes sep sep)
    (h : ∀ a ∈ l, Escapes (f a) (g a)) :
    Escapes (sep.intercalate (l.map f)) (sep.intercalate (l.map g)) := by
  induction l with
  | nil => exact escapes_self (by simp)
  | cons a l ih =>
      have ha := h a (.head _)
      have hl := ih fun b hb => h b (.tail _ hb)
      cases l with
      | nil => simpa using ha
      | cons b l =>
          simp only [List.map_cons, String.intercalate_cons_cons] at hl ⊢
          exact (ha.append hsep).append hl

/-! ### Tokens -/

section Scan

variable {p p' p'' : ScanPlace} {cs ds : List Char} {ts us : List Token}

/-- Going over characters goes on where it stopped. -/
lemma scan_append (h : scan p cs = some (ts, p')) (h' : scan p' ds = some (us, p'')) :
    scan p (cs ++ ds) = some (ts ++ us, p'') := by
  induction cs generalizing p ts with
  | nil =>
      cases h
      exact h'
  | cons c cs ih =>
      obtain ⟨⟨ts₁, p₁⟩, h₁, h⟩ := Option.bind_eq_some_iff.1 h
      obtain ⟨⟨ts₂, p₂⟩, h₂, h⟩ := Option.bind_eq_some_iff.1 h
      cases h
      rw [List.cons_append, scan, h₁, List.append_assoc]
      simp [ih h₂]

/-- A name goes on with what may stand in it. -/
lemma scan_inName (text : List Char) (h : ∀ c ∈ cs, continuesName c = true) :
    scan (.inName text) cs = some ([], .inName (text ++ cs)) := by
  induction cs generalizing text with
  | nil => simp [scan]
  | cons c cs ih =>
      have hc : scan (.inName text) [c] = some ([], .inName (text ++ [c])) := by
        simp [scan, ScanPlace.step, h c (.head _)]
      have hcs := ih (text ++ [c]) fun d hd => h d (.tail _ hd)
      rw [List.append_assoc] at hcs
      exact scan_append hc hcs

/-- The name of a state ends at a space or a line break. -/
lemma scan_node (id : Nat) {c : Char} (hc : c = ' ' ∨ c = '\n') :
    scan .outside ((node id).toList ++ [c]) = some ([.name (node id)], .outside) := by
  have hdigits : ∀ d ∈ (toString id).toList, continuesName d = true := fun d hd => by
    rw [Nat.toString_eq_ofList_toDigits, String.toList_ofList] at hd
    rw [continuesName, Nat.isDigit_of_mem_toDigits (by decide) (by decide) hd, Bool.or_true]
  have hnode : (node id).toList = ['i', 'd'] ++ (toString id).toList := by simp [node]
  have hname : String.ofList (['i', 'd'] ++ (toString id).toList) = node id := by
    rw [← hnode, String.ofList_toList]
  have hstart : scan .outside ['i', 'd'] = some ([], .inName ['i', 'd']) := by decide
  have hend : ∀ text, scan (.inName text) [c] = some ([.name (String.ofList text)], .outside) := by
    rcases hc with rfl | rfl <;> exact fun text => rfl
  rw [hnode, List.append_assoc, ← hname]
  exact scan_append hstart (scan_append (scan_inName _ hdigits) (hend _))

/-- Between quotes, the characters are read that were escaped. -/
lemma scan_inQuotes (text cs : List Char) :
    scan (.inQuotes text) (cs.flatMap escapeChar) = some ([], .inQuotes (text ++ cs)) := by
  induction cs generalizing text with
  | nil => simp [scan]
  | cons c cs ih =>
      have hc : scan (.inQuotes text) (escapeChar c) = some ([], .inQuotes (text ++ [c])) := by
        rw [escapeChar]
        split_ifs with h
        · simp [scan, ScanPlace.step, h]
        · obtain ⟨hback, hquote⟩ := not_or.1 h
          simp [scan, ScanPlace.step, hback, hquote]
      have hcs := ih (text ++ [c])
      rw [List.append_assoc] at hcs
      exact scan_append hc hcs

/-- A label in its quotes is read as the text that was escaped. -/
lemma scan_label {s raw : String} (h : Escapes s raw) :
    scan (.inQuotes []) (s.toList ++ ['"']) = some ([.quoted raw], .outside) := by
  rw [h]
  have hend : scan (.inQuotes raw.toList) ['"'] = some ([.quoted raw], .outside) := by
    simp [scan, ScanPlace.step]
  exact scan_append (scan_inQuotes [] raw.toList) hend

end Scan

/-! ### Lines -/

/-- The attributes of a shape, apart from the one that nodes have if nothing is said. -/
def Shape.attributes : Shape → List (String × String)
  | plain => []
  | box => [("shape", "box")]
  | doubleCircle => [("shape", "doublecircle")]

/-- The tokens of a shape. -/
def Shape.tokens (shape : Shape) : List Token :=
  shape.attributes.flatMap fun a => [.sign ',', .name a.1, .sign '=', .name a.2]

/-- The tokens of an arrow with the label `raw`, with `rest` behind the label. -/
def arrowTokens (source target : Nat) (raw : String) (rest : List Token) : List Token :=
  .name (node source) :: .arrow :: .name (node target) ::
    .sign '[' :: .name "label" :: .sign '=' :: .quoted raw :: rest

namespace Line

/-- The tokens of a line with the label `raw`. -/
def tokens (raw : String) : Line → List Token
  | state _ shape id =>
    .name "node" :: .sign '[' :: .name "label" :: .sign '=' :: .quoted raw ::
      (shape.tokens ++ [.sign ']'] ++ [.name (node id)])
  | transition source target _ => arrowTokens source target raw [.sign ']']
  | tag source target _ =>
    arrowTokens source target raw [.sign ',', .name "style", .sign '=', .name "dashed", .sign ']']

/-- What a line with the label `raw` does. -/
def actions (raw : String) : Line → List Action
  | state _ shape id => [.defaults (("label", raw) :: shape.attributes), .mention (node id)]
  | transition source target _ | tag source target _ => [.mention (node source), .mention (node target)]

end Line

/-- An arrow is scanned up to the quote behind its label. -/
lemma scan_arrow (source target : Nat) {l raw : String} {rest : List Char} {ts : List Token}
    (hl : Escapes l raw) (h : scan .outside rest = some (ts, .outside)) :
    scan .outside (arrow source target l rest) = some (arrowTokens source target raw ts, .outside) := by
  have hsplit : arrow source target l rest = ((node source).toList ++ [' ']) ++ ("-> ".toList ++
      (((node target).toList ++ [' ']) ++ ("[label=\"".toList ++
        ((l.toList ++ ['"']) ++ rest)))) := by
    simp [arrow, node]
  have harrow : scan .outside "-> ".toList = some ([.arrow], .outside) := by decide
  have hopen : scan .outside "[label=\"".toList =
      some ([.sign '[', .name "label", .sign '='], .inQuotes []) := by decide
  have hlabel := scan_append hopen (scan_append (scan_label hl) h)
  have htarget := scan_append (scan_node target (Or.inl rfl)) hlabel
  rw [hsplit]
  exact scan_append (scan_node source (Or.inl rfl)) (scan_append harrow htarget)

/-- A line is scanned up to its end. -/
lemma scan_line {x : Line} {raw : String} (h : Escapes x.text raw) :
    scan .outside (x.render.toList ++ ['\n']) = some (x.tokens raw, .outside) := by
  have hend : scan .outside ['\n'] = some ([], .outside) := by decide
  cases x with
  | state l shape id =>
      have hopen : scan .outside "node[label=\"".toList =
          some ([.name "node", .sign '[', .name "label", .sign '='], .inQuotes []) := by decide
      have hshape : scan .outside (shape.render.toList ++ "] ".toList) =
          some (shape.tokens ++ [.sign ']'], .outside) := by
        cases shape <;> decide
      have hsplit : (Line.state l shape id).render.toList ++ ['\n'] = "node[label=\"".toList ++
          ((l.toList ++ ['"']) ++ ((shape.render.toList ++ "] ".toList) ++
            ((node id).toList ++ ['\n']))) := by
        simp [node]
      rw [hsplit]
      exact scan_append hopen
        (scan_append (scan_label h) (scan_append hshape (scan_node id (Or.inr rfl))))
  | transition source target l =>
      rw [toList_render_transition]
      have hclose : scan .outside [']'] = some ([.sign ']'], .outside) := by decide
      have harrow := scan_append (scan_arrow source target h hclose) hend
      rwa [List.append_nil] at harrow
  | tag source target l =>
      rw [toList_render_tag]
      have hclose : scan .outside ", style=dashed]".toList =
          some ([.sign ',', .name "style", .sign '=', .name "dashed", .sign ']'], .outside) := by decide
      have harrow := scan_append (scan_arrow source target h hclose) hend
      rwa [List.append_nil] at harrow

/-! ### Statements -/

section Read

variable {p p' p'' : ReadPlace} {ts us : List Token} {as bs : List Action}

/-- Reading goes on where it stopped. -/
lemma read_append (h : read p ts = some (as, p')) (h' : read p' us = some (bs, p'')) :
    read p (ts ++ us) = some (as ++ bs, p'') := by
  induction ts generalizing p as with
  | nil =>
      cases h
      exact h'
  | cons t ts ih =>
      obtain ⟨⟨as₁, p₁⟩, h₁, h⟩ := Option.bind_eq_some_iff.1 h
      obtain ⟨⟨as₂, p₂⟩, h₂, h⟩ := Option.bind_eq_some_iff.1 h
      cases h
      rw [List.cons_append, read, h₁, List.append_assoc]
      simp [ih h₂]

/-- A statement, or the closing brace, may stand at this place. -/
def ReadPlace.Ready (p : ReadPlace) : Prop :=
  p = .statement ∨ ∃ s, p = .subject s

/-- Where a statement may stand, its first token is read as one. -/
lemma ReadPlace.Ready.step (hp : p.Ready) {t : Token} (ht : t ∉ [.sign '[', .arrow, .sign ';']) :
    p.step t = ReadPlace.start t := by
  rcases hp with rfl | ⟨s, rfl⟩
  · rfl
  · simp only [List.mem_cons, List.not_mem_nil, or_false, not_or] at ht
    rw [ReadPlace.step, if_neg ht.1, if_neg ht.2.1, if_neg ht.2.2]

/-- The name of a state is a name. -/
@[simp] lemma text?_node (id : Nat) : (Token.name (node id)).text? = some (node id) := by
  have hkeyword : ∀ word ∈ keywords, node id ≠ word := by
    intro word hword heq
    have hhead : word.toList.head? = some 'i' := by rw [← heq]; simp [node]
    have hall : ∀ word ∈ keywords, word.toList.head? ≠ some 'i' := by decide
    exact hall word hword hhead
  rw [Token.text?, if_neg fun h => hkeyword _ h rfl]

/-- The name of a state makes a node, wherever a statement may stand. -/
lemma ReadPlace.Ready.read_node (hp : p.Ready) (id : Nat) :
    read p [.name (node id)] = some ([.mention (node id)], .subject (.node (node id))) := by
  have hne : node id ≠ "node" := by
    intro heq
    have hhead := congrArg (·.toList.head?) heq
    simp [node] at hhead
  simp [read, hp.step, ReadPlace.start, hne]

/-- An arrow makes both its ends, and its attributes do nothing to the nodes. -/
lemma ReadPlace.Ready.read_arrow (hp : p.Ready) (source target : Nat) (raw : String)
    (h : read (.value .edge [("label", raw)]) ts = some ([], .statement)) :
    read p (arrowTokens source target raw ts) =
      some ([.mention (node source), .mention (node target)], .statement) := by
  have harrow : read (.subject (.node (node source))) [.arrow] = some ([], .arrow) := rfl
  have htarget : read .arrow [.name (node target)] = some ([.mention (node target)], .subject .edge) := by
    simp [read, ReadPlace.step]
  have hopen : read (.subject .edge) [.sign '[', .name "label", .sign '='] =
      some ([], .equals .edge [] "label") := rfl
  have hlabel : read (.equals .edge [] "label") [.quoted raw] =
      some ([], .value .edge [("label", raw)]) := rfl
  have hattributes := read_append hopen (read_append hlabel h)
  exact read_append (hp.read_node source) (read_append harrow (read_append htarget hattributes))

/-- A line does to the nodes what it says. -/
lemma read_line (x : Line) (raw : String) (hp : p.Ready) :
    ∃ p', p'.Ready ∧ read p (x.tokens raw) = some (x.actions raw, p') := by
  cases x with
  | state l shape id =>
      have hkeyword : read p [.name "node"] = some ([], .keyword) := by
        simp [read, hp.step, ReadPlace.start]
      have hattributes : read .keyword (.sign '[' :: .name "label" :: .sign '=' :: .quoted raw ::
          (shape.tokens ++ [.sign ']'])) =
            some ([.defaults (("label", raw) :: shape.attributes)], .statement) := by
        cases shape <;> rfl
      have hstatement : ReadPlace.statement.Ready := Or.inl rfl
      have hline := read_append hkeyword (read_append hattributes (hstatement.read_node id))
      simp only [List.append_assoc, List.cons_append, List.nil_append] at hline
      refine ⟨.subject (.node (node id)), Or.inr ⟨_, rfl⟩, ?_⟩
      simp only [Line.tokens, List.append_assoc, List.cons_append, List.nil_append]
      exact hline
  | transition source target l => exact ⟨_, Or.inl rfl, hp.read_arrow source target raw rfl⟩
  | tag source target l => exact ⟨_, Or.inl rfl, hp.read_arrow source target raw rfl⟩

end Read

/-! ### Drawings -/

/-- The lines of a drawing are scanned one after the other. -/
lemma scan_lines {xs : List (Line × String)} (h : ∀ x ∈ xs, Escapes x.1.text x.2) :
    scan .outside (xs.flatMap fun x => x.1.render.toList ++ ['\n']) =
      some (xs.flatMap fun x => x.1.tokens x.2, .outside) := by
  induction xs with
  | nil => rfl
  | cons x xs ih =>
      rw [List.flatMap_cons, List.flatMap_cons]
      exact scan_append (scan_line (h x (.head _))) (ih fun y hy => h y (.tail _ hy))

/-- The lines of a drawing are read one after the other. -/
lemma read_lines (xs : List (Line × String)) {p : ReadPlace} (hp : p.Ready) :
    ∃ p', p'.Ready ∧
      read p (xs.flatMap fun x => x.1.tokens x.2) = some (xs.flatMap fun x => x.1.actions x.2, p') := by
  induction xs generalizing p with
  | nil => exact ⟨p, hp, rfl⟩
  | cons x xs ih =>
      obtain ⟨p₁, hp₁, hx⟩ := read_line x.1 x.2 hp
      obtain ⟨p₂, hp₂, hxs⟩ := ih hp₁
      exact ⟨p₂, hp₂, read_append hx hxs⟩

/-- Reading the text of a drawing does what its lines do, one after the other. -/
lemma readNodes_render {xs : List (Line × String)} (h : ∀ x ∈ xs, Escapes x.1.text x.2) :
    readNodes (render (xs.map Prod.fst)) =
      some ((xs.flatMap fun x => x.1.actions x.2).foldl Canvas.act {}).nodes := by
  have hscan : scan .outside (render (xs.map Prod.fst)).toList =
      some (.name "digraph" :: .sign '\x7b' :: ((xs.flatMap fun x => x.1.tokens x.2) ++ [.sign '\x7d']),
        .outside) := by
    have hopen : scan .outside "digraph \x7b\n".toList =
        some ([.name "digraph", .sign '\x7b'], .outside) := by decide
    have hclose : scan .outside ['\x7d', '\n'] = some ([.sign '\x7d'], .outside) := by decide
    rw [toList_render, List.flatMap_map]
    exact scan_append hopen (scan_append (scan_lines h) hclose)
  have hopen : read .graph [.name "digraph", .sign '\x7b'] = some ([], .statement) := rfl
  obtain ⟨p, hp, hlines⟩ := read_lines xs (p := .statement) (Or.inl rfl)
  have hclose : read p [.sign '\x7d'] = some ([], .closed) := by
    simp [read, hp.step, ReadPlace.start]
  have hread := read_append hopen (read_append hlines hclose)
  simp only [List.append_nil, List.cons_append, List.nil_append] at hread
  rw [readNodes, hscan]
  simp only [Option.bind_eq_bind, Option.bind_some, hread, and_self, if_true]

/-! ### Nodes -/

namespace Canvas

/-- Nodes that are mentioned are made with the attributes that are set, unless they are there. -/
lemma foldl_mention (c : Canvas) (l : List String) :
    ((l.map .mention).foldl act c).defaults = c.defaults ∧
      ∀ k, ((l.map .mention).foldl act c).nodes[k]? =
        c.nodes[k]?.or (if k ∈ l then some c.defaults else none) := by
  induction l generalizing c with
  | nil => exact ⟨rfl, fun k => by simp⟩
  | cons n l ih =>
      obtain ⟨hdefaults, hnodes⟩ := ih (c.act (.mention n))
      refine ⟨hdefaults, fun k => (hnodes k).trans ?_⟩
      have hmention : (c.act (.mention n)).nodes[k]? =
          c.nodes[k]?.or (if k = n then some c.defaults else none) := by
        rw [act, Std.ExtTreeMap.getElem?_insertIfNew]
        by_cases hk : k = n
        · subst hk
          by_cases hmem : k ∈ c.nodes <;> simp [hmem]
        · have hne : compare n k ≠ .eq := fun h => hk (Key.compare_eq_iff.1 h).symm
          simp [hk, hne]
      rw [hmention, Option.or_assoc]
      by_cases hk : k = n <;> by_cases hl : k ∈ l <;> simp [hk, hl, act]

variable {α : Type} {attributes : α → List (String × String)} {names : α → List String}

/-- What is drawn for the members of a list, each of which sets attributes and then mentions nodes. -/
def drawn (attributes : α → List (String × String)) (names : α → List String) (l : List α) : Canvas :=
  (l.flatMap fun a => .defaults (attributes a) :: (names a).map .mention).foldl act {}

/-- One more member sets its attributes, and makes the nodes that it mentions and that are not there. -/
lemma drawn_append_singleton (l : List α) (a : α) :
    (drawn attributes names (l ++ [a])).defaults =
        (drawn attributes names l).defaults.insertMany (attributes a) ∧
      ∀ k, (drawn attributes names (l ++ [a])).nodes[k]? = (drawn attributes names l).nodes[k]?.or
        (if k ∈ names a then some (drawn attributes names (l ++ [a])).defaults else none) := by
  obtain ⟨hdefaults, hnodes⟩ :=
    ((drawn attributes names l).act (.defaults (attributes a))).foldl_mention (names a)
  have hdrawn : drawn attributes names (l ++ [a]) =
      ((names a).map .mention).foldl act ((drawn attributes names l).act (.defaults (attributes a))) := by
    rw [drawn, drawn, List.flatMap_append, List.foldl_append, List.flatMap_singleton, List.foldl_cons]
  rw [hdrawn]
  exact ⟨hdefaults, fun k => by rw [hnodes k, hdefaults]; rfl⟩

/-- A node is there if a member mentions it. -/
lemma mem_nodes_drawn_iff {l : List α} {k : String} :
    k ∈ (drawn attributes names l).nodes ↔ ∃ a ∈ l, k ∈ names a := by
  induction l using List.reverseRecOn with
  | nil => simp [drawn]
  | append_singleton l a ih =>
      have hnodes : (drawn attributes names (l ++ [a])).nodes[k]? = _ := (drawn_append_singleton l a).2 k
      rw [Std.ExtTreeMap.mem_iff_isSome_getElem?] at ih ⊢
      simp only [List.mem_append, List.mem_singleton, or_and_right, exists_or, exists_eq_left]
      rw [hnodes, Option.isSome_or, Bool.or_eq_true, ih]
      refine or_congr_right ?_
      split <;> simp [*]

/-- A node keeps the attributes that are set when the first member mentions it. -/
lemma nodes_drawn_of_first {before after : List α} {a : α} {k : String}
    (hbefore : ∀ b ∈ before, k ∉ names b) (ha : k ∈ names a) :
    (drawn attributes names (before ++ a :: after)).nodes[k]? =
      some (drawn attributes names (before ++ [a])).defaults := by
  induction after using List.reverseRecOn with
  | nil =>
      have hnone : (drawn attributes names before).nodes[k]? = none := by
        refine Std.ExtTreeMap.getElem?_eq_none fun hk => ?_
        obtain ⟨b, hb, hk⟩ := mem_nodes_drawn_iff.1 hk
        exact hbefore b hb hk
      rw [(drawn_append_singleton before a).2, hnone, Option.none_or, if_pos ha]
  | append_singleton after b ih =>
      rw [← List.cons_append, ← List.append_assoc, (drawn_append_singleton _ b).2, ih, Option.some_or]

end Canvas

end CaptureAutomata.Drawing
