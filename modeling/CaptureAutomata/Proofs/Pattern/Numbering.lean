/-
Groups are numbered as they are opened, and their tags are listed as they are closed:

* `ParenthesisScan.Sound`: the groups of a text are closed one after the other, each behind its opening
  parenthesis, and the opening parentheses are numbered from left to right; every step keeps this;
* `ParenthesisScan.Finds`: over some characters of a text a scan finds groups that stand at given sites,
  and leaves none of them open; `Pattern.finds` and one lemma for each kind of part say that this holds
  of a pattern and its sites;
* `Pattern.tags_of_groupsIn`: the tags of the automaton of a pattern are those of the groups that show in
  its text, one by one, and the main tag.
-/
import CaptureAutomata.Pattern.Parentheses
import CaptureAutomata.Proofs.Pattern.Enclosing
import CaptureAutomata.Proofs.Pattern.Sites

namespace CaptureAutomata

/-! ### Scans of any text -/

namespace ParenthesisScan

variable {s : ParenthesisScan} {c : Char} {cs : List Char}

/-- What holds of the groups that a scan has found, and of those that it has not seen closed. -/
structure Sound (s : ParenthesisScan) : Prop where
  /-- The opening parentheses were found from left to right. -/
  openings : s.openings.Pairwise (· < ·)
  /-- They have been passed. -/
  opening_lt : ∀ k ∈ s.openings, k < s.column
  /-- They are numbered in this order, each belongs to one group. -/
  numbered : ((s.closed.map fun x => (x.opening, x.number)) ++ s.pending).Perm (s.openings.zipIdx 1)
  /-- The groups were closed one after the other. -/
  closed : s.closed.Pairwise (·.closing < ·.closing)
  /-- They have been passed, and each was closed behind its opening parenthesis. -/
  closing_lt : ∀ x ∈ s.closed, x.opening < x.closing ∧ x.closing < s.column

/-- A character that is no parenthesis, or does not count as one, is passed. -/
lemma Sound.pass (h : s.Sound) (place : Surroundings) :
    Sound { s with surroundings := place, column := s.column + 1 } where
  openings := h.openings
  opening_lt k hk := (h.opening_lt k hk).trans (Nat.lt_succ_self _)
  numbered := h.numbered
  closed := h.closed
  closing_lt x hx := (h.closing_lt x hx).imp_right fun hlt => hlt.trans (Nat.lt_succ_self _)

/-- The column of a group that is not closed is that of an opening parenthesis. -/
lemma Sound.lt_of_mem_pending (h : s.Sound) {k i : Nat} (hk : (k, i) ∈ s.pending) : k < s.column := by
  have hmem := h.numbered.mem_iff.1 (List.mem_append_right _ hk)
  exact h.opening_lt k (List.fst_mem_of_mem_zipIdx hmem)

/-- An opening parenthesis has the next number. -/
lemma Sound.open (h : s.Sound) (place : Surroundings) : Sound ⟨place, s.column + 1,
    s.openings ++ [s.column], (s.column, s.openings.length + 1) :: s.pending, s.closed⟩ where
  openings := List.pairwise_append.2 ⟨h.openings, List.pairwise_singleton _ _, fun k hk j hj => by
    rw [List.mem_singleton.1 hj]
    exact h.opening_lt k hk⟩
  opening_lt k hk := by
    rcases List.mem_append.1 hk with hk | hk
    · exact (h.opening_lt k hk).trans (Nat.lt_succ_self _)
    · rw [List.mem_singleton.1 hk]
      exact Nat.lt_succ_self _
  numbered := by
    rw [List.zipIdx_append]
    refine (List.perm_middle.trans (h.numbered.cons _)).trans ?_
    rw [List.zipIdx_singleton, Nat.add_comm]
    exact (List.perm_append_singleton _ _).symm
  closed := h.closed
  closing_lt x hx := (h.closing_lt x hx).imp_right fun hlt => hlt.trans (Nat.lt_succ_self _)

/-- A closing parenthesis closes the innermost group. -/
lemma Sound.close (h : s.Sound) (place : Surroundings) {k i : Nat} {pending : List (Nat × Nat)}
    (hp : s.pending = (k, i) :: pending) : Sound ⟨place, s.column + 1, s.openings, pending,
      s.closed ++ [⟨i, k, s.column⟩]⟩ where
  openings := h.openings
  opening_lt j hj := (h.opening_lt j hj).trans (Nat.lt_succ_self _)
  numbered := by
    have hsame := h.numbered
    rw [hp, List.append_cons] at hsame
    rwa [List.map_append]
  closed := List.pairwise_append.2 ⟨h.closed, List.pairwise_singleton _ _, fun x hx y hy => by
    rw [List.mem_singleton.1 hy]
    exact (h.closing_lt x hx).2⟩
  closing_lt x hx := by
    rcases List.mem_append.1 hx with hx | hx
    · exact (h.closing_lt x hx).imp_right fun hlt => hlt.trans (Nat.lt_succ_self _)
    · rw [List.mem_singleton.1 hx]
      exact ⟨h.lt_of_mem_pending (by rw [hp]; exact List.mem_cons_self), Nat.lt_succ_self _⟩

/-- Every character keeps a scan sound. -/
lemma Sound.step (h : s.Sound) (c : Char) : (s.step c).Sound := by
  rw [ParenthesisScan.step.eq_def]
  split
  next => exact h.open _
  next hp => exact h.close _ hp
  next => exact h.pass _

/-- A scan of a text is sound. -/
lemma sound_run (text : List Char) : (run {} text).Sound := by
  have hrun : ∀ {s : ParenthesisScan}, s.Sound → (s.run text).Sound := by
    intro s hs
    induction text generalizing s with
    | nil => exact hs
    | cons c text ih => exact ih (hs.step c)
  exact hrun ⟨.nil, by simp, .nil, .nil, by simp⟩

end ParenthesisScan

/-! ### Written groups and sites -/

/-- The name that is written in a header, if there is one. -/
def Header.written : Header → Option String
  | anonymous => none
  | angled name | quoted name => some name

/-- A group has the name that is written in its header, or else its number. -/
lemma Header.name_eq_getD (header : Header) (i : Nat) :
    header.name i = header.written.getD (toString i) := by
  cases header <;> rfl

/-- What stands in front of the mark behind a name is the name. -/
lemma Header.takeWhile_name {name : List Char} (h : IsName name) (marks : NameMarks) (cs : List Char) :
    (name ++ marks.closing :: cs).takeWhile (· ≠ marks.closing) = name := by
  have hall : ∀ c ∈ name, decide (c ≠ marks.closing) = true := fun c hc =>
    decide_eq_true (Reader.closing_of_continuesName marks (h.2 c hc)).1
  rw [List.takeWhile_append_of_pos hall, List.takeWhile_cons_of_neg (by simp), List.append_nil]

/-- A header that is not empty is a name between two marks. -/
lemma Header.eq_anonymous_or {header : Header} (h : header.WellFormed) :
    header = .anonymous ∨ ∃ (marks : NameMarks) (name : List Char), IsName name ∧
      header = marks.header name ∧ header.written = some (String.ofList name) := by
  cases header with
  | anonymous => exact Or.inl rfl
  | angled name =>
      refine Or.inr ⟨.angles, name.toList, h, ?_, ?_⟩
      · rw [NameMarks.header, String.ofList_toList]
      · rw [String.ofList_toList, written]
  | quoted name =>
      refine Or.inr ⟨.quotes, name.toList, h, ?_, ?_⟩
      · rw [NameMarks.header, String.ofList_toList]
      · rw [String.ofList_toList, written]

/-- The name that is written in a header is found at the start of its group. -/
lemma Header.nameAtStart_append {header : Header} (h : header.WellFormed) {body : List Char}
    (hb : Reader.Unquantified body) : nameAtStart (header.text ++ body) = header.written := by
  rcases eq_anonymous_or h with rfl | ⟨marks, name, hname, rfl, hwritten⟩
  · show nameAtStart body = none
    rw [nameAtStart.eq_def]
    split
    next => cases hb '?' rfl
    next => cases hb '?' rfl
    next => rfl
  · have htake := congrArg String.ofList (takeWhile_name hname marks body)
    rw [hwritten, NameMarks.text_header, ← htake, List.append_assoc, List.append_assoc]
    cases marks <;> rfl

namespace WrittenGroup

/-- The group at a site is the one that is written. -/
structure StandsFor (x : WrittenGroup) (text : List Char) (y : Pattern.Site) : Prop where
  /-- Its body stands between the parentheses, behind the header. -/
  body_suffix : y.body.text <:+ x.inside text
  /-- It has the name that is written there, or else the number. -/
  name_eq : y.name = x.name text
  /-- What is written there as a name is one. -/
  isName : ∀ name, x.name? text = some name → IsName name.toList

/-- The header and the body of a group stand between its parentheses. -/
lemma standsFor_group {header : Header} {body : Pattern} (hh : header.WellFormed)
    (hb : body.WellFormed) {text : List Char} {k : Nat}
    (ht : '(' :: (header.text ++ body.text) <+: text.drop k) (i source n : Nat) :
    StandsFor ⟨i, k, k + 1 + (header.text ++ body.text).length⟩ text
      ⟨header.name i, source, n, body⟩ := by
  have hinside : inside ⟨i, k, k + 1 + (header.text ++ body.text).length⟩ text =
      header.text ++ body.text := by
    obtain ⟨rest, hrest⟩ := ht
    rw [inside, List.extract_eq_take_drop, Nat.add_sub_cancel_left, ← List.drop_drop, ← hrest]
    exact List.take_left
  have hend : Reader.Unquantified [] := fun c hc => by cases hc
  have hname : name? ⟨i, k, k + 1 + (header.text ++ body.text).length⟩ text = header.written := by
    rw [name?, hinside]
    exact Header.nameAtStart_append hh (List.append_nil body.text ▸ Pattern.unquantified_text hb hend)
  refine ⟨?_, ?_, fun name hw => ?_⟩
  · rw [hinside]
    exact List.suffix_append _ _
  · rw [name, hname, Header.name_eq_getD]
  · rw [hname] at hw
    rcases Header.eq_anonymous_or hh with rfl | ⟨marks, w, hisName, -, hwritten⟩
    · cases hw
    · obtain rfl := Option.some.inj (hwritten.symm.trans hw)
      rwa [String.toList_ofList]

end WrittenGroup

/-! ### Scans of patterns -/

namespace ParenthesisScan

variable {text : List Char} {s : ParenthesisScan} {c : Char} {cs ds : List Char}

/-- Over some characters of a text, a scan that stands outside of all classes finds `k` groups and leaves
none of them open; in the order in which they are closed, they are those at the given sites. -/
def Finds (text : List Char) (s : ParenthesisScan) (cs : List Char) (k : Nat)
    (sites : List Pattern.Site) : Prop :=
  ∃ openings groups,
    s.run cs =
      ⟨.outside, s.column + cs.length, s.openings ++ openings, s.pending, s.closed ++ groups⟩ ∧
    openings.length = k ∧ List.Forall₂ (fun x y => WrittenGroup.StandsFor x text y) groups sites

/-- What is found over some characters and over those behind them is found over all of them. -/
lemma Finds.append {k j : Nat} {sites sites' : List Pattern.Site} (h : s.Finds text cs k sites)
    (h' : ∀ s' : ParenthesisScan, s'.surroundings = .outside → s'.column = s.column + cs.length →
      s'.openings.length = s.openings.length + k → s'.Finds text ds j sites') :
    s.Finds text (cs ++ ds) (k + j) (sites ++ sites') := by
  obtain ⟨openings, groups, hrun, hlen, hsites⟩ := h
  obtain ⟨openings', groups', hrun', hlen', hsites'⟩ :=
    h' (s.run cs) (by rw [hrun]) (by rw [hrun]) (by rw [hrun, List.length_append, hlen])
  refine ⟨openings ++ openings', groups ++ groups', ?_, ?_, List.rel_append hsites hsites'⟩
  · rw [run_append, hrun', hrun]
    simp only [List.append_assoc, List.length_append, Nat.add_assoc]
  · rw [List.length_append, hlen, hlen']

/-- A text that goes on with some characters goes on with the last of them behind the first. -/
lemma prefix_drop_of_append (cs : List Char) {k : Nat} (h : cs ++ ds <+: text.drop k) :
    cs <+: text.drop k ∧ ds <+: text.drop (k + cs.length) := by
  obtain ⟨rest, hrest⟩ := h
  refine ⟨⟨ds ++ rest, by rw [← hrest, List.append_assoc]⟩, ⟨rest, ?_⟩⟩
  rw [← List.drop_drop, ← hrest, List.append_assoc, List.drop_left]

/-- Everything but a parenthesis outside of all classes is passed. -/
lemma step_eq_pass (h : s.surroundings = .outside → c ≠ '(' ∧ c ≠ ')') :
    s.step c = { s with surroundings := s.surroundings.next c, column := s.column + 1 } := by
  rw [step.eq_def]
  split
  next hs => exact absurd rfl (h hs).1
  next hs _ => exact absurd rfl (h hs).2
  next => rfl

/-- The same scan some characters further on. -/
def advance (s : ParenthesisScan) (k : Nat) : ParenthesisScan :=
  { s with column := s.column + k }

@[simp] lemma advance_advance (k j : Nat) : (s.advance k).advance j = s.advance (k + j) := by
  simp only [advance, Nat.add_assoc]

/-- Outside of all classes, characters that neither are parentheses nor lead elsewhere are passed. -/
lemma run_of_forall_notMem (hs : s.surroundings = .outside)
    (h : ∀ c ∈ cs, c ∉ ['\\', '(', ')', '[']) : s.run cs = s.advance cs.length := by
  induction cs generalizing s with
  | nil => rfl
  | cons c cs ih =>
      obtain ⟨hc, hcs⟩ := List.forall_mem_cons.1 h
      simp only [List.mem_cons, List.not_mem_nil, or_false, not_or] at hc
      obtain ⟨hback, hopen, hclose, hclass⟩ := hc
      have hstep : s.step c = s.advance 1 := by
        rw [step_eq_pass fun _ => ⟨hopen, hclose⟩, hs, Surroundings.next_outside hback hclass, advance, hs]
      show run (s.step c) cs = _
      rw [hstep, ih (s := s.advance 1) hs hcs, advance_advance, List.length_cons, Nat.add_comm]

/-- No group is found among characters that neither are parentheses nor lead elsewhere. -/
lemma finds_of_forall_notMem (hs : s.surroundings = .outside)
    (h : ∀ c ∈ cs, c ∉ ['\\', '(', ')', '[']) : s.Finds text cs 0 [] := by
  refine ⟨[], [], ?_, rfl, .nil⟩
  rw [run_of_forall_notMem hs h, advance, List.append_nil, List.append_nil, hs]

/-- A literal in a class is passed. -/
lemma run_literal {l : Literal} (hl : l.InClass) (hs : s.surroundings = .inClass) :
    s.run l.text = s.advance l.text.length := by
  cases l with
  | plain c =>
      show s.step c = s.advance 1
      rw [step_eq_pass (by simp [hs]), hs, Surroundings.next_inClass hl.1 hl.2, advance, hs]
  | escaped c =>
      show (s.step '\\').step c = _
      rw [step_eq_pass (c := '\\') (by simp [hs]), step_eq_pass (by simp [hs, Surroundings.next])]
      simp [hs, Surroundings.next, Literal.text, advance]

/-- A member of a class is passed. -/
lemma run_member {m : Member} (hm : m.WellFormed) (hs : s.surroundings = .inClass) :
    s.run m.text = s.advance m.text.length := by
  cases m with
  | literal l => exact run_literal hm hs
  | range first last =>
      have hdash : (Literal.plain '-').InClass := ⟨by decide, by decide⟩
      show s.run (first.text ++ ((Literal.plain '-').text ++ last.text)) = _
      rw [run_append, run_append, run_literal hm.1 hs, run_literal (s := s.advance _) hdash hs,
        advance_advance, run_literal (s := s.advance _) hm.2.1 hs, advance_advance, Member.text]
      rw [List.length_append, List.length_cons, Literal.text, List.length_singleton, Nat.add_assoc,
        Nat.add_comm 1]

/-- The members of a class are passed. -/
lemma run_members {members : List Member} (hm : ∀ m ∈ members, m.WellFormed)
    (hs : s.surroundings = .inClass) :
    s.run (members.flatMap Member.text) = s.advance (members.flatMap Member.text).length := by
  induction members generalizing s with
  | nil => rfl
  | cons m members ih =>
      obtain ⟨hm, hms⟩ := List.forall_mem_cons.1 hm
      rw [List.flatMap_cons, run_append, run_member hm hs, ih (s := s.advance _) hms hs, advance_advance,
        List.length_append]

end ParenthesisScan

open ParenthesisScan

/-- A literal that can be an item is passed. -/
lemma Literal.finds {l : Literal} (hl : l.InItem) {text : List Char} {s : ParenthesisScan}
    (hs : s.surroundings = .outside) : s.Finds text l.text 0 [] := by
  cases l with
  | plain c =>
      refine finds_of_forall_notMem hs fun d hd hmark => hl ?_
      obtain rfl := List.mem_singleton.1 hd
      exact (by decide : ['\\', '(', ')', '['] ⊆ itemMarks) hmark
  | escaped c =>
      refine ⟨[], [], ?_, rfl, .nil⟩
      show (s.step '\\').step c = _
      rw [step_eq_pass (c := '\\') (by simp), step_eq_pass (by simp [hs, Surroundings.next])]
      simp [hs, Surroundings.next, Literal.text]

/-- A class is passed. -/
lemma Member.finds {members : List Member} (hm : ∀ m ∈ members, m.WellFormed) {text : List Char}
    {s : ParenthesisScan} (hs : s.surroundings = .outside) :
    s.Finds text ('[' :: members.flatMap Member.text ++ [']']) 0 [] := by
  refine ⟨[], [], ?_, rfl, .nil⟩
  have hopen : s.step '[' = { s with surroundings := .inClass, column := s.column + 1 } := by
    rw [step_eq_pass (by simp), hs]
    rfl
  rw [List.cons_append]
  show (s.step '[').run _ = _
  rw [hopen, run_append, run_members hm rfl, run, List.foldl_cons, List.foldl_nil]
  show step _ ']' = _
  rw [step_eq_pass (by simp)]
  simp [advance, Surroundings.next, Nat.add_assoc, Nat.add_comm 1]

/-- A quantifier is passed. -/
lemma Quantifier.finds (q : Quantifier) {text : List Char} {s : ParenthesisScan}
    (hs : s.surroundings = .outside) : s.Finds text q.text 0 [] :=
  finds_of_forall_notMem hs (by cases q <;> simp [Quantifier.text])

/-- The header of a group is passed. -/
lemma Header.run_text {header : Header} (h : header.WellFormed) {s : ParenthesisScan}
    (hs : s.surroundings = .outside) : s.run header.text = s.advance header.text.length := by
  have hquiet : ∀ {name : List Char}, IsName name → ∀ c ∈ name, c ∉ ['\\', '(', ')', '['] := by
    intro name hname c hc hmark
    have hcontinues := hname.2 c hc
    simp only [List.mem_cons, List.not_mem_nil, or_false] at hmark
    rcases hmark with rfl | rfl | rfl | rfl
    all_goals exact absurd hcontinues (by decide)
  refine run_of_forall_notMem hs fun c hc => ?_
  rcases eq_anonymous_or h with rfl | ⟨marks, name, hname, rfl, -⟩
  · cases hc
  · simp only [NameMarks.text_header, List.mem_append, List.mem_cons, List.not_mem_nil, or_false] at hc
    rcases hc with ((rfl | rfl) | hc) | rfl
    · simp
    · cases marks <;> simp [NameMarks.opening]
    · exact hquiet hname c hc
    · cases marks <;> simp [NameMarks.closing]

/-- A group is found behind those inside of it. -/
lemma Header.finds_group {header : Header} {body : Pattern} (hh : header.WellFormed)
    (hb : body.WellFormed) {text : List Char} {s : ParenthesisScan} (hs : s.surroundings = .outside)
    (ht : '(' :: (header.text ++ body.text) <+: text.drop s.column) {k : Nat} {sites : List Pattern.Site}
    (hbody : ∀ s' : ParenthesisScan, s'.surroundings = .outside →
      s'.column = s.column + ('(' :: header.text).length → s'.openings.length = s.openings.length + 1 →
      s'.Finds text body.text k sites) (source n : Nat) :
    s.Finds text ('(' :: (header.text ++ body.text) ++ [')']) (1 + k)
      (sites ++ [⟨header.name (s.openings.length + 1), source, n, body⟩]) := by
  have hopen : s.step '(' = ⟨.outside, s.column + 1, s.openings ++ [s.column],
      (s.column, s.openings.length + 1) :: s.pending, s.closed⟩ := by
    rw [step.eq_def, hs]
    rfl
  have hheader : s.run ('(' :: header.text) = (s.step '(').advance header.text.length :=
    Header.run_text hh (by rw [hopen])
  obtain ⟨openings, groups, hrun, hlen, hsites⟩ := hbody (s.run ('(' :: header.text))
    (by rw [hheader, hopen]; rfl)
    (by rw [hheader, hopen, advance, List.length_cons, Nat.add_assoc, Nat.add_comm 1])
    (by rw [hheader, hopen, advance, List.length_append, List.length_singleton])
  have hgroup := WrittenGroup.standsFor_group hh hb ht (s.openings.length + 1) source n
  refine ⟨s.column :: openings, groups ++ [_], ?_, by rw [List.length_cons, hlen, Nat.add_comm],
    List.rel_append hsites (.cons hgroup .nil)⟩
  rw [← List.cons_append, run_append, run_append, hrun, hheader, hopen]
  simp [run, step, advance, Surroundings.next, Nat.add_assoc, Nat.add_comm, Nat.add_left_comm]

namespace Pattern

mutual

/-- A scan of a pattern finds its groups at their sites. -/
lemma finds : ∀ (p : Pattern) {text : List Char} {s : ParenthesisScan} (n source : Nat),
    p.WellFormed → s.surroundings = .outside → p.text <+: text.drop s.column →
      s.Finds text p.text p.groups (p.sites n s.openings.length source)
  | .single branch, _, _, n, source, hp, hs, ht => branch.finds n source hp hs ht
  | .alternative branches branch, text, s, n, source, hp, hs, ht => by
      obtain ⟨hbranches, hrest⟩ := prefix_drop_of_append _ ht
      refine (branches.finds n source hp.1 hs hbranches).append fun s₁ hs₁ hcol hopen => ?_
      have hbar : s₁.Finds text ['|'] 0 [] := finds_of_forall_notMem hs₁ (by simp)
      rw [← hcol] at hrest
      obtain ⟨-, hrest⟩ := prefix_drop_of_append ['|'] hrest
      rw [← List.singleton_append, ← Nat.zero_add branch.groups, ← List.nil_append (branch.sites _ _ _)]
      refine hbar.append fun s₂ hs₂ hcol₂ hopen₂ => ?_
      rw [← hopen, ← Nat.add_zero s₁.openings.length, ← hopen₂]
      rw [← hcol₂] at hrest
      exact branch.finds _ source hp.2 hs₂ hrest

/-- A scan of a branch finds its groups at their sites. -/
lemma Sequence.finds : ∀ (x : Sequence) {text : List Char} {s : ParenthesisScan} (n source : Nat),
    x.WellFormed → s.surroundings = .outside → x.text <+: text.drop s.column →
      s.Finds text x.text x.groups (x.sites n s.openings.length source)
  | .empty, text, s, n, source, _, hs, _ => finds_of_forall_notMem hs (by simp)
  | .append items atom q, text, s, n, source, hp, hs, ht => by
      obtain ⟨hitems, hrest⟩ := prefix_drop_of_append _ ht
      refine (items.finds n source hp.1 hs hitems).append fun s₁ hs₁ hcol hopen => ?_
      rw [← hcol] at hrest
      obtain ⟨hatom, -⟩ := prefix_drop_of_append _ hrest
      rw [← hopen, ← Nat.add_zero atom.groups, ← List.append_nil (atom.sites _ _ _)]
      exact (atom.finds _ _ hp.2 hs₁ hatom).append fun s₂ hs₂ _ _ => q.finds hs₂

/-- A scan of an atom finds its groups at their sites. -/
lemma Atom.finds : ∀ (x : Atom) {text : List Char} {s : ParenthesisScan} (n source : Nat),
    x.WellFormed → s.surroundings = .outside → x.text <+: text.drop s.column →
      s.Finds text x.text x.groups (x.sites n s.openings.length source)
  | .literal _, _, _, _, _, hp, hs, _ => Literal.finds hp hs
  | .charClass _, _, _, _, _, hp, hs, _ => Member.finds hp.1 hs
  | .group header body, text, s, n, source, hp, hs, ht => by
      obtain ⟨hfront, -⟩ := prefix_drop_of_append _ ht
      refine Header.finds_group hp.1 hp.2 hs hfront (fun s₁ hs₁ hcol hopen => ?_) source n
      obtain ⟨-, hbody⟩ := prefix_drop_of_append ('(' :: header.text) hfront
      rw [← hcol] at hbody
      rw [← hopen]
      exact body.finds (n + 1) n hp.2 hs₁ hbody

end

end Pattern

/-! ### Whole patterns -/

/-- The tags of the automaton of a pattern are those of the groups that show in its text, and the main
tag. -/
structure Nfa.NumbersGroups (m : PatternNfa) (p : Pattern) (text : List Char) : Prop where
  /-- There is a tag for each opening parenthesis, and the main tag. -/
  length_eq : m.tags.length = (openingsIn text).length + 1
  /-- The main tag is the last, from the initial state to the one that the whole pattern ends in. -/
  tags_eq : m.tags = (p.sites 2 0 1).map Pattern.Site.tag ++ [⟨mainGroup, 0, p.stop 2 1⟩]
  /-- The other tags are those of the groups of the text, and have their names. -/
  standsFor : List.Forall₂ (fun x y => WrittenGroup.StandsFor x text y) (groupsIn text) (p.sites 2 0 1)
  /-- They are listed in the order of the closing parentheses. -/
  closing : (groupsIn text).Pairwise fun x y => x.closing < y.closing
  /-- The groups are numbered from 1 on in the order of the opening parentheses. -/
  numbered : ((groupsIn text).map fun x => (x.opening, x.number)).Perm ((openingsIn text).zipIdx 1)
  /-- These are found from left to right. -/
  openings : (openingsIn text).Pairwise (· < ·)
  /-- No group shares its name with one that has no written name. -/
  name_ne : (groupsIn text).Pairwise fun x y =>
    x.name? text = none ∨ y.name? text = none → x.name text ≠ y.name text
  /-- No group has the name of the main tag. -/
  name_ne_main : ∀ x ∈ groupsIn text, x.name text ≠ mainGroup

namespace WrittenGroup

variable {text : List Char} {x y : WrittenGroup}

lemma name_of_none (h : x.name? text = none) : x.name text = toString x.number := by
  rw [name, h]
  rfl

/-- No group is named by the number of another. -/
lemma name_ne_toString (hx : ∀ name, x.name? text = some name → IsName name.toList) {i : Nat}
    (hi : x.number ≠ i) : x.name text ≠ toString i := by
  cases hw : x.name? text with
  | none => exact name_of_none hw ▸ fun heq => hi (Nat.repr_injective heq)
  | some w =>
      intro heq
      rw [name, hw, Option.getD_some] at heq
      exact Pattern.not_isName_toString i (heq ▸ hx w hw)

/-- Two groups have different names if one of these is not written. -/
lemma name_ne (hx : ∀ name, x.name? text = some name → IsName name.toList)
    (hy : ∀ name, y.name? text = some name → IsName name.toList) (hne : x.number ≠ y.number)
    (h : x.name? text = none ∨ y.name? text = none) : x.name text ≠ y.name text := by
  rcases h with h | h
  · exact name_of_none h ▸ (name_ne_toString hy hne.symm).symm
  · exact name_of_none h ▸ name_ne_toString hx hne

end WrittenGroup

namespace Pattern

/-- The groups of an accepted pattern are numbered in the order of their opening parentheses, and the
tags of its automaton are listed in the order of the closing ones, followed by the main tag. Groups
without a written name are named by their numbers, which no other tag has for a name. -/
theorem tags_of_groupsIn {text : String} {m : PatternNfa} (h : Nfa.ofPattern text = .ok m) :
    ∃ p, Pattern.parse text = .ok p ∧ m.NumbersGroups p text.toList := by
  obtain ⟨p, hp, hbuild⟩ := exists_of_ofPattern h
  have hwf := wellFormed_of_parse hp
  have htags : m.tags = (p.sites 2 0 1).map Site.tag ++ [⟨mainGroup, 0, p.stop 2 1⟩] :=
    tags_eq_map p 2 0 1 ▸ (isLaidOutAs_of_toNfa hwf hbuild).tags_eq
  rw [← text_of_parse hp]
  have hfinds : Finds p.text {} p.text p.groups (p.sites 2 0 1) :=
    p.finds 2 1 hwf rfl (List.prefix_refl _)
  obtain ⟨openings, groups, hrun, -, hsites⟩ := hfinds
  have hsound := sound_run p.text
  have hnumbered := hsound.numbered
  have hgroups : groupsIn p.text = groups := congrArg ParenthesisScan.closed hrun
  have hpending : (run {} p.text).pending = [] := congrArg ParenthesisScan.pending hrun
  rw [hpending, List.append_nil] at hnumbered
  rw [← hgroups] at hsites
  -- As the numbers are those from 1 on, they differ from each other and from that of the main tag.
  have hnumbers := hnumbered.map Prod.snd
  rw [List.map_map, List.zipIdx_map_snd] at hnumbers
  have hdistinct : (groupsIn p.text).Pairwise fun x y => x.number ≠ y.number :=
    List.pairwise_map.1 (hnumbers.nodup_iff.2 List.nodup_range')
  have hnames := ((List.forall₂_and_left _ _).1 (hsites.imp fun x y hxy => ⟨hxy.isName, hxy⟩)).1
  refine ⟨p, hp, ?_, htags, hsites, hsound.closed, hnumbered, hsound.openings, ?_, fun x hx => ?_⟩
  · have hlen := hnumbered.length_eq
    rw [List.length_map, List.length_zipIdx] at hlen
    rw [htags, List.length_append, List.length_map, ← hsites.length_eq]
    exact congrArg (· + 1) hlen
  · exact hdistinct.imp_of_mem fun hx hy hne => WrittenGroup.name_ne (hnames _ hx) (hnames _ hy) hne
  · have hpos := List.mem_range'_1.1 (hnumbers.mem_iff.1 (List.mem_map_of_mem hx))
    exact WrittenGroup.name_ne_toString (hnames x hx) (Nat.pos_iff_ne_zero.1 hpos.1)

/-- Two groups in a group, the first of them with a name; a parenthesis in a class is no group. -/
theorem tags_of_groupsIn_of_nested : ∃ m, Nfa.ofPattern "(a(?<x>b)(c))[(]" = .ok m ∧
    (∃ p, Pattern.parse "(a(?<x>b)(c))[(]" = .ok p ∧
      m.NumbersGroups p "(a(?<x>b)(c))[(]".toList) ∧
    m.tags.map Tag.name = ["x", "3", "1", "0"] := by
  let inner : Sequence := ((Sequence.empty.append (.literal (.plain 'a')) .once).append
    (.group (.angled "x") (.single (Sequence.empty.append (.literal (.plain 'b')) .once))) .once).append
    (.group .anonymous (.single (Sequence.empty.append (.literal (.plain 'c')) .once))) .once
  let p : Pattern := .single ((Sequence.empty.append (.group .anonymous (.single inner)) .once).append
    (.charClass [.literal (.plain '(')]) .once)
  have hp : Pattern.parse "(a(?<x>b)(c))[(]" = .ok p := rfl
  obtain ⟨m, hm⟩ : ∃ m, Nfa.ofPattern "(a(?<x>b)(c))[(]" = .ok m := exists_nfa_of_parse ⟨p, hp⟩
  obtain ⟨q, hq, hnumbers⟩ := tags_of_groupsIn hm
  refine ⟨m, hm, ⟨q, hq, hnumbers⟩, ?_⟩
  obtain rfl : q = p := Except.ok.inj (hq.symm.trans hp)
  rw [hnumbers.tags_eq]
  rfl

end Pattern

end CaptureAutomata
