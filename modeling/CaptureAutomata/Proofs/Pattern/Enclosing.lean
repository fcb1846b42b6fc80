/-
Patterns whose branches are groups:

* `Pattern.length_tags`, `Pattern.name_of_mem_tags`: every group has a tag, named by a name or by its
  number among all groups;
* `Assembly.Extends`: what was added does not lead back, so that all labels can be extended;
* `Pattern.Encloses`: the branches of a pattern are groups around other patterns;
* `Assembly.Captures`: between a state and the end of such a group exactly the words of a language are
  read, and one tag alone has its number;
* `Pattern.Encloses.exists_toNfa`: in the automaton of a pattern that encloses others, the end of each
  group is reached by the words that are read on the way through what it encloses.
-/
import CaptureAutomata.Proofs.Pattern.Layout

namespace CaptureAutomata

open scoped Computability

/-! ### Names of tags -/

namespace Pattern

mutual

/-- A pattern has as many tags as groups. -/
lemma length_tags : ∀ (p : Pattern) (n g s : Nat), (p.tags n g s).length = p.groups
  | .single branch, n, g, s => branch.length_tags n g s
  | .alternative branches branch, n, g, s => by
      rw [tags, List.length_append, branches.length_tags, branch.length_tags, groups]

lemma Sequence.length_tags : ∀ (x : Sequence) (n g s : Nat), (x.tags n g s).length = x.groups
  | .empty, _, _, _ => rfl
  | .append items atom _, n, g, s => by
      rw [Sequence.tags, List.length_append, items.length_tags, atom.length_tags, Sequence.groups]

/-- An atom has as many tags as groups. -/
lemma Atom.length_tags : ∀ (x : Atom) (n g s : Nat), (x.tags n g s).length = x.groups
  | .literal _, _, _, _ => rfl
  | .charClass _, _, _, _ => rfl
  | .group _ body, n, g, s => by
      rw [Atom.tags, List.length_append, body.length_tags, List.length_singleton, Atom.groups,
        Nat.add_comm]

end

/-- The name of a group, if one is written, or one of the numbers behind `g`, of which there are `k`. -/
def IsGroupName (g k : Nat) (name : String) : Prop :=
  IsName name.toList ∨ ∃ i, g < i ∧ i ≤ g + k ∧ name = toString i

lemma IsGroupName.mono {g k g' k' : Nat} {name : String} (h : IsGroupName g k name) (hg : g' ≤ g)
    (hk : g + k ≤ g' + k') : IsGroupName g' k' name := by
  rcases h with h | ⟨i, hi, hik, h⟩
  · exact Or.inl h
  · exact Or.inr ⟨i, by omega, by omega, h⟩

/-- The name of a group is written, or it is its number. -/
lemma isGroupName_header {header : Header} (h : header.WellFormed) (g k : Nat) :
    IsGroupName g (1 + k) (header.name (g + 1)) := by
  cases header with
  | anonymous => exact Or.inr ⟨g + 1, by omega, by omega, rfl⟩
  | angled name => exact Or.inl h
  | quoted name => exact Or.inl h

mutual

/-- The tags of a pattern have the names of its groups. -/
lemma name_of_mem_tags : ∀ (p : Pattern) {n g s : Nat} {t : Tag String Nat},
    p.WellFormed → t ∈ p.tags n g s → IsGroupName g p.groups t.name
  | .single branch, _, _, _, _, hp, ht => branch.name_of_mem_tags hp ht
  | .alternative branches branch, n, g, s, t, hp, ht => by
      rw [tags, List.mem_append] at ht
      rw [groups]
      rcases ht with ht | ht
      · exact (branches.name_of_mem_tags hp.1 ht).mono le_rfl (by omega)
      · exact (branch.name_of_mem_tags hp.2 ht).mono (by omega) (by omega)

/-- The tags of a branch have the names of its groups. -/
lemma Sequence.name_of_mem_tags : ∀ (x : Sequence) {n g s : Nat} {t : Tag String Nat},
    x.WellFormed → t ∈ x.tags n g s → IsGroupName g x.groups t.name
  | .empty, _, _, _, _, _, ht => by cases ht
  | .append items atom _, n, g, s, t, hp, ht => by
      rw [Sequence.tags, List.mem_append] at ht
      rw [Sequence.groups]
      rcases ht with ht | ht
      · exact (items.name_of_mem_tags hp.1 ht).mono le_rfl (by omega)
      · exact (atom.name_of_mem_tags hp.2 ht).mono (by omega) (by omega)

/-- The tags of an atom have the names of its groups. -/
lemma Atom.name_of_mem_tags : ∀ (x : Atom) {n g s : Nat} {t : Tag String Nat},
    x.WellFormed → t ∈ x.tags n g s → IsGroupName g x.groups t.name
  | .literal _, _, _, _, _, _, ht => by cases ht
  | .charClass _, _, _, _, _, _, ht => by cases ht
  | .group header body, n, g, s, t, hp, ht => by
      rw [Atom.tags, List.mem_append] at ht
      rw [Atom.groups]
      rcases ht with ht | ht
      · exact (body.name_of_mem_tags hp.2 ht).mono (by omega) (by omega)
      · rw [List.mem_singleton.1 ht]
        exact isGroupName_header hp.1 g _

end

/-- Numbers are not written as names. -/
lemma not_isName_toString (i : Nat) : ¬ IsName (toString i).toList := by
  rintro ⟨⟨c, hc, hstart⟩, -⟩
  have hmem : c ∈ Nat.toDigits 10 i := by
    have hdigits : (toString i).toList = Nat.toDigits 10 i := String.toList_ofList
    exact hdigits ▸ List.mem_of_mem_head? hc
  have hdigit := Nat.isDigit_of_mem_toDigits (by omega) le_rfl hmem
  rw [Header.startsName, Bool.or_eq_true, decide_eq_true_eq] at hstart
  rcases hstart with rfl | halpha
  · exact absurd hdigit (by decide)
  · simp only [Char.isDigit, Char.isAlpha, Char.isUpper, Char.isLower] at halpha hdigit
    grind

/-- The numbers of other groups are not names of these. -/
lemma IsGroupName.ne_toString {g k i : Nat} {name : String} (h : IsGroupName g k name)
    (hi : i ≤ g ∨ g + k < i) : name ≠ toString i := by
  rintro rfl
  rcases h with h | ⟨j, hj, hjk, h⟩
  · exact not_isName_toString i h
  · have hij : i = j := Nat.repr_injective h
    omega

/-- No tag of a pattern has the number of a group outside of it. -/
lemma filter_tags_eq_nil {p : Pattern} {n g s i : Nat} (hp : p.WellFormed)
    (hi : i ≤ g ∨ g + p.groups < i) :
    (p.tags n g s).filter (fun t => t.name = toString i) = [] :=
  List.filter_eq_nil_iff.2 fun t ht => by
    simpa using (p.name_of_mem_tags hp ht).ne_toString hi

end Pattern

/-! ### Extensions -/

namespace Assembly

variable {a b c : Assembly} {s e : Nat} {A : Language Char}

/-- `b` is made from `a` by what leads nowhere in `a`: all labels can be extended. -/
structure Extends (a b : Assembly) : Prop where
  /-- Nothing was lost. -/
  grows : a.Grows b
  /-- Labels can be extended. -/
  labels : ∀ L, Labels a L → ∃ L', Relabels a b L L'

lemma Extends.refl : Extends a a :=
  ⟨.refl, fun L hL => ⟨L, .refl hL⟩⟩

/-- Extensions follow each other. -/
lemma Extends.trans (h : Extends a b) (k : Extends b c) (ha : a.Valid) : Extends a c where
  grows := h.grows.trans k.grows
  labels L hL := by
    obtain ⟨L₁, h₁⟩ := h.labels L hL
    obtain ⟨L₂, h₂⟩ := k.labels L₁ h₁.labels
    exact ⟨L₂, h₁.trans h₂ (h.grows.count_le ha)⟩

/-- Transitions to a new state are an extension, wherever they start. -/
lemma extends_forM_connect {stops : List Nat} {u : Unit} (ha : a.Valid)
    (hstops : ∀ e ∈ stops, a.Inner e)
    (h : Makes (stops.forM fun e => connect e none a.count) a.withState u b) : Extends a b := by
  have hnew : a.Grows a.withState := .state .refl
  obtain ⟨hgrows, -, hlabels⟩ := makes_forM_connect ha.withState
    (fun e he => (hstops e he).of_grows hnew ha) ha.inner_withState h
  refine ⟨hnew.trans hgrows, fun L hL => ?_⟩
  -- the new state is labelled with all words, so that any transition to it is respected
  obtain ⟨L', h', hall⟩ := hL.withState ha ⊤
  exact ⟨L', h'.agree, hlabels L' h'.labels fun e he => hall ▸ le_top⟩

/-- Leading branches together is an extension. -/
lemma extends_join {stops : List Nat} {r : Nat} (ha : a.Valid) (hstops : ∀ e ∈ stops, a.Inner e)
    (h : Makes (join stops) a r b) : Extends a b := by
  rcases stops with _ | ⟨e, _ | ⟨e', stops⟩⟩
  case cons.nil =>
    obtain ⟨rfl, rfl⟩ := makes_pure.1 h
    exact .refl
  all_goals
    obtain ⟨_, d, h₁, h⟩ := makes_bind.1 h
    obtain ⟨rfl, rfl⟩ := makes_newState.1 h₁
    obtain ⟨_, d, h₂, h⟩ := makes_bind.1 h
    obtain ⟨rfl, rfl⟩ := makes_pure.1 h
    exact extends_forM_connect ha hstops h₂

/-- A branch that is not read again is an extension. -/
lemma Chain.extends {T W : Language Char → Language Char} (h : Chain a b s e T W) (hT : T 0 = 0) :
    Extends a b where
  grows := h.grows
  labels L hL := by
    obtain ⟨L', h', -⟩ := h.labels L 0 hL (by simp [hT])
    exact ⟨L', h'⟩

/-- A passage stays one when more is built behind it. -/
lemma Passage.extend (h : Passage a b s e A) (k : Extends b c) (ha : a.Valid) :
    Passage a c s e A where
  grows := h.grows.trans k.grows
  inner := h.inner.of_grows k.grows (h.grows.valid ha)
  reads m hm := h.reads m (hm.of_grows k.grows)
  labels L hL := by
    obtain ⟨L₁, h₁, hstop⟩ := h.labels L hL
    obtain ⟨L₂, h₂⟩ := k.labels L₁ h₁.labels
    exact ⟨L₂, h₁.trans h₂ (h.grows.count_le ha), h₂.agree e h.inner.2 ▸ hstop⟩

/-- A passage stays one when more was built before it. -/
lemma Extends.passage (h : Extends a b) (k : Passage b c s e A) (ha : a.Valid)
    (hs : s < a.count) : Passage a c s e A where
  grows := h.grows.trans k.grows
  inner := k.inner
  reads := k.reads
  labels L hL := by
    obtain ⟨L₁, h₁⟩ := h.labels L hL
    obtain ⟨L₂, h₂, hstop⟩ := k.labels L₁ h₁.labels
    exact ⟨L₂, h₁.trans h₂ (h.grows.count_le ha), h₁.agree s hs ▸ hstop⟩

/-- A passage from a new state behind a transition is one from in front of it. -/
lemma Passage.enter (h : Passage (a.withState.withEdge s none a.count) b a.count e A) (ha : a.Valid)
    (hs : s < a.count) : Passage a b s e A := by
  have hnew : a.Grows a.withState := .state .refl
  have henter : Link a.withState (a.withState.withEdge s none a.count) s a.count 1 :=
    link_withEdge (hs.trans_le (hnew.count_le ha)) ha.inner_withState
  have hin := hnew.trans henter.grows
  refine ⟨hin.trans h.grows, h.inner, fun m hm => ?_, fun L hL => ?_⟩
  · have hway := (henter.reads m (hm.of_grows h.grows)).mul (h.reads m hm)
    rwa [one_mul] at hway
  · obtain ⟨L₁, h₁, hentry⟩ := hL.withState ha (L s)
    have hedge : Labels (a.withState.withEdge s none a.count) L₁ := h₁.labels.withEdge (by
      rw [hentry, h₁.agree s hs]
      exact (mul_one _).le)
    obtain ⟨L₂, h₂, hstop⟩ := h.labels L₁ hedge
    exact ⟨L₂, Relabels.trans ⟨h₁.agree, hedge⟩ h₂ (hin.count_le ha), hentry ▸ hstop⟩

/-! ### Captures -/

/-- Between `s` and some state exactly the words of `A` are read, and a tag between them is the only
one with this number. -/
def Captures (a b : Assembly) (s i : Nat) (A : Language Char) : Prop :=
  ∃ e, Passage a b s e A ∧
    b.builder.tags.filter (fun t => t.name = toString i) = [⟨toString i, s, e⟩]

/-- What is captured stays so when more is built behind it, with other numbers. -/
lemma Captures.extend {i : Nat} {ts : List (Tag String Nat)} (h : Captures a b s i A)
    (k : Extends b c) (ha : a.Valid) (htags : c.builder.tags = b.builder.tags ++ ts)
    (hts : ts.filter (fun t => t.name = toString i) = []) : Captures a c s i A := by
  obtain ⟨e, hpassage, hnumber⟩ := h
  refine ⟨e, hpassage.extend k ha, ?_⟩
  rw [htags, List.filter_append, hts, hnumber, List.append_nil]

lemma extends_withTag {name : String} {t : Nat} (hn : name ≠ mainGroup) (hs : s < a.count)
    (ht : t < a.count) : Extends a (a.withTag name s t) :=
  ⟨.tag .refl hn hs ht, fun L hL => ⟨L, fun _ _ => rfl, hL⟩⟩

lemma extends_withGroup : Extends a a.withGroup :=
  ⟨.group .refl, fun L hL => ⟨L, fun _ _ => rfl, hL⟩⟩

end Assembly

/-! ### Groups side by side -/

namespace Pattern

open Assembly

/-- The branch that is a group without a name around a pattern. -/
def Sequence.around (body : Pattern) : Sequence :=
  .append .empty (.group .anonymous body) .once

/-- It is assembled as the group. -/
lemma Sequence.assemble_around (body : Pattern) (s : Nat) :
    (around body).assemble s = (Atom.group .anonymous body).assemble s := by
  rw [around, Sequence.assemble, Sequence.assemble, pure_bind]
  exact bind_pure _

/-- What is assembled around a pattern is a passage on which the words of the pattern are read. -/
lemma Sequence.passage_around {body : Pattern} {a d : Assembly} {s r : Nat} (hb : body.WellFormed)
    (ha : a.Valid) (hs : a.Inner s) (h : Makes ((around body).assemble s) a r d) :
    Passage a d s (body.stop (a.count + 1) a.count) body.threaded := by
  rw [assemble_around] at h
  obtain ⟨stops, b, j, c, hstops, hj, rfl, rfl⟩ := Atom.makes_group h
  have hg : a.withGroup.Valid := extends_withGroup.grows.valid ha
  obtain ⟨hv, hentry⟩ := hg.entry hs.2
  have hbundle := body.bundle_assemble hb hv hentry hstops
  have hway : Passage a c s j body.threaded :=
    extends_withGroup.passage ((hbundle.join hv hj).passage hg hs.2) ha hs.2
  obtain ⟨hbranches, rfl⟩ := body.adds_assemble hb hv hentry hstops
  obtain ⟨-, rfl, -⟩ := hbranches.join hbundle hv hj
  have hin : (a.withGroup.withState.withEdge s none a.count).count = a.count + 1 :=
    (adds_step hg hs.2).count_eq
  have hc := hway.grows.valid ha
  have hleave := extends_forM_connect hc (fun e he => List.mem_singleton.1 he ▸ hway.inner)
    (rfl : Makes ([_].forM fun e => connect e none c.count) c.withState () _)
  have htag := extends_withTag (Header.WellFormed.name_ne_mainGroup (x := .anonymous) trivial
    (Nat.succ_pos a.groups)) (hs.of_grows (hway.grows.trans hleave.grows) ha).2
    (hway.inner.of_grows hleave.grows hc).2
  rw [← hin]
  exact (hway.extend hleave ha).extend htag ha

/-- It is written in the grammar of patterns. -/
lemma Sequence.wellFormed_around {body : Pattern} (hb : body.WellFormed) :
    (around body).WellFormed :=
  ⟨trivial, trivial, hb⟩

/-- It is not read again. -/
lemma Sequence.extends_around {body : Pattern} {a d : Assembly} {s r : Nat} (hb : body.WellFormed)
    (ha : a.Valid) (hs : a.Inner s) (h : Makes ((around body).assemble s) a r d) : Extends a d :=
  ((around body).chain_assemble (wellFormed_around hb) ha hs h).extends rfl

/-- It captures the words of the pattern under the next number. -/
lemma Sequence.captures_around {body : Pattern} {a b d : Assembly} {s r i : Nat}
    (hb : body.WellFormed) (hab : Extends a b) (ha : a.Valid) (hs : a.Inner s)
    (hi : i = b.groups + 1) (hold : b.builder.tags.filter (fun t => t.name = toString i) = [])
    (h : Makes ((around body).assemble s) b r d) : Captures a d s i body.threaded := by
  have hv := hab.grows.valid ha
  have hs' := hs.of_grows hab.grows ha
  obtain ⟨hadds, -⟩ := (around body).adds_assemble (wellFormed_around hb) hv hs' h
  have hown : (around body).tags b.count b.groups s = body.tags (b.count + 1) i b.count ++
      [⟨toString i, s, body.stop (b.count + 1) b.count⟩] := by
    rw [hi]
    rfl
  refine ⟨_, hab.passage (passage_around hb hv hs' h) ha hs.2, ?_⟩
  rw [hadds.tags_eq, hown, List.filter_append, List.filter_append, hold,
    filter_tags_eq_nil hb (Or.inl le_rfl)]
  simp

/-- The branches of the pattern are groups, without names, around these patterns. -/
inductive Encloses : Pattern → List Pattern → Prop
  /-- There is one group. -/
  | single (body : Pattern) : Encloses (.single (.around body)) [body]
  /-- There is one more group. -/
  | alternative {p : Pattern} {bodies : List Pattern} (h : Encloses p bodies) (body : Pattern) :
    Encloses (.alternative p (.around body)) (bodies ++ [body])

/-- The number of groups around and in some patterns. -/
def groupsAround (bodies : List Pattern) : Nat :=
  (bodies.map fun body => 1 + body.groups).sum

@[simp] lemma groupsAround_append (bodies more : List Pattern) :
    groupsAround (bodies ++ more) = groupsAround bodies + groupsAround more := by
  simp [groupsAround]

@[simp] lemma groupsAround_cons (body : Pattern) (bodies : List Pattern) :
    groupsAround (body :: bodies) = 1 + body.groups + groupsAround bodies := by
  simp [groupsAround]

namespace Encloses

variable {p : Pattern} {bodies : List Pattern}

/-- More groups can be put behind others. -/
lemma append (h : p.Encloses bodies) (more : List Pattern) :
    ∃ q : Pattern, q.Encloses (bodies ++ more) := by
  induction more generalizing p bodies with
  | nil => exact ⟨p, by rwa [List.append_nil]⟩
  | cons body more ih =>
      rw [List.append_cons]
      exact ih (h.alternative body)

/-- Groups around patterns are written in the grammar if the patterns are. -/
lemma wellFormed (h : p.Encloses bodies) (hb : ∀ body ∈ bodies, body.WellFormed) :
    p.WellFormed := by
  induction h with
  | single body => exact Sequence.wellFormed_around (hb body (.head _))
  | alternative h body ih =>
      obtain ⟨hbodies, hbody⟩ := List.forall_mem_append.1 hb
      exact ⟨ih hbodies, Sequence.wellFormed_around (hbody body (.head _))⟩

/-- The groups of the pattern are those around the others and those in them. -/
lemma groups_eq (h : p.Encloses bodies) : p.groups = groupsAround bodies := by
  induction h with
  | single body =>
      simp [groups, Sequence.groups, Sequence.around, Atom.groups, groupsAround]
  | alternative h body ih =>
      simp [groups, Sequence.groups, Sequence.around, Atom.groups, groupsAround, ih]

lemma ne_nil (h : p.Encloses bodies) : bodies ≠ [] := by
  cases h <;> simp

lemma text_ne_nil (h : p.Encloses bodies) : p.text ≠ [] := by
  cases h <;> simp [Sequence.around]

/-- It is written as the others in parentheses, with bars between them. -/
lemma text_eq (h : p.Encloses bodies) :
    String.ofList p.text =
      "|".intercalate (bodies.map fun body => "(" ++ String.ofList body.text ++ ")") := by
  induction h with
  | single body =>
      apply String.toList_injective
      simp [Sequence.around, Header.text, Quantifier.text]
  | @alternative p bodies h body ih =>
      have hmap : (bodies.map fun body => "(" ++ String.ofList body.text ++ ")") ≠ [] := by
        simpa using h.ne_nil
      rw [List.map_append, String.intercalate_append_of_ne_nil hmap (by simp), ← ih]
      apply String.toList_injective
      simp [Sequence.around, Header.text, Quantifier.text]

/-- Assembling the pattern extends what is there, and captures the words of each of the others, under
a number that tells the groups before it. -/
lemma captures (h : p.Encloses bodies) {a b : Assembly} {s : Nat} {stops : List Nat}
    (hb : ∀ body ∈ bodies, body.WellFormed) (ha : a.Valid) (hs : a.Inner s)
    (hnone : a.builder.tags = []) (hmakes : Makes (p.assembleBranches s) a stops b) :
    Extends a b ∧ ∀ before body after, bodies = before ++ body :: after →
      Captures a b s (a.groups + 1 + groupsAround before) body.threaded := by
  induction h generalizing b stops with
  | single body =>
      obtain ⟨e, c, he, hmakes⟩ := makes_bind.1 hmakes
      obtain ⟨rfl, rfl⟩ := makes_pure.1 hmakes
      have hbody := hb body (.head _)
      refine ⟨Sequence.extends_around hbody ha hs he, fun before x after hsplit => ?_⟩
      obtain ⟨rfl, rfl, rfl⟩ : before = [] ∧ body = x ∧ after = [] := by
        simpa [List.append_eq_singleton_iff, eq_comm] using hsplit
      exact Sequence.captures_around hbody .refl ha hs rfl (by rw [hnone]; rfl) he
  | @alternative p bodies h body ih =>
      obtain ⟨first, c, hfirst, hmakes⟩ := makes_bind.1 hmakes
      obtain ⟨e, d, he, hmakes⟩ := makes_bind.1 hmakes
      obtain ⟨rfl, rfl⟩ := makes_pure.1 hmakes
      obtain ⟨hbodies, hlast⟩ := List.forall_mem_append.1 hb
      have hbody := hlast body (.head _)
      have hp := h.wellFormed hbodies
      obtain ⟨hbefore, hold⟩ := ih hbodies hfirst
      obtain ⟨hadds, -⟩ := p.adds_assemble hp ha hs hfirst
      have hc := hadds.grows.valid ha
      have hsc := hs.of_grows hadds.grows ha
      have hnext := Sequence.extends_around hbody hc hsc he
      have hgroups : c.groups = a.groups + groupsAround bodies := by
        rw [hadds.groups_eq, h.groups_eq]
      refine ⟨hbefore.trans hnext ha, fun before x after hsplit => ?_⟩
      -- what is captured by the group added last is new, all else was captured before
      rcases List.eq_nil_or_concat' after with rfl | ⟨after, y, rfl⟩
      · obtain ⟨rfl, rfl⟩ : bodies = before ∧ body = x := by simpa using hsplit
        refine Sequence.captures_around hbody hbefore ha hs (by omega) ?_ he
        rw [hadds.tags_eq, hnone]
        exact filter_tags_eq_nil hp (Or.inr (by rw [h.groups_eq]; omega))
      · rw [← List.cons_append, ← List.append_assoc] at hsplit
        obtain ⟨rfl, -⟩ := List.append_inj' hsplit rfl
        obtain ⟨hnew, -⟩ := (Sequence.around body).adds_assemble (Sequence.wellFormed_around hbody)
          hc hsc he
        refine (hold before x after rfl).extend hnext ha hnew.tags_eq ?_
        refine filter_tags_eq_nil (p := .single (.around body)) (Sequence.wellFormed_around hbody)
          (Or.inl ?_)
        rw [hgroups, groupsAround_append, groupsAround_cons]
        omega

/-- A pattern that encloses others has an automaton. In it the tag with the number of a group is the
only one of this name, and its end is reached by the words of what the group encloses. -/
lemma exists_toNfa (h : p.Encloses bodies) (hb : ∀ body ∈ bodies, body.WellFormed) :
    ∃ m, p.toNfa = .ok m ∧ ∀ before body after, bodies = before ++ body :: after →
      ∃ t, m.tags.filter (fun t => t.name = toString (1 + groupsAround before)) = [t] ∧
        ∀ w, m.Reaches w t.stop ↔ w ∈ body.threaded := by
  obtain ⟨stops, c, stop, b, hstops, hj, ha⟩ := p.exists_makes_main
  obtain ⟨hv, hentry⟩ := valid_start.entry valid_start.pos
  have hp := h.wellFormed hb
  have hbundle := p.bundle_assemble hp hv hentry hstops
  obtain ⟨hextends, hcaptures⟩ := h.captures hb hv hentry rfl hstops
  obtain ⟨hbranches, rfl⟩ := p.adds_assemble hp hv hentry hstops
  have hjoin := extends_join (hbranches.grows.valid hv) hbundle.inner hj
  obtain ⟨hwhole, -, hstop⟩ := hbranches.join hbundle hv hj
  have hsame : b.builder.tags = c.builder.tags ++ [] := by
    rw [hwhole.tags_eq, hbranches.tags_eq, List.append_nil]
  have hgrows := (adds_step valid_start valid_start.pos).grows.trans
    (hextends.grows.trans hjoin.grows)
  obtain ⟨m, hm, hmain, htargets, htags⟩ := exists_build_main hgrows hstop
  refine ⟨m, by rw [toNfa, ha, hm], fun before body after hsplit => ?_⟩
  obtain ⟨e, hway, hnumber⟩ :=
    (hcaptures before body after hsplit).extend hjoin hv hsame rfl
  have hmainName : mainGroup ≠ toString (1 + groupsAround before) :=
    (Header.WellFormed.name_ne_mainGroup (x := .anonymous) trivial (by omega)).symm
  have hother : [(⟨mainGroup, 0, stop⟩ : Tag String Nat)].filter
      (fun t => t.name = toString (1 + groupsAround before)) = [] := by
    simpa using hmainName
  have htag : m.tags.filter (fun t => t.name = toString (1 + groupsAround before)) =
      [⟨toString (1 + groupsAround before), start.count, e⟩] := by
    rw [htags, List.filter_append, hother, List.append_nil]
    exact hnumber
  exact ⟨_, htag, reaches_iff_of_passage (hway.enter valid_start valid_start.pos)
    hmain.initial_eq htargets⟩

end Encloses

end Pattern

end CaptureAutomata
