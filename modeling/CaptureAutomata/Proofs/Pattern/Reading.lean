/-
Reading back what is written in the grammar of patterns:

* `Reader.outcome`: what a reader makes of the characters that are still to come;
* `Reader.read_members`: the members of a class are read one after the other. After a single character
  the reader waits for a dash, which is why what has been read is compared in two places;
* `Reader.outcome_branch`, `Reader.outcome_atom`, `Reader.outcome_pattern`: the text of a well-formed
  tree is read as this tree, whatever follows, unless it starts with a quantifier;
* `Pattern.parse_eq_ok_iff`: a text is read as a tree exactly if the tree is well-formed and written
  so.
-/
import CaptureAutomata.Pattern.Transcript
import CaptureAutomata.Proofs.Pattern.WellFormed

namespace CaptureAutomata

namespace Reader

/-! ### Outcomes -/

/-- The pattern that a reader ends with if some characters follow. -/
def outcome (r : Reader) (cs : List Char) : Except Mistake Pattern :=
  r.read cs >>= finish

variable {r r' : Reader} {n col : Nat} {gs : List OpenGroup} {l : Level} {x : List Char} {c : Char}

lemma read_append (r : Reader) (cs ds : List Char) :
    r.read (cs ++ ds) = r.read cs >>= fun r' => r'.read ds :=
  List.foldlM_append

/-- Characters that can be read lead on to the outcome behind them. -/
lemma outcome_append {cs : List Char} (h : r.read cs = .ok r') : r.outcome (cs ++ x) = r'.outcome x := by
  rw [outcome, read_append, h]
  rfl

lemma read_cons {cs : List Char} (h : r.step c = .ok r') : r.read (c :: cs) = r'.read cs := by
  rw [read, List.foldlM_cons, h]
  rfl

lemma read_singleton : r.read [c] = r.step c := by
  rw [read, List.foldlM_cons]
  exact bind_pure _

lemma outcome_cons (h : r.step c = .ok r') : r.outcome (c :: x) = r'.outcome x := by
  rw [outcome, read_cons h, outcome]

/-- Readers that make the same of the next character read on alike. -/
lemma read_congr {cs : List Char} (h : r.step c = r'.step c) : r.read (c :: cs) = r'.read (c :: cs) := by
  rw [read, read, List.foldlM_cons, List.foldlM_cons, h]

/-! ### Members of classes -/

section Classes

variable {opened : Nat} {done : List Member} {first last : Literal} {a b : Char}

/-- A literal that can stand in a class is read as one. -/
lemma read_classLiteral {x : Literal} (hx : x.InClass) :
    read ⟨n, gs, l, .charClass opened done .member⟩ x.text =
      .ok (classLiteral ⟨n + x.text.length - 1, gs, l, .item⟩ opened done x n) := by
  cases x with
  | plain c =>
      obtain ⟨hescape, hclose⟩ := hx
      refine read_singleton.trans ?_
      show Except.ok (classMember _ opened done c) = _
      rw [classMember, if_neg hclose, if_neg hescape]
      simp only [classLiteral, Literal.text, List.length_singleton, Nat.add_sub_cancel]
      split <;> rfl
  | escaped c =>
      have hbackslash : step ⟨n, gs, l, .charClass opened done .member⟩ '\\' =
          .ok ⟨n + 1, gs, l, .charClass opened done (.backslash n)⟩ := rfl
      refine ((read_cons hbackslash).trans read_singleton).trans ?_
      show Except.ok (classLiteral _ opened done (.escaped c) n) = _
      simp only [classLiteral, Literal.text, List.length_cons, List.length_nil, Nat.zero_add,
        Nat.add_succ_sub_one]
      split <;> rfl

/-- A single character of a class is read, and may be the start of a range. -/
lemma read_single {x : Literal} (hx : x.InClass) (ha : x.meaning = .single a) :
    read ⟨n, gs, l, .charClass opened done .member⟩ x.text =
      .ok ⟨n + x.text.length, gs, l, .charClass opened done (.character ⟨x, a, n⟩)⟩ := by
  have hpos : n + x.text.length - 1 + 1 = n + x.text.length := by
    cases x <;> simp [Literal.text]
  rw [read_classLiteral hx, classLiteral]
  simp only [ha, move, hpos]

/-- A literal of a class that stands for several characters is a member at once. -/
lemma read_several {x : Literal} (hx : x.InClass) (ha : ∀ a, x.meaning ≠ .single a) :
    read ⟨n, gs, l, .charClass opened done .member⟩ x.text =
      .ok ⟨n + x.text.length, gs, l, .charClass opened (done ++ [.literal x]) .member⟩ := by
  have hpos : n + x.text.length - 1 + 1 = n + x.text.length := by
    cases x <;> simp [Literal.text]
  rw [read_classLiteral hx, classLiteral]
  split
  next a hsingle => exact absurd hsingle (ha a)
  next => simp only [move, hpos]

/-- Behind a dash, the end of a range is read. -/
lemma read_rangeEnd {start : RangeStart} (hlast : last.InClass) (hb : last.meaning = .single b)
    (hlt : start.char < b) :
    read ⟨n, gs, l, .charClass opened done (.dash start)⟩ last.text =
      .ok ⟨n + last.text.length, gs, l,
        .charClass opened (done ++ [.range start.literal last]) .member⟩ := by
  have hrange : ∀ {k column : Nat} {place : Place},
      classRange ⟨k, gs, l, place⟩ opened done start last column =
        .ok ⟨k + 1, gs, l, .charClass opened (done ++ [.range start.literal last]) .member⟩ := by
    intro k column place
    simp only [classRange, hb, if_pos hlt, move]
  cases last with
  | plain c =>
      obtain ⟨hescape, hclose⟩ := hlast
      refine read_singleton.trans ?_
      show (if c = ']' then _ else if c = '\\' then _ else _) = _
      rw [if_neg hclose, if_neg hescape, hrange]
      rfl
  | escaped c =>
      have hbackslash : step ⟨n, gs, l, .charClass opened done (.dash start)⟩ '\\' =
          .ok ⟨n + 1, gs, l, .charClass opened done (.dashBackslash start n)⟩ := rfl
      exact ((read_cons hbackslash).trans read_singleton).trans hrange

/-- A range of a class is read. -/
lemma read_range (h : (Member.range first last).WellFormed) :
    read ⟨n, gs, l, .charClass opened done .member⟩ (Member.range first last).text =
      .ok ⟨n + (Member.range first last).text.length, gs, l,
        .charClass opened (done ++ [.range first last]) .member⟩ := by
  obtain ⟨hfirst, hlast, a, b, ha, hb, hlt⟩ := h
  have hdash : step ⟨n + first.text.length, gs, l, .charClass opened done (.character ⟨first, a, n⟩)⟩
      '-' = .ok ⟨n + first.text.length + 1, gs, l, .charClass opened done (.dash ⟨first, a, n⟩)⟩ := rfl
  rw [Member.text, read_append, read_single hfirst ha]
  refine (read_cons hdash).trans ?_
  rw [read_rangeEnd hlast hb hlt, List.length_append, List.length_cons]
  congr 2
  omega

/-- Behind a single character that no dash follows, a class is read as behind a member. -/
lemma read_behind_single {start : RangeStart} {cs : List Char} (hne : cs ≠ [])
    (hdash : cs.head? ≠ some '-') :
    read ⟨n, gs, l, .charClass opened done (.character start)⟩ cs =
      read ⟨n, gs, l, .charClass opened (done ++ [.literal start.literal]) .member⟩ cs := by
  cases cs with
  | nil => exact absurd rfl hne
  | cons c cs =>
      have hc : c ≠ '-' := fun h => hdash (by rw [h]; rfl)
      refine read_congr ?_
      show (if c = '-' then _ else _) = _
      rw [if_neg hc]
      rfl

/-- The members of a class are read up to its end, and so are those behind a single character. -/
lemma read_members {members : List Member} (hm : ∀ m ∈ members, m.WellFormed)
    (hs : Member.Separate members) :
    (∀ n done, read ⟨n, gs, l, .charClass opened done .member⟩ (members.flatMap Member.text ++ [']']) =
        .ok ⟨n + (members.flatMap Member.text).length + 1, gs, l,
          .quantifier (.charClass (done ++ members))⟩) ∧
      ∀ n done (start : RangeStart), start.literal.meaning = .single start.char →
        Member.Separate (.literal start.literal :: members) →
        read ⟨n, gs, l, .charClass opened done (.character start)⟩
            (members.flatMap Member.text ++ [']']) =
          .ok ⟨n + (members.flatMap Member.text).length + 1, gs, l,
            .quantifier (.charClass (done ++ .literal start.literal :: members))⟩ := by
  induction members with
  | nil =>
      refine ⟨fun n done => ?_, fun n done start _ _ => ?_⟩
      · rw [List.append_nil]
        rfl
      · refine (read_behind_single (by simp) (by simp)).trans ?_
        rfl
  | cons m members ih =>
      have hrest : Member.Separate members := by
        cases members with
        | nil => trivial
        | cons => exact hs.2
      obtain ⟨ihmember, ihsingle⟩ := ih (fun m' hm' => hm m' (.tail _ hm')) hrest
      have hmember : ∀ n done, read ⟨n, gs, l, .charClass opened done .member⟩
          ((m :: members).flatMap Member.text ++ [']']) =
            .ok ⟨n + ((m :: members).flatMap Member.text).length + 1, gs, l,
              .quantifier (.charClass (done ++ m :: members))⟩ := by
        intro n done
        rw [List.flatMap_cons, List.append_assoc, read_append, List.length_append, ← Nat.add_assoc]
        have hwell := hm m (.head _)
        cases m with
        | range first last =>
            rw [read_range hwell, List.append_cons done _ members]
            exact ihmember _ _
        | literal x =>
            by_cases hsingle : ∃ a, x.meaning = .single a
            · obtain ⟨a, ha⟩ := hsingle
              rw [Member.text, read_single hwell ha]
              exact ihsingle _ _ _ ha hs
            · rw [Member.text, read_several hwell fun a ha => hsingle ⟨a, ha⟩,
                List.append_cons done _ members]
              exact ihmember _ _
      refine ⟨hmember, fun n done start hstart hseparate => ?_⟩
      by_cases hdash : m.text.head? = some '-'
      · -- a dash behind a single character is the last member
        obtain ⟨rfl, rfl⟩ := hseparate.1 ⟨_, hstart⟩ hdash
        rfl
      · obtain ⟨c, cs, hc⟩ : ∃ c cs, m.text = c :: cs := by
          cases m with
          | literal x => cases x <;> exact ⟨_, _, rfl⟩
          | range first last => cases first <;> exact ⟨_, _, rfl⟩
        have hhead : ((m :: members).flatMap Member.text ++ [']']).head? ≠ some '-' := by
          rw [hc] at hdash
          simpa [hc] using hdash
        rw [read_behind_single (by simp) hhead, hmember, List.append_assoc]
        rfl

end Classes

/-! ### Names -/

section Names

variable {marks : NameMarks} {name : List Char}

/-- The characters of a name do not close it. -/
lemma closing_of_continuesName (marks : NameMarks) (h : Header.continuesName c = true) :
    c ≠ marks.closing ∧ c ≠ ')' := by
  refine ⟨?_, ?_⟩
  · rintro rfl
    cases marks <;> exact absurd h (by decide)
  · rintro rfl
    exact absurd h (by decide)

/-- A name goes on with its characters. -/
lemma read_restOfName (hne : name ≠ []) {cs : List Char}
    (h : ∀ c ∈ cs, Header.continuesName c = true) :
    read ⟨n, gs, l, .groupName col marks name⟩ cs =
      .ok ⟨n + cs.length, gs, l, .groupName col marks (name ++ cs)⟩ := by
  induction cs generalizing n name with
  | nil =>
      rw [List.append_nil]
      rfl
  | cons c cs ih =>
      obtain ⟨hclosing, hparenthesis⟩ := closing_of_continuesName marks (h c (.head _))
      have hstep : step ⟨n, gs, l, .groupName col marks name⟩ c =
          .ok ⟨n + 1, gs, l, .groupName col marks (name ++ [c])⟩ := by
        show nameStep _ col marks name c = _
        rw [nameStep, if_neg (by simpa using hne), if_neg hclosing, if_neg hparenthesis,
          if_pos (h c (.head _))]
        rfl
      rw [read_cons hstep, ih (by simp) fun d hd => h d (.tail _ hd),
        List.append_cons name _ cs, List.length_cons, Nat.add_assoc, Nat.add_comm 1]

/-- A name with the marks around it opens a group. -/
lemma read_name (h : IsName name) :
    read ⟨n, gs, l, .parenthesis col⟩ (marks.header name).text =
      .ok ⟨n + (marks.header name).text.length, ⟨col, marks.header name, l⟩ :: gs, {}, .item⟩ := by
  have hmark : read ⟨n, gs, l, .parenthesis col⟩ ['?', marks.opening] =
      .ok ⟨n + 2, gs, l, .groupName col marks []⟩ := by
    cases marks <;> rfl
  obtain ⟨⟨c, hc, hstart⟩, hall⟩ := h
  obtain ⟨cs, rfl⟩ : ∃ cs, name = c :: cs := by
    cases name with
    | nil => cases hc
    | cons d cs => exact ⟨cs, by rw [Option.some.inj hc]⟩
  have hfirst : step ⟨n + 2, gs, l, .groupName col marks []⟩ c =
      .ok ⟨n + 3, gs, l, .groupName col marks [c]⟩ := by
    show (if Header.startsName c then _ else _) = _
    rw [if_pos hstart]
    rfl
  have hlast : step ⟨n + 3 + cs.length, gs, l, .groupName col marks ([c] ++ cs)⟩ marks.closing =
      .ok ⟨n + 3 + cs.length + 1, ⟨col, marks.header (c :: cs), l⟩ :: gs, {}, .item⟩ := by
    show (if marks.closing = marks.closing then _ else _) = _
    rw [if_pos rfl]
    rfl
  rw [NameMarks.text_header, List.append_assoc, read_append, hmark]
  refine (read_cons hfirst).trans ?_
  show read _ (cs ++ [marks.closing]) = _
  rw [read_append, read_restOfName (by simp) fun d hd => hall d (.tail _ hd)]
  refine (read_cons hlast).trans ?_
  show Except.ok _ = _
  simp only [List.length_append, List.length_cons, List.length_nil]
  congr 2
  omega

end Names

/-! ### Quantifiers -/

/-- The characters do not start with a quantifier. -/
def Unquantified (x : List Char) : Prop :=
  ∀ c, x.head? = some c → quantifier? c = none

/-- A character that is no quantifier decides this. -/
lemma unquantified_cons (h : quantifier? c = none) : Unquantified (c :: x) := fun d hd => by
  obtain rfl := Option.some.inj hd
  exact h

/-- A quantifier, or none if none follows, adds the atom in front of it to the branch. -/
lemma outcome_quantifier {a : Pattern.Atom} (q : Quantifier) (hx : Unquantified x) :
    outcome ⟨n, gs, l, .quantifier a⟩ (q.text ++ x) =
      outcome ⟨n + q.text.length, gs, l.append a q, .item⟩ x := by
  cases q with
  | once =>
      cases x with
      | nil => rfl
      | cons c x =>
          refine congrArg (· >>= finish) (read_congr ?_)
          show quantifierStep _ a c = itemStep _ c
          rw [quantifierStep, hx c rfl]
          rfl
  | optional => rfl
  | oneOrMore => rfl
  | zeroOrMore => rfl

end Reader

namespace Pattern

open Reader

/-- An atom starts with a character, which is not a quantifier. -/
lemma Atom.unquantified_text {a : Atom} (h : a.WellFormed) (x : List Char) :
    Unquantified (a.text ++ x) := by
  intro c hc
  cases a with
  | literal l =>
      cases l with
      | plain d =>
          obtain rfl : d = c := by simpa [text, Literal.text] using hc
          have hd : d ∉ itemMarks := h
          rw [quantifier?.eq_def]
          split <;> simp_all [itemMarks]
      | escaped d =>
          obtain rfl : '\\' = c := by simpa [text, Literal.text] using hc
          rfl
  | charClass members =>
      obtain rfl : '[' = c := by simpa [text] using hc
      rfl
  | group header body =>
      obtain rfl : '(' = c := by simpa [text] using hc
      rfl

/-- A branch does not start with a quantifier if none follows it. -/
lemma Sequence.unquantified_text : ∀ {s : Sequence}, s.WellFormed → ∀ {x : List Char},
    Unquantified x → Unquantified (s.text ++ x)
  | .empty, _, _, hx => hx
  | .append items atom q, h, x, _ => by
      rw [text, List.append_assoc, List.append_assoc]
      exact items.unquantified_text h.1 (Atom.unquantified_text h.2 _)

/-- A pattern does not start with a quantifier if none follows it. -/
lemma unquantified_text : ∀ {p : Pattern}, p.WellFormed → ∀ {x : List Char},
    Unquantified x → Unquantified (p.text ++ x)
  | .single _, h, _, hx => Sequence.unquantified_text h hx
  | .alternative branches branch, h, x, _ => by
      rw [text, List.append_assoc]
      exact branches.unquantified_text h.1 (unquantified_cons rfl)

end Pattern

/-! ### Trees -/

/-- The level on which all branches of a pattern have been read. -/
def Level.ofPattern : Pattern → Level
  | .single branch => ⟨none, branch⟩
  | .alternative branches branch => ⟨some branches, branch⟩

/-- What has been read on the level of a pattern is the pattern. -/
@[simp] lemma Level.toPattern_ofPattern (p : Pattern) : (ofPattern p).toPattern = p := by
  cases p <;> rfl

namespace Reader

variable {n col : Nat} {gs : List OpenGroup} {l : Level} {x : List Char}

/-- The header of a group leads into the group, whose inside does not start with a question mark. -/
lemma outcome_header {header : Header} (h : header.WellFormed) (hx : Unquantified x) (hne : x ≠ []) :
    outcome ⟨n, gs, l, .parenthesis col⟩ (header.text ++ x) =
      outcome ⟨n + header.text.length, ⟨col, header, l⟩ :: gs, {}, .item⟩ x := by
  have hname : ∀ (marks : NameMarks) {name : List Char}, IsName name →
      outcome ⟨n, gs, l, .parenthesis col⟩ ((marks.header name).text ++ x) =
        outcome ⟨n + (marks.header name).text.length, ⟨col, marks.header name, l⟩ :: gs, {}, .item⟩ x :=
    fun _ _ h => outcome_append (read_name h)
  cases header with
  | anonymous =>
      obtain ⟨c, y, rfl⟩ := List.exists_cons_of_ne_nil hne
      have hc : c ≠ '?' := by
        rintro rfl
        cases hx '?' rfl
      refine congrArg (· >>= finish) (read_congr ?_)
      show (if c = '?' then _ else _) = _
      rw [if_neg hc]
      rfl
  | angled name => simpa only [NameMarks.header, String.ofList_toList] using hname .angles h
  | quoted name => simpa only [NameMarks.header, String.ofList_toList] using hname .quotes h

/-- The character of a literal that can be an item is the item. -/
lemma itemStep_plain {c : Char} (hc : c ∉ itemMarks) :
    itemStep ⟨n, gs, l, .item⟩ c = .ok ⟨n + 1, gs, l, .quantifier (.literal (.plain c))⟩ := by
  rw [itemStep.eq_def]
  split
  case h_14 => rfl
  all_goals exact absurd (by decide) hc

mutual

/-- The text of a well-formed atom is read as the atom. -/
lemma outcome_atom : ∀ {a : Pattern.Atom}, a.WellFormed → ∀ (n : Nat) (gs : List OpenGroup)
    (l : Level) (x : List Char), outcome ⟨n, gs, l, .item⟩ (a.text ++ x) =
      outcome ⟨n + a.text.length, gs, l, .quantifier a⟩ x
  | .literal (.plain _), h, _, _, _, _ => outcome_cons (itemStep_plain h)
  | .literal (.escaped _), _, _, _, _, _ => rfl
  | .charClass members, h, n, gs, l, x => by
      have hread : read ⟨n, gs, l, .item⟩ (Pattern.Atom.charClass members).text =
          .ok ⟨n + (Pattern.Atom.charClass members).text.length, gs, l,
            .quantifier (.charClass members)⟩ := by
        have hopen : step ⟨n, gs, l, .item⟩ '[' = .ok ⟨n + 1, gs, l, .charClass n [] .member⟩ := rfl
        refine (read_cons hopen).trans (((read_members h.1 h.2).1 _ _).trans ?_)
        simp only [Pattern.Atom.text, List.nil_append, List.length_cons, List.length_append,
          List.length_nil]
        congr 2
        omega
      exact outcome_append hread
  | .group header body, h, n, gs, l, x => by
      have hopen : step ⟨n, gs, l, .item⟩ '(' = .ok ⟨n + 1, gs, l, .parenthesis n⟩ := rfl
      have hend : Unquantified (')' :: x) := unquantified_cons rfl
      have htext : (Pattern.Atom.group header body).text ++ x =
          '(' :: (header.text ++ (body.text ++ ')' :: x)) := by
        simp
      have hclose : ∀ k, step ⟨k, ⟨n, header, l⟩ :: gs, .ofPattern body, .item⟩ ')' =
          .ok ⟨k + 1, gs, l, .quantifier (.group header body)⟩ := fun k => by
        show Except.ok _ = _
        simp [move]
      rw [htext, outcome_cons hopen,
        outcome_header h.1 (Pattern.unquantified_text h.2 hend) (by simp),
        outcome_pattern h.2 _ _ hend, outcome_cons (hclose _)]
      simp only [Pattern.Atom.text, List.length_cons, List.length_append, List.length_nil]
      congr 2
      omega

/-- The text of a well-formed branch is read as the branch. -/
lemma outcome_branch : ∀ {s : Pattern.Sequence}, s.WellFormed → ∀ (n : Nat)
    (gs : List OpenGroup) (finished : Option Pattern) {x : List Char}, Unquantified x →
      outcome ⟨n, gs, ⟨finished, .empty⟩, .item⟩ (s.text ++ x) =
        outcome ⟨n + s.text.length, gs, ⟨finished, s⟩, .item⟩ x
  | .empty, _, _, _, _, _, _ => rfl
  | .append items atom q, h, n, gs, finished, x, hx => by
      rw [Pattern.Sequence.text, List.append_assoc, List.append_assoc,
        outcome_branch h.1 n gs finished (Pattern.Atom.unquantified_text h.2 _),
        outcome_atom h.2, outcome_quantifier q hx]
      simp only [List.length_append, Nat.add_assoc]
      rfl

/-- The text of a well-formed pattern is read as the pattern. -/
theorem outcome_pattern : ∀ {p : Pattern}, p.WellFormed → ∀ (n : Nat) (gs : List OpenGroup)
    {x : List Char}, Unquantified x →
      outcome ⟨n, gs, {}, .item⟩ (p.text ++ x) =
        outcome ⟨n + p.text.length, gs, .ofPattern p, .item⟩ x
  | .single branch, h, n, gs, x, hx => outcome_branch h n gs none hx
  | .alternative branches branch, h, n, gs, x, hx => by
      have hbar : Unquantified ('|' :: (branch.text ++ x)) := unquantified_cons rfl
      have hstep : step ⟨n + branches.text.length, gs, .ofPattern branches, .item⟩ '|' =
          .ok ⟨n + branches.text.length + 1, gs, ⟨some branches, .empty⟩, .item⟩ := by
        show Except.ok _ = _
        simp [move, Level.bar]
      rw [Pattern.text, List.append_assoc, List.cons_append, outcome_pattern h.1 n gs hbar,
        outcome_cons hstep, outcome_branch h.2 _ _ _ hx, List.length_append, List.length_cons]
      simp only [Nat.add_assoc, Nat.add_comm 1]
      rfl

end

end Reader

/-! ### Whole patterns -/

namespace Pattern

/-- The text of a well-formed pattern, which has at least one character, is read as the pattern. -/
lemma parse_of_wellFormed {t : String} {p : Pattern} (hp : p.WellFormed) (ht : p.text = t.toList)
    (hne : t ≠ "") : Pattern.parse t = .ok p := by
  have hend : Reader.Unquantified [] := fun c hc => by cases hc
  have hread : Reader.outcome {} p.text = .ok p := by
    have hwhole := Reader.outcome_pattern hp 0 [] hend
    rw [List.append_nil] at hwhole
    refine hwhole.trans ?_
    show Except.ok _ = _
    rw [Level.toPattern_ofPattern]
  have hchars : t.toList.isEmpty = false := by
    simpa using hne
  rw [parse, mapError_eq_ok, Reader.readPattern, hchars, ← ht]
  rw [Reader.outcome, bind_eq_ok] at hread
  obtain ⟨r, hr, hfinish⟩ := hread
  simp [hr, hfinish]

/-- A text with at least one character is read as a tree exactly if the tree is written in the grammar
of patterns, and as this text. -/
lemma parse_eq_ok_iff {t : String} (hne : t ≠ "") {p : Pattern} :
    Pattern.parse t = .ok p ↔ p.WellFormed ∧ p.text = t.toList :=
  ⟨fun h => ⟨wellFormed_of_parse h, text_of_parse h⟩, fun h => parse_of_wellFormed h.1 h.2 hne⟩

end Pattern

end CaptureAutomata
