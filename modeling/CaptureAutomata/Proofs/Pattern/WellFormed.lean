/-
Patterns that have been read are written in the grammar:

* `Member.Apart`: a member of a class that does not start with a dash, or stands behind one that is
  not a single character; classes are read as chains of such members;
* `Reader.WellFormed`: what has been read is well-formed, as far as it has been put together;
* `Reader.WellFormed.step`: reading a character keeps a reader well-formed;
* `Pattern.wellFormed_of_parse`: the pattern at the end is well-formed.
-/
import CaptureAutomata.Pattern.Grammar
import CaptureAutomata.Pattern.Reader
import CaptureAutomata.Proofs.Outcome

namespace CaptureAutomata

/-! ### Classes -/

namespace Member

/-- `n` does not start with a dash, or does not stand behind a single character. -/
def Apart (m n : Member) : Prop :=
  m.IsSingle → n.text.head? ≠ some '-'

/-- Members that are apart are separate, and so they are in front of a last dash. -/
lemma separate_of_isChain {members : List Member} (h : members.IsChain Apart) :
    Separate members ∧ Separate (members ++ [literal (.plain '-')]) := by
  induction members with
  | nil => exact ⟨trivial, trivial⟩
  | cons m members ih =>
      cases members with
      | nil => exact ⟨trivial, fun _ _ => ⟨rfl, rfl⟩, trivial⟩
      | cons n members =>
          obtain ⟨hmn, hrest⟩ := List.isChain_cons_cons.1 h
          obtain ⟨hs, hdash⟩ := ih hrest
          exact ⟨⟨fun hm hn => absurd hn (hmn hm), hs⟩, fun hm hn => absurd hn (hmn hm), hdash⟩

/-- A member may be added that is apart from the last one. -/
lemma isChain_append {members : List Member} {n : Member} (h : members.IsChain Apart)
    (hn : ∀ m, members.getLast? = some m → m.Apart n) : (members ++ [n]).IsChain Apart := by
  refine List.isChain_append.2 ⟨h, .singleton n, fun m hm x hx => ?_⟩
  obtain rfl : n = x := by simpa using hx
  exact hn m hm

end Member

/-- What is known about the members of a class and the place behind them. -/
def ClassPlace.WellFormed (members : List Member) : ClassPlace → Prop
  | member => ∀ m, members.getLast? = some m → ¬ m.IsSingle
  | backslash _ => True
  | character first | dash first | dashBackslash first _ =>
    first.literal.InClass ∧ first.literal.meaning = .single first.char ∧
      ∀ m, members.getLast? = some m → m.Apart (.literal first.literal)

/-! ### Readers -/

/-- What has been read of an item is well-formed. -/
def Place.WellFormed : Place → Prop
  | item | backslash _ | parenthesis _ | questionMark _ => True
  | quantifier atom => atom.WellFormed
  | groupName _ _ name => name = [] ∨ IsName name
  | charClass _ members place =>
    (∀ m ∈ members, m.WellFormed) ∧ members.IsChain Member.Apart ∧ place.WellFormed members

/-- All that has been read is well-formed, as far as it has been put together. -/
structure Reader.WellFormed (r : Reader) : Prop where
  /-- The headers of the open groups and the branches around them are. -/
  groups : ∀ g ∈ r.groups, g.header.WellFormed ∧ g.outside.toPattern.WellFormed
  /-- The branches of the innermost group are. -/
  level : r.level.toPattern.WellFormed
  /-- The item is. -/
  place : r.place.WellFormed

/-- An item keeps the branches around it well-formed. -/
lemma Level.wellFormed_append {l : Level} {atom : Pattern.Atom} {q : Quantifier}
    (h : l.toPattern.WellFormed) (ha : atom.WellFormed) : (l.append atom q).toPattern.WellFormed := by
  rw [append, toPattern]
  rw [toPattern] at h
  cases hf : l.finished with
  | none =>
      rw [hf] at h
      exact ⟨h, ha⟩
  | some branches =>
      rw [hf] at h
      exact ⟨h.1, h.2, ha⟩

/-- What may go on after a name's first character also may be that one. -/
lemma Header.continuesName_of_startsName {c : Char} (h : startsName c = true) :
    continuesName c = true := by
  simp only [startsName, continuesName, Bool.or_eq_true, Char.isAlphanum] at h ⊢
  exact h.imp_right Or.inl

lemma NameMarks.wellFormed_header {marks : NameMarks} {name : List Char} (h : IsName name) :
    (marks.header name).WellFormed := by
  cases marks with
  | angles => simpa [header, Header.WellFormed] using h
  | quotes => simpa [header, Header.WellFormed] using h

namespace Reader

variable {r r' : Reader} {c : Char}

lemma WellFormed.move (hr : r.WellFormed) {place : Place} (hp : place.WellFormed) :
    (r.move place).WellFormed :=
  ⟨hr.groups, hr.level, hp⟩

/-- A literal of a class may be followed by more. -/
lemma WellFormed.classLiteral (hr : r.WellFormed) {opened column : Nat} {members : List Member}
    {l : Literal} (hm : ∀ m ∈ members, m.WellFormed) (hc : members.IsChain Member.Apart)
    (hl : l.InClass) (hlast : ∀ m, members.getLast? = some m → m.Apart (.literal l)) :
    (r.classLiteral opened members l column).WellFormed := by
  rw [Reader.classLiteral]
  split
  next d hd => exact hr.move ⟨hm, hc, hl, hd, hlast⟩
  next hmeaning =>
    refine hr.move ⟨fun m hmem => ?_, Member.isChain_append hc hlast, fun m hget => ?_⟩
    · rcases List.mem_append.1 hmem with hmem | hmem
      · exact hm m hmem
      · rw [List.mem_singleton.1 hmem]
        exact hl
    · obtain rfl : Member.literal l = m := by simpa using hget
      rintro ⟨d, hd⟩
      exact hmeaning d hd

/-- A character of a class may be followed by more, and a class may end where it stands. -/
lemma WellFormed.classMember (hr : r.WellFormed) {opened : Nat} {members : List Member}
    (hm : ∀ m ∈ members, m.WellFormed) (hc : members.IsChain Member.Apart)
    (hlast : c ≠ '-' ∨ ∀ m, members.getLast? = some m → ¬ m.IsSingle) :
    (r.classMember opened members c).WellFormed := by
  rw [Reader.classMember]
  split
  next => exact hr.move ⟨hm, (Member.separate_of_isChain hc).1⟩
  next hclose =>
    split
    next => exact hr.move ⟨hm, hc, trivial⟩
    next hescape =>
      refine hr.classLiteral hm hc ⟨hescape, hclose⟩ fun m hget hsingle => ?_
      rcases hlast with hdash | hlast
      · simpa [Member.text, Literal.text] using hdash
      · exact absurd hsingle (hlast m hget)

/-- The end of a range may be followed by more. -/
lemma WellFormed.classRange (hr : r.WellFormed) {opened column : Nat} {members : List Member}
    {first : RangeStart} {last : Literal} (hm : ∀ m ∈ members, m.WellFormed)
    (hc : members.IsChain Member.Apart)
    (hfirst : first.literal.InClass ∧ first.literal.meaning = .single first.char ∧
      ∀ m, members.getLast? = some m → m.Apart (.literal first.literal))
    (hlast : last.InClass) (h : r.classRange opened members first last column = .ok r') :
    r'.WellFormed := by
  rw [Reader.classRange] at h
  split at h
  next d hd =>
    split at h
    next hlt =>
      cases h
      refine hr.move ⟨fun m hmem => ?_, Member.isChain_append hc fun m hget hsingle => ?_,
        fun m hget => ?_⟩
      · rcases List.mem_append.1 hmem with hmem | hmem
        · exact hm m hmem
        · rw [List.mem_singleton.1 hmem]
          exact ⟨hfirst.1, hlast, _, _, hfirst.2.1, hd, hlt⟩
      · have hhead := hfirst.2.2 m hget hsingle
        cases hl : first.literal with
        | plain a => simpa [Member.text, Literal.text, hl] using hhead
        | escaped a => simp [Member.text, Literal.text]
      · obtain rfl : Member.range first.literal last = m := by simpa using hget
        exact id
    next => cases h
  next => cases h

/-- A character in a class keeps a reader well-formed. -/
lemma WellFormed.classStep (hr : r.WellFormed) {opened : Nat} {members : List Member}
    {place : ClassPlace} (hp : (Place.charClass opened members place).WellFormed)
    (h : r.classStep opened members c place = .ok r') : r'.WellFormed := by
  obtain ⟨hm, hc, hplace⟩ := hp
  -- the class with the single character that stands before the place
  have hadd : ∀ {first : RangeStart}, (ClassPlace.character first).WellFormed members →
      (∀ m ∈ members ++ [Member.literal first.literal], m.WellFormed) ∧
        (members ++ [Member.literal first.literal]).IsChain Member.Apart := by
    rintro first ⟨hclass, -, hapart⟩
    refine ⟨fun m hmem => ?_, Member.isChain_append hc hapart⟩
    rcases List.mem_append.1 hmem with hmem | hmem
    · exact hm m hmem
    · rw [List.mem_singleton.1 hmem]
      exact hclass
  cases place with
  | member =>
      cases h
      exact hr.classMember hm hc (Or.inr hplace)
  | backslash column =>
      cases h
      refine hr.classLiteral hm hc trivial fun m _ _ => ?_
      simp [Member.text, Literal.text]
  | character first =>
      obtain ⟨hm', hc'⟩ := hadd hplace
      rw [Reader.classStep] at h
      split at h
      next =>
        cases h
        exact hr.move ⟨hm, hc, hplace⟩
      next hdash =>
        cases h
        exact hr.classMember hm' hc' (Or.inl hdash)
  | dash first =>
      obtain ⟨hm', hc'⟩ := hadd hplace
      rw [Reader.classStep] at h
      split at h
      next hclose =>
        cases h
        rw [Reader.classMember, if_pos hclose]
        refine hr.move ⟨fun m hmem => ?_, ?_⟩
        · rw [List.append_cons] at hmem
          rcases List.mem_append.1 hmem with hmem | hmem
          · exact hm' m hmem
          · rw [List.mem_singleton.1 hmem]
            exact ⟨by decide, by decide⟩
        · rw [List.append_cons]
          exact (Member.separate_of_isChain hc').2
      next hclose =>
        split at h
        next =>
          cases h
          exact hr.move ⟨hm, hc, hplace⟩
        next hescape =>
          have hlast : (Literal.plain c).InClass := ⟨hescape, hclose⟩
          exact hr.classRange hm hc hplace hlast h
  | dashBackslash first column =>
      have hlast : (Literal.escaped c).InClass := trivial
      exact hr.classRange hm hc hplace hlast h

/-! ### Groups and items -/

/-- A reader stays well-formed inside of a group with a well-formed header. -/
lemma WellFormed.enter (hr : r.WellFormed) {column : Nat} {header : Header}
    (hh : header.WellFormed) : (r.enter column header).WellFormed := by
  refine ⟨fun g hg => ?_, trivial, trivial⟩
  rcases List.mem_cons.1 hg with rfl | hg
  · exact ⟨hh, hr.level⟩
  · exact hr.groups g hg

/-- A character of a name keeps a reader well-formed. -/
lemma WellFormed.nameStep (hr : r.WellFormed) {column : Nat} {marks : NameMarks}
    {name : List Char} (hname : name = [] ∨ IsName name)
    (h : r.nameStep column marks name c = .ok r') : r'.WellFormed := by
  rw [Reader.nameStep] at h
  split at h
  next =>
    split at h
    next hstart =>
      cases h
      have hone : IsName [c] :=
        ⟨⟨c, rfl, hstart⟩, fun d hd => by
          rw [List.mem_singleton.1 hd]
          exact Header.continuesName_of_startsName hstart⟩
      exact hr.move (Or.inr hone)
    next => cases h
  next hne =>
    have hname : IsName name := hname.resolve_left fun hnil => hne (by rw [hnil]; rfl)
    split at h
    next =>
      cases h
      exact (hr.enter (NameMarks.wellFormed_header hname)).move trivial
    next =>
      split at h
      next => cases h
      next =>
        split at h
        next hcont =>
          cases h
          obtain ⟨⟨d, hd, hstart⟩, hall⟩ := hname
          have hmore : IsName (name ++ [c]) := by
            refine ⟨⟨d, by simp [List.head?_append, hd], hstart⟩, fun x hx => ?_⟩
            rcases List.mem_append.1 hx with hx | hx
            · exact hall x hx
            · rwa [List.mem_singleton.1 hx]
          exact hr.move (Or.inr hmore)
        next => cases h

/-- The mark in front of a name keeps a reader well-formed. -/
lemma WellFormed.headerStep (hr : r.WellFormed) {column : Nat}
    (h : r.headerStep column c = .ok r') : r'.WellFormed := by
  rw [Reader.headerStep] at h
  split at h
  next =>
    cases h
    exact hr.move (Or.inl rfl)
  next =>
    split at h
    next =>
      cases h
      exact hr.move (Or.inl rfl)
    next => cases h

/-- Closing a group keeps a reader well-formed. -/
lemma WellFormed.leave (hr : r.WellFormed) (h : r.leave = .ok r') : r'.WellFormed := by
  rw [Reader.leave] at h
  split at h
  next => cases h
  next g groups hg =>
    cases h
    obtain ⟨hheader, houtside⟩ := hr.groups g (by rw [hg]; exact .head _)
    exact ⟨fun g' hg' => hr.groups g' (by rw [hg]; exact .tail _ hg'), houtside, hheader, hr.level⟩

/-- The first character of an item keeps a reader well-formed. -/
lemma WellFormed.itemStep (hr : r.WellFormed) (h : r.itemStep c = .ok r') : r'.WellFormed := by
  rw [Reader.itemStep.eq_def] at h
  split at h
  case h_4 =>
    cases h
    exact ⟨hr.groups, ⟨hr.level, trivial⟩, trivial⟩
  case h_5 => exact hr.leave h
  case h_6 =>
    rw [strayBracket] at h
    split at h <;> cases h
  case h_14 =>
    cases h
    refine hr.move ?_
    show c ∉ itemMarks
    simp_all [itemMarks]
  all_goals cases h
  · exact hr.move trivial
  · exact hr.move ⟨by simp, .nil, by simp [ClassPlace.WellFormed]⟩
  · exact hr.move trivial

lemma WellFormed.append (hr : r.WellFormed) {atom : Pattern.Atom} {q : Quantifier}
    (ha : atom.WellFormed) : (r.append atom q).WellFormed :=
  ⟨hr.groups, Level.wellFormed_append hr.level ha, trivial⟩

/-! ### Whole patterns -/

/-- Reading a character keeps a reader well-formed. -/
lemma WellFormed.step (hr : r.WellFormed) (h : r.step c = .ok r') : r'.WellFormed := by
  have hplace := hr.place
  rw [Reader.step] at h
  split at h
  next => exact hr.itemStep h
  next atom hp =>
    rw [hp] at hplace
    rw [quantifierStep] at h
    split at h
    next =>
      cases h
      exact (hr.append hplace).move trivial
    next => exact (hr.append hplace).itemStep h
  next =>
    cases h
    exact hr.move trivial
  next column hp =>
    split at h
    next =>
      cases h
      exact hr.move trivial
    next =>
      have henter : (r.enter column .anonymous).WellFormed := hr.enter trivial
      exact henter.itemStep h
  next => exact hr.headerStep h
  next hp =>
    rw [hp] at hplace
    exact hr.nameStep hplace h
  next hp =>
    rw [hp] at hplace
    exact hr.classStep hplace h

/-- Reading characters keeps a reader well-formed. -/
lemma WellFormed.read {cs : List Char} (hr : r.WellFormed) (h : r.read cs = .ok r') :
    r'.WellFormed := by
  induction cs generalizing r with
  | nil =>
      cases h
      exact hr
  | cons c cs ih =>
      rw [Reader.read, List.foldlM_cons] at h
      obtain ⟨r₁, h₁, h⟩ := bind_eq_ok.1 h
      exact ih (hr.step h₁) h

/-- The pattern at the end is well-formed. -/
lemma WellFormed.finish (hr : r.WellFormed) {p : Pattern} (h : r.finish = .ok p) :
    p.WellFormed := by
  have hclose : ∀ {r : Reader}, r.WellFormed → r.close = .ok p → p.WellFormed := by
    intro r hr h
    rw [Reader.close] at h
    split at h
    next =>
      cases h
      exact hr.level
    next => cases h
  have hplace := hr.place
  rw [Reader.finish] at h
  split at h
  next => exact hclose hr h
  next atom hp =>
    rw [hp] at hplace
    exact hclose (hr.append hplace) h
  all_goals cases h

end Reader

/-- Every pattern that can be read is written in the grammar of patterns. -/
lemma Pattern.wellFormed_of_parse {t : String} {p : Pattern} (h : Pattern.parse t = .ok p) :
    p.WellFormed := by
  rw [parse, mapError_eq_ok, Reader.readPattern] at h
  split at h
  next => cases h
  next =>
    split at h
    next => cases h
    next r hr =>
      have hstart : ({} : Reader).WellFormed := ⟨by simp, trivial, trivial⟩
      exact (hstart.read hr).finish h

end CaptureAutomata
