/-
Where a text stops being a pattern:

* `Pattern.Completable`: some characters can be put behind these so that they are a pattern;
* `Reader.columns`: the columns that a reader keeps to point at them later;
* `Reader.Heeds`: what a step may lead to: a reader that keeps no other columns but that of the character
  it has read, or a mistake at one of these columns or at this character; `Reader.heeds_step` and one
  lemma for each kind of step;
* `Reader.completes_of_step`: a reader that can go on at all can be led to the end of a pattern: the
  class or the name is closed, and then all open groups are;
* `Pattern.completable_before_mistake`: so what stands before a mistake can be completed.
-/
import CaptureAutomata.Proofs.Pattern.Layout

namespace CaptureAutomata

/-! ### Columns -/

/-- The columns that are kept in a class besides that of its opening bracket. -/
def ClassPlace.columns : ClassPlace → List Nat
  | member => []
  | backslash column => [column]
  | character first | dash first => [first.column]
  | dashBackslash first column => [first.column, column]

/-- The columns that are kept in an item. -/
def Place.columns : Place → List Nat
  | item | quantifier _ => []
  | backslash column | parenthesis column | questionMark column | groupName column _ _ => [column]
  | charClass column _ place => column :: place.columns

/-- The item can always be completed here. Behind the backslash at the end of a range it cannot if the
range would start with the last of all characters. -/
def Place.IsOpen : Place → Prop
  | charClass _ _ (.dashBackslash _ _) => False
  | _ => True

namespace Reader

/-- The columns that a reader keeps: those of the open groups and those of its place. -/
def columns (r : Reader) : List Nat :=
  r.groups.map (·.column) ++ r.place.columns

/-- The column is kept, or is that of the next character where the item can be completed. -/
def PointsAt (r : Reader) (k : Nat) : Prop :=
  k ∈ r.columns ∨ k = r.column ∧ r.place.IsOpen

/-- What may come of reading a character. -/
inductive Heeds (r : Reader) : Except Mistake Reader → Prop
  /-- The reader goes on, and keeps no other column besides that of the character. -/
  | ok {r' : Reader} (hcolumn : r'.column = r.column + 1)
      (hmem : ∀ k ∈ r'.columns, k ∈ r.columns ∨ k = r.column) : Heeds r (.ok r')
  /-- There is a mistake at a column that is kept, or at the character. -/
  | error {e : Mistake} (h : r.PointsAt e.column) : Heeds r (.error e)

variable {r r' : Reader} {c : Char} {e : Mistake}

attribute [local simp] Place.columns ClassPlace.columns

/-! ### Steps -/

/-- A move keeps the columns of the groups and those of the new place. -/
lemma heeds_move {place : Place} (h : ∀ k ∈ place.columns, k ∈ r.columns ∨ k = r.column) :
    r.Heeds (.ok (r.move place)) := by
  refine .ok rfl fun k hk => ?_
  rcases List.mem_append.1 hk with hk | hk
  · exact Or.inl (List.mem_append_left _ hk)
  · exact h k hk

/-- The character that is being read may be at fault. -/
lemma heeds_fail (ho : r.place.IsOpen) (reason : Malformed.Reason) : r.Heeds (r.fail reason) :=
  .error (Or.inr ⟨rfl, ho⟩)

/-- With fewer columns kept before, what is read next is heeded as well. -/
lemma Heeds.mono {q : Reader} {x : Except Mistake Reader} (h : q.Heeds x) (hcolumn : q.column = r.column)
    (hmem : ∀ k ∈ q.columns, k ∈ r.columns) (ho : r.place.IsOpen) : r.Heeds x := by
  cases h with
  | ok hnext hkept =>
      refine .ok (by rw [hnext, hcolumn]) fun k hk => ?_
      rw [← hcolumn]
      exact (hkept k hk).imp_left (hmem k)
  | error h =>
      refine .error (h.imp (hmem _) fun hk => ⟨?_, ho⟩)
      rw [hk.1, hcolumn]

lemma mem_columns_of_place {place : Place} {k : Nat} (hp : r.place = place) (hk : k ∈ place.columns) :
    k ∈ r.columns :=
  List.mem_append_right _ (hp ▸ hk)

lemma mem_columns_of_groups {g : OpenGroup} (hg : g ∈ r.groups) : g.column ∈ r.columns :=
  List.mem_append_left _ (List.mem_map_of_mem hg)

/-- Behind an item only the columns of the groups are kept. -/
lemma mem_columns_append {atom : Pattern.Atom} {q : Quantifier} {k : Nat}
    (hk : k ∈ (r.append atom q).columns) : k ∈ r.columns := by
  rw [columns, append, Place.columns, List.append_nil] at hk
  exact List.mem_append_left _ hk

/-- Inside of a group its column is kept, too, which the place before has kept. -/
lemma mem_columns_enter {column k : Nat} {header : Header} (hc : column ∈ r.columns)
    (hk : k ∈ (r.enter column header).columns) : k ∈ r.columns := by
  rw [columns, enter, Place.columns, List.append_nil, List.map_cons, List.mem_cons] at hk
  rcases hk with rfl | hk
  · exact hc
  · exact List.mem_append_left _ hk

/-- The end of a group. -/
lemma heeds_leave (ho : r.place.IsOpen) : r.Heeds r.leave := by
  rw [leave]
  split
  next => exact heeds_fail ho _
  next g groups hg =>
    refine .ok rfl fun k hk => Or.inl (List.mem_append_left _ ?_)
    rw [columns, move, Place.columns, List.append_nil] at hk
    rw [hg]
    exact List.mem_cons_of_mem _ hk

/-- A closing square bracket outside of a class. -/
lemma heeds_strayBracket (ho : r.place.IsOpen) : r.Heeds r.strayBracket := by
  rw [strayBracket]
  split
  next => exact heeds_fail ho _
  next g groups hg => exact .error (Or.inl (mem_columns_of_groups (hg ▸ .head _)))

/-- The first character of an item. -/
lemma heeds_itemStep (ho : r.place.IsOpen) : r.Heeds (r.itemStep c) := by
  rw [itemStep.eq_def]
  split
  case h_1 => exact heeds_move (by simp)
  case h_2 => exact heeds_move (by simp)
  case h_3 => exact heeds_move (by simp)
  case h_4 =>
    refine .ok rfl fun k hk => Or.inl (List.mem_append_left _ ?_)
    rwa [columns, move, Place.columns, List.append_nil] at hk
  case h_5 => exact heeds_leave ho
  case h_6 => exact heeds_strayBracket ho
  case h_14 => exact heeds_move (by simp)
  all_goals exact heeds_fail ho _

/-- A character behind an atom. -/
lemma heeds_quantifierStep {atom : Pattern.Atom} (ho : r.place.IsOpen) :
    r.Heeds (r.quantifierStep atom c) := by
  rw [quantifierStep]
  split
  next q _ =>
    refine .ok rfl fun k hk => Or.inl (List.mem_append_left _ ?_)
    rwa [columns, move, Place.columns, List.append_nil] at hk
  next =>
    have hitem : (r.append atom .once).Heeds ((r.append atom .once).itemStep c) :=
      heeds_itemStep trivial
    exact hitem.mono rfl (fun _ => mem_columns_append) ho

/-- The character behind the question mark at the start of a group. -/
lemma heeds_headerStep {column : Nat} (hp : r.place = .questionMark column) :
    r.Heeds (r.headerStep column c) := by
  have hkept : column ∈ r.columns := mem_columns_of_place hp (.head _)
  rw [headerStep]
  split
  next => exact heeds_move (by simpa using Or.inl hkept)
  next =>
    split
    next => exact heeds_move (by simpa using Or.inl hkept)
    next => exact heeds_fail (hp ▸ trivial) _

/-- A character of a name. -/
lemma heeds_nameStep {column : Nat} {marks : NameMarks} {name : List Char}
    (hp : r.place = .groupName column marks name) : r.Heeds (r.nameStep column marks name c) := by
  have hkept : column ∈ r.columns := mem_columns_of_place hp (.head _)
  have hgoes : ∀ name', r.Heeds (.ok (r.move (.groupName column marks name'))) := fun name' =>
    heeds_move (by simpa using Or.inl hkept)
  have hfail : ∀ reason, r.Heeds (r.fail reason) := heeds_fail (hp ▸ trivial)
  rw [nameStep]
  split
  next =>
    split
    next => exact hgoes _
    next => exact hfail _
  next =>
    split
    next => exact .ok rfl fun k hk => Or.inl (mem_columns_enter hkept hk)
    next =>
      split
      next => exact .error (Or.inl hkept)
      next =>
        split
        next => exact hgoes _
        next => exact hfail _

/-! ### Steps in a class -/

section Classes

variable {opened column : Nat} {members : List Member}

/-- A literal of a class. -/
lemma heeds_classLiteral {l : Literal} (hopened : opened ∈ r.columns)
    (hcolumn : column ∈ r.columns ∨ column = r.column) :
    r.Heeds (.ok (r.classLiteral opened members l column)) := by
  rw [classLiteral]
  split
  next => exact heeds_move (by simpa using ⟨Or.inl hopened, hcolumn⟩)
  next => exact heeds_move (by simpa using Or.inl hopened)

/-- The first character of a member of a class, or the end of the class. -/
lemma heeds_classMember (hopened : opened ∈ r.columns) :
    r.Heeds (.ok (r.classMember opened members c)) := by
  rw [classMember]
  split
  next => exact heeds_move (by simp)
  next =>
    split
    next => exact heeds_move (by simpa using Or.inl hopened)
    next => exact heeds_classLiteral hopened (Or.inr rfl)

/-- The end of a range. -/
lemma heeds_classRange {first : RangeStart} {last : Literal} (hopened : opened ∈ r.columns)
    (hfirst : first.column ∈ r.columns) (hcolumn : r.PointsAt column) :
    r.Heeds (r.classRange opened members first last column) := by
  rw [classRange]
  split
  next =>
    split
    next => exact heeds_move (by simpa using Or.inl hopened)
    next => exact .error (Or.inl hfirst)
  next => exact .error hcolumn

/-- A character of a class. -/
lemma heeds_classStep {place : ClassPlace} (hp : r.place = .charClass opened members place) :
    r.Heeds (r.classStep opened members c place) := by
  have hopened : opened ∈ r.columns := mem_columns_of_place hp (.head _)
  have hkept : ∀ k ∈ place.columns, k ∈ r.columns := fun k hk =>
    mem_columns_of_place hp (List.mem_cons_of_mem _ hk)
  cases place with
  | member => exact heeds_classMember hopened
  | backslash column => exact heeds_classLiteral hopened (Or.inl (hkept column (.head _)))
  | character first =>
      rw [classStep]
      split
      next =>
        have hfirst := hkept first.column (.head _)
        exact heeds_move
          (by simpa using ⟨Or.inl hopened, Or.inl hfirst⟩)
      next => exact heeds_classMember hopened
  | dash first =>
      have hfirst := hkept first.column (.head _)
      rw [classStep]
      split
      next => exact heeds_classMember hopened
      next =>
        split
        next =>
          exact heeds_move
            (by simpa using ⟨Or.inl hopened, Or.inl hfirst⟩)
        next => exact heeds_classRange hopened hfirst (Or.inr ⟨rfl, hp ▸ trivial⟩)
  | dashBackslash first column =>
      exact heeds_classRange hopened (hkept _ (.head _)) (Or.inl (hkept column (.tail _ (.head _))))

end Classes

/-! ### Whole patterns -/

/-- Any character. -/
lemma heeds_step (r : Reader) (c : Char) : r.Heeds (r.step c) := by
  rw [step]
  split
  next hp => exact heeds_itemStep (hp ▸ trivial)
  next hp => exact heeds_quantifierStep (hp ▸ trivial)
  next => exact heeds_move (by simp)
  next column hp =>
    have hkept : column ∈ r.columns := mem_columns_of_place hp (.head _)
    split
    next => exact heeds_move (by simpa using Or.inl hkept)
    next =>
      have hinside : (r.enter column .anonymous).Heeds ((r.enter column .anonymous).itemStep c) :=
        heeds_itemStep trivial
      exact hinside.mono rfl (fun _ => mem_columns_enter hkept) (hp ▸ trivial)
  next hp => exact heeds_headerStep hp
  next hp => exact heeds_nameStep hp
  next hp => exact heeds_classStep hp

/-- The end of a pattern, between two items. -/
lemma pointsAt_of_close (h : r.close = .error e) : e.column ∈ r.columns := by
  rw [close] at h
  split at h
  next => cases h
  next g groups hg =>
    cases h
    exact mem_columns_of_groups (hg ▸ .head _)

/-- The end of a pattern. -/
lemma pointsAt_of_finish (h : r.finish = .error e) : r.PointsAt e.column := by
  rw [finish] at h
  split at h
  case h_1 => exact Or.inl (pointsAt_of_close h)
  case h_2 => exact Or.inl (mem_columns_append (pointsAt_of_close h))
  case h_5 hp =>
    cases h
    exact Or.inr ⟨rfl, hp ▸ trivial⟩
  all_goals
    rename_i hp
    cases h
    exact Or.inl (mem_columns_of_place hp (by simp))

/-! ### What has been read -/

/-- A reader that started at the front has read as many characters as its column says, and keeps columns
of these only. -/
structure HasRead (r : Reader) (cs : List Char) : Prop where
  /-- The characters led to this reader. -/
  read_eq : ({} : Reader).read cs = .ok r
  /-- They were counted. -/
  column_eq : r.column = cs.length
  /-- The columns that are kept lie before. -/
  lt_of_mem : ∀ k ∈ r.columns, k < r.column

/-- One more character may be read. -/
lemma HasRead.step {cs : List Char} (hr : r.HasRead cs) (h : r.step c = .ok r') :
    r'.HasRead (cs ++ [c]) := by
  have hheeds := heeds_step r c
  rw [h] at hheeds
  cases hheeds with
  | ok hcolumn hmem =>
      refine ⟨?_, by rw [hcolumn, hr.column_eq, List.length_append, List.length_singleton],
        fun k hk => ?_⟩
      · rw [read_append, hr.read_eq]
        exact read_singleton.trans h
      · rw [hcolumn]
        rcases hmem k hk with hk | rfl
        · exact (hr.lt_of_mem k hk).trans (Nat.lt_succ_self _)
        · exact Nat.lt_succ_self _

/-- What can be read is read character by character. -/
lemma hasRead_of_read {cs : List Char} (h : ({} : Reader).read cs = .ok r) : r.HasRead cs := by
  induction cs using List.reverseRecOn generalizing r with
  | nil =>
      cases h
      exact ⟨rfl, rfl, by simp [columns]⟩
  | append_singleton cs c ih =>
      rw [read_append, bind_eq_ok] at h
      obtain ⟨r₁, h₁, h⟩ := h
      exact (ih h₁).step (read_singleton.symm.trans h)

/-- A column that a reader points at does not lie behind it. -/
lemma HasRead.le_of_pointsAt {cs : List Char} {k : Nat} (hr : r.HasRead cs) (hk : r.PointsAt k) :
    k < cs.length ∨ k = cs.length ∧ r.place.IsOpen := by
  rw [← hr.column_eq]
  exact hk.imp_left (hr.lt_of_mem k)

/-- Where reading fails, some characters have been read and the next one is at fault. -/
lemma exists_step_of_read_error {cs : List Char} (h : r.read cs = .error e) :
    ∃ ds c es r', cs = ds ++ c :: es ∧ r.read ds = .ok r' ∧ r'.step c = .error e := by
  induction cs generalizing r with
  | nil => cases h
  | cons c cs ih =>
      cases hc : r.step c with
      | error e' =>
          rw [read, List.foldlM_cons, hc] at h
          cases h
          exact ⟨[], c, cs, r, rfl, rfl, hc⟩
      | ok r₁ =>
          rw [read_cons hc] at h
          obtain ⟨ds, d, es, r', rfl, hread, hd⟩ := ih h
          exact ⟨c :: ds, d, es, r', rfl, by rw [read_cons hc, hread], hd⟩

/-! ### Completions -/

/-- With some more characters, at least one, the pattern may end. -/
def Completes (r : Reader) : Prop :=
  ∃ ds p, ds ≠ [] ∧ r.outcome ds = .ok p

/-- A reader completes what it has read if it does so one character on. -/
lemma Completes.of_step (h : r'.Completes) (hc : r.step c = .ok r') : r.Completes := by
  obtain ⟨ds, p, -, hds⟩ := h
  exact ⟨c :: ds, p, by simp, by rw [outcome_cons hc, hds]⟩

/-- Behind an item or an atom, open groups can be closed one after the other, and a bar may end the
pattern. -/
lemma completes_between (n : Nat) (gs : List OpenGroup) (l : Level) :
    (⟨n, gs, l, .item⟩ : Reader).Completes ∧
      ∀ a, (⟨n, gs, l, .quantifier a⟩ : Reader).Completes := by
  induction gs generalizing n l with
  | nil =>
      have hend : ∀ place, place = .item ∨ (∃ a, place = .quantifier a) →
          (⟨n, [], l, place⟩ : Reader).Completes := by
        rintro place (rfl | ⟨a, rfl⟩)
        · exact ⟨['|'], _, by simp, rfl⟩
        · exact ⟨['|'], _, by simp, rfl⟩
      exact ⟨hend _ (Or.inl rfl), fun a => hend _ (Or.inr ⟨a, rfl⟩)⟩
  | cons g gs ih =>
      have hitem : step ⟨n, g :: gs, l, .item⟩ ')' =
          .ok ⟨n + 1, gs, g.outside, .quantifier (.group g.header l.toPattern)⟩ := rfl
      have hatom : ∀ a, step ⟨n, g :: gs, l, .quantifier a⟩ ')' =
          .ok ⟨n + 1, gs, g.outside, .quantifier (.group g.header (l.append a .once).toPattern)⟩ :=
        fun _ => rfl
      exact ⟨((ih _ _).2 _).of_step hitem, fun a => ((ih _ _).2 _).of_step (hatom a)⟩

/-- Before a member of a class the class can be closed. -/
lemma completes_member (n : Nat) (gs : List OpenGroup) (l : Level) (opened : Nat)
    (members : List Member) :
    (⟨n, gs, l, .charClass opened members .member⟩ : Reader).Completes := by
  have hclose : step ⟨n, gs, l, .charClass opened members .member⟩ ']' =
      .ok ⟨n + 1, gs, l, .quantifier (.charClass members)⟩ := rfl
  exact ((completes_between _ _ _).2 _).of_step hclose

/-- A name can be ended, and begun if there is none. -/
lemma completes_name (n : Nat) (gs : List OpenGroup) (l : Level) (column : Nat) (marks : NameMarks)
    (name : List Char) : (⟨n, gs, l, .groupName column marks name⟩ : Reader).Completes := by
  have hname : ∀ (n : Nat) (c : Char) (cs : List Char),
      (⟨n, gs, l, .groupName column marks (c :: cs)⟩ : Reader).Completes := fun n c cs => by
    have hclose : step ⟨n, gs, l, .groupName column marks (c :: cs)⟩ marks.closing =
        .ok ⟨n + 1, ⟨column, marks.header (c :: cs), l⟩ :: gs, {}, .item⟩ := by
      show (if marks.closing = marks.closing then _ else _) = _
      rw [if_pos rfl]
      rfl
    exact (completes_between _ _ _).1.of_step hclose
  cases name with
  | nil =>
      have hbegin : step ⟨n, gs, l, .groupName column marks []⟩ 'a' =
          .ok ⟨n + 1, gs, l, .groupName column marks ['a']⟩ := rfl
      exact (hname _ _ _).of_step hbegin
  | cons c cs => exact hname n c cs

/-- Where the item is open, all that has been read can be completed. -/
lemma completes_of_isOpen (ho : r.place.IsOpen) : r.Completes := by
  obtain ⟨n, gs, l, place⟩ := r
  cases place with
  | item => exact (completes_between n gs l).1
  | quantifier a => exact (completes_between n gs l).2 a
  | backslash column =>
      have hescape : step ⟨n, gs, l, .backslash column⟩ 'a' =
          .ok ⟨n + 1, gs, l, .quantifier (.literal (.escaped 'a'))⟩ := rfl
      exact ((completes_between _ _ _).2 _).of_step hescape
  | parenthesis column =>
      have hbar : step ⟨n, gs, l, .parenthesis column⟩ '|' =
          .ok ⟨n + 1, ⟨column, .anonymous, l⟩ :: gs, Level.bar {}, .item⟩ := rfl
      exact (completes_between _ _ _).1.of_step hbar
  | questionMark column =>
      have hmark : step ⟨n, gs, l, .questionMark column⟩ '<' =
          .ok ⟨n + 1, gs, l, .groupName column .angles []⟩ := rfl
      exact (completes_name _ _ _ _ _ _).of_step hmark
  | groupName column marks name => exact completes_name n gs l column marks name
  | charClass opened members place =>
      cases place with
      | member => exact completes_member n gs l opened members
      | backslash column =>
          have hescape : step ⟨n, gs, l, .charClass opened members (.backslash column)⟩ 'd' =
              .ok ⟨n + 1, gs, l, .charClass opened (members ++ [.literal (.escaped 'd')]) .member⟩ :=
            rfl
          exact (completes_member _ _ _ _ _).of_step hescape
      | character first =>
          have hclose : step ⟨n, gs, l, .charClass opened members (.character first)⟩ ']' =
              .ok ⟨n + 1, gs, l, .quantifier (.charClass (members ++ [.literal first.literal]))⟩ := rfl
          exact ((completes_between _ _ _).2 _).of_step hclose
      | dash first =>
          have hclose : step ⟨n, gs, l, .charClass opened members (.dash first)⟩ ']' =
              .ok ⟨n + 1, gs, l, .quantifier (.charClass
                (members ++ [.literal first.literal, .literal (.plain '-')]))⟩ := rfl
          exact ((completes_between _ _ _).2 _).of_step hclose
      | dashBackslash first column => exact absurd ho id

/-- What has been read can be completed if the next character can be read: behind the backslash at the
end of a range, this one ends the range. -/
lemma completes_of_step (h : r.step c = .ok r') : r.Completes := by
  by_cases ho : r.place.IsOpen
  · exact completes_of_isOpen ho
  · obtain ⟨n, gs, l, place⟩ := r
    cases place with
    | charClass opened members place =>
        cases place with
        | dashBackslash first column =>
            have hrange : classRange ⟨n, gs, l, .charClass opened members (.dashBackslash first column)⟩
                opened members first (.escaped c) column = .ok r' := h
            rw [classRange] at hrange
            split at hrange
            next =>
              split at hrange
              next =>
                cases hrange
                exact (completes_member _ _ _ _ _).of_step h
              next => cases hrange
            next => cases hrange
        | _ => exact absurd trivial ho
    | _ => exact absurd trivial ho

end Reader

/-! ### Mistakes -/

namespace Pattern

open Reader

/-- Some characters can be put behind these so that all of them are a pattern, which has an automaton. -/
def Completable (cs : List Char) : Prop :=
  ∃ ds m, Nfa.ofPattern (String.ofList (cs ++ ds)) = .ok m

variable {r : Reader} {cs : List Char}

/-- What can be read and completed are the first characters of a pattern. -/
lemma completable_of_completes (hr : ({} : Reader).read cs = .ok r) (h : r.Completes) :
    Completable cs := by
  obtain ⟨ds, p, hne, hds⟩ := h
  obtain ⟨r', hread, hfinish⟩ := bind_eq_ok.1 ((outcome_append hr).trans hds)
  refine ⟨ds, exists_nfa_of_parse ⟨p, ?_⟩⟩
  rw [parse, mapError_eq_ok, readPattern, String.toList_ofList, if_neg (by simp [hne]), hread]
  exact hfinish

/-- The first characters of what can be read can be completed, and so can all of them where the item is
open. -/
lemma completable_take {k : Nat} (hr : ({} : Reader).read cs = .ok r)
    (hk : k < cs.length ∨ k = cs.length ∧ r.place.IsOpen) : Completable (cs.take k) := by
  rcases hk with hk | ⟨rfl, ho⟩
  · rw [← List.take_append_drop k cs, List.drop_eq_getElem_cons hk, read_append, bind_eq_ok] at hr
    obtain ⟨r₁, hr₁, hrest⟩ := hr
    rw [Reader.read, List.foldlM_cons, bind_eq_ok] at hrest
    obtain ⟨r₂, hstep, -⟩ := hrest
    exact completable_of_completes hr₁ (completes_of_step hstep)
  · rw [List.take_length]
    exact completable_of_completes hr (completes_of_isOpen ho)

/-- A mistake stands in the text or at its end, and what stands before can be completed. -/
lemma completable_of_readPattern {e : Mistake} (h : readPattern cs = .error e) :
    e.column ≤ cs.length ∧ Completable (cs.take e.column) := by
  rw [readPattern] at h
  split at h
  next =>
    cases h
    exact ⟨Nat.zero_le _, completable_of_completes rfl (completes_of_isOpen trivial)⟩
  next =>
    split at h
    next hread =>
      cases h
      -- the character at fault follows what could be read
      obtain ⟨ds, c, es, r, rfl, hds, hstep⟩ := exists_step_of_read_error hread
      have hheeds := heeds_step r c
      rw [hstep] at hheeds
      cases hheeds with
      | error hpoints =>
          have hle := (hasRead_of_read hds).le_of_pointsAt hpoints
          have hlen : e.column ≤ ds.length := by omega
          rw [List.take_append_of_le_length hlen, List.length_append]
          exact ⟨hlen.trans (Nat.le_add_right _ _), completable_take hds hle⟩
    next r hr =>
      have hle := (hasRead_of_read hr).le_of_pointsAt (pointsAt_of_finish h)
      exact ⟨by omega, completable_take hr hle⟩

/-- If a text is no pattern, the mistake is told at one of its characters or at its end, and what stands
before this column can be completed to a pattern. -/
theorem completable_before_mistake {text : String} {cause : Malformed}
    (h : Nfa.ofPattern text = .error (.malformed cause)) :
    cause.column ≤ text.length ∧ Completable (text.toList.take cause.column) := by
  have hparse : Pattern.parse text = .error cause := by
    rcases bind_eq_error.1 h with hp | ⟨p, -, hbuild⟩
    · obtain ⟨cause', hp, heq⟩ := mapError_eq_error.1 hp
      rwa [← PatternError.malformed.inj heq]
    · obtain ⟨undefined, -, heq⟩ := mapError_eq_error.1 hbuild
      cases heq
  obtain ⟨e, he, rfl⟩ := mapError_eq_error.1 hparse
  exact completable_of_readPattern he

/-- Behind `b-` the range could end with a character. That `\d` stands for several of them shows two
characters later, but the mistake is told at the backslash, in front of which the class and the group can
be closed. -/
theorem completable_before_shorthand :
    ∃ cause, Nfa.ofPattern "(a|[xb-\\d]" = .error (.malformed cause) ∧ cause.column = 7 ∧
      Completable "(a|[xb-".toList := by
  have hreject : Nfa.ofPattern "(a|[xb-\\d]" =
      .error (.malformed ⟨"(a|[xb-\\d]", 7, .unexpected .rangeEnd (some '\\')⟩) := rfl
  exact ⟨_, hreject, rfl, (completable_before_mistake hreject).2⟩

end Pattern

end CaptureAutomata
