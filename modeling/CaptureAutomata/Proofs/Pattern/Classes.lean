/-
A class stands for a set of characters:

* `Member.Contains`: the characters that a member of a class stands for;
* `NondeterministicGraph.Builder.path_comm`, `path_idem`: transitions from one state to another can be
  added in any order, and repeated;
* `Pattern.Atom.assemble_charClass_congr`: so two classes with the same characters are assembled alike;
* `Pattern.AtomAt`: an atom stands between two texts in a pattern; `Pattern.exists_replaced` and one lemma
  for each kind of part put another one in its place that is assembled alike;
* `Pattern.ofPattern_eq_of_same_characters`: classes with the same characters can be exchanged in a
  pattern, and the automaton stays the same.
-/
import CaptureAutomata.Proofs.Pattern.Layout

namespace CaptureAutomata

/-! ### The characters of a class -/

/-- The character is one that a literal with this meaning stands for. -/
def Meaning.Contains (c : Char) : Meaning → Prop
  | single d => c = d
  | oneOf cs => c ∈ cs
  | lineBreak => False

/-- The character is one that a member of a class stands for. -/
def Member.Contains (c : Char) : Member → Prop
  | literal l => l.meaning.Contains c
  | range first last =>
    ∃ a b, first.meaning = .single a ∧ last.meaning = .single b ∧ a ≤ c ∧ c ≤ b

/-- The characters of a literal with this meaning, without the line break. -/
def Meaning.chars : Meaning → List Char
  | single c => [c]
  | oneOf cs => cs
  | lineBreak => []

/-- The characters of a member of a class, without the line break. -/
def Member.chars : Member → List Char
  | literal l => l.meaning.chars
  | range first last => rangeChars first last

/-- The characters of a member are those that it stands for. -/
@[simp] lemma Member.mem_chars {m : Member} {c : Char} : c ∈ m.chars ↔ m.Contains c := by
  cases m with
  | literal l =>
      rw [chars, Contains]
      cases l.meaning with
      | single d => exact List.mem_singleton
      | oneOf cs => exact Iff.rfl
      | lineBreak => exact List.mem_nil_iff c
  | range first last =>
      rw [chars, Contains, rangeChars]
      split
      next a b ha hb => simp [ha, hb]
      next h => simpa using fun a ha b hb => absurd hb (h a b ha)

lemma Member.mem_flatMap_chars {members : List Member} {c : Char} :
    c ∈ members.flatMap chars ↔ ∃ m ∈ members, m.Contains c := by
  simp only [List.mem_flatMap, mem_chars]

/-- Only an escaped `R` stands for a line break. -/
lemma Literal.eq_of_lineBreak {l : Literal} (h : l.meaning = .lineBreak) : l = .escaped 'R' := by
  rw [meaning.eq_def] at h
  split at h
  next => cases h
  next =>
    split at h
    all_goals first
      | rfl
      | cases h

/-! ### Transitions in any order -/

namespace KeyMap

variable {α β : Type} [Key α] (m : KeyMap α β) {j k : α} {a b : β}

@[simp] lemma insert_insert : (m.insert k a).insert k b = m.insert k b :=
  Std.ExtTreeMap.ext_getElem? fun i => by
    simp only [Std.ExtTreeMap.getElem?_insert]
    split <;> rfl

/-- The order does not matter in which something is inserted under two keys. -/
lemma insert_comm (h : j ≠ k) : (m.insert j a).insert k b = (m.insert k b).insert j a :=
  Std.ExtTreeMap.ext_getElem? fun i => by
    simp only [Std.ExtTreeMap.getElem?_insert, Key.compare_eq_iff]
    split
    next hk => rw [if_neg (hk ▸ h)]
    next => rfl

end KeyMap

namespace NondeterministicGraph.Builder

variable {V E : Type} [Key V] [Key E] {b : Builder V E} {v s t : V} {k l : E}

/-- A vertex that is there already is not added. -/
lemma vertex_eq_self (h : v ∈ b.adjacency) : b.vertex v = b := by
  refine congrArg Builder.mk (Std.ExtTreeMap.ext_getElem? fun i => ?_)
  rw [Std.ExtTreeMap.getElem?_insertIfNew, if_neg (fun hi => hi.2 h)]

/-- Behind an edge, another one between the same vertices adds no vertex. -/
lemma path_path : (b.path s l t).path s k t = ((b.vertex t).edges s l [t]).edges s k [t] := by
  have ht : t ∈ (b.path s l t).adjacency := mem_path.2 (Or.inr (Or.inl rfl))
  rw [path, vertex_eq_self ht, path]

/-- The order does not matter in which two edges between the same vertices are added. -/
lemma path_comm : (b.path s l t).path s k t = (b.path s k t).path s l t := by
  rcases eq_or_ne l k with rfl | h
  · rfl
  · rw [path_path, path_path, edges, edges, edges, edges]
    simp only [Std.ExtTreeMap.getD_insert_self, KeyMap.insert_insert, Std.ExtTreeMap.getD_insert,
      Key.compare_eq_iff, if_neg h, if_neg h.symm, KeyMap.insert_comm _ h]

/-- An edge that is there already is not added. -/
@[simp] lemma path_idem : (b.path s l t).path s l t = b.path s l t := by
  have hset : ∀ ends : KeySet V, (ends.insert t).insert t = ends.insert t := fun ends =>
    Std.ExtTreeSet.ext_mem fun v => by simp
  rw [path_path, path, edges, edges]
  simp only [Std.ExtTreeMap.getD_insert_self, KeyMap.insert_insert,
    Std.ExtTreeSet.insertMany_list_singleton, hset]

end NondeterministicGraph.Builder

/-! ### Classes -/

section Fold

variable {α β : Type} {f : β → α → β} {cs ds : List α} (hcomm : ∀ b c d, f (f b c) d = f (f b d) c)
  (hidem : ∀ b c, f (f b c) c = f b c)

include hcomm hidem

/-- A step that a list contains can be taken in advance. -/
lemma foldl_of_mem {c : α} (h : c ∈ cs) (b : β) : cs.foldl f (f b c) = cs.foldl f b := by
  induction cs generalizing b with
  | nil => cases h
  | cons d cs ih =>
      rw [List.foldl_cons, List.foldl_cons]
      rcases List.mem_cons.1 h with rfl | h
      · rw [hidem]
      · rw [hcomm, ih h]

/-- All steps that a list contains can be taken in advance. -/
lemma foldl_of_subset (h : cs ⊆ ds) (b : β) : ds.foldl f (cs.foldl f b) = ds.foldl f b := by
  induction cs generalizing b with
  | nil => rfl
  | cons c cs ih =>
      obtain ⟨hc, hcs⟩ := List.cons_subset.1 h
      rw [List.foldl_cons, ih hcs, foldl_of_mem hcomm hidem hc]

/-- If the order and the repetitions of steps do not matter, the same steps lead to the same end. -/
lemma foldl_congr_mem (h : ∀ c, c ∈ cs ↔ c ∈ ds) (b : β) : cs.foldl f b = ds.foldl f b :=
  calc cs.foldl f b = cs.foldl f (ds.foldl f b) :=
      (foldl_of_subset hcomm hidem (fun c => (h c).2) b).symm
    _ = (ds ++ cs).foldl f b := List.foldl_append.symm
    _ = (cs ++ ds).foldl f b :=
      List.perm_append_comm.foldl_eq' (fun c _ d _ b => hcomm b c d) b
    _ = ds.foldl f (cs.foldl f b) := List.foldl_append
    _ = ds.foldl f b := foldl_of_subset hcomm hidem (fun c => (h c).1) b

end Fold

namespace Assembly

variable {s t : Nat} {cs ds : List Char}

/-- The assembly with a transition on each of some symbols. -/
def withFan (s t : Nat) (a : Assembly) (cs : List Char) : Assembly :=
  cs.foldl (fun a c => a.withEdge s (some c) t) a

/-- The order and the repetitions of the symbols do not matter. -/
lemma withFan_congr (a : Assembly) (h : ∀ c, c ∈ cs ↔ c ∈ ds) : withFan s t a cs = withFan s t a ds := by
  refine foldl_congr_mem (fun a c d => ?_) (fun a c => ?_) h a
  · simp only [withEdge, Nfa.Builder.transition, NondeterministicGraph.Builder.path_comm]
  · simp only [withEdge, Nfa.Builder.transition, NondeterministicGraph.Builder.path_idem]

lemma run_connectAll (a : Assembly) (cs : List Char) :
    (connectAll s cs t).run a = ((), withFan s t a cs) := by
  induction cs generalizing a with
  | nil => rfl
  | cons c cs ih => exact ih (a.withEdge s (some c) t)

end Assembly

open Assembly

/-- A member of a class that is no line break is assembled from its characters. -/
lemma Member.run_assemble {m : Member} (hm : m ≠ .literal (.escaped 'R')) (s t : Nat) (a : Assembly) :
    (m.assemble s t).run a = ((), withFan s t a m.chars) := by
  cases m with
  | literal l =>
      rw [assemble, Literal.assemble, chars]
      cases hl : l.meaning with
      | single c => rfl
      | oneOf cs => exact run_connectAll a cs
      | lineBreak => exact absurd (congrArg Member.literal (Literal.eq_of_lineBreak hl)) hm
  | range first last =>
      rw [assemble, chars, run_connectAll, withFan_congr a fun c => mem_rangeEnds_append]

/-- The members of a class without a line break are assembled from all their characters. -/
lemma Member.run_forM_assemble {members : List Member} (hm : .literal (.escaped 'R') ∉ members)
    (s t : Nat) (a : Assembly) : (members.forM fun m => m.assemble s t).run a =
      ((), withFan s t a (members.flatMap Member.chars)) := by
  induction members generalizing a with
  | nil => rfl
  | cons m members ih =>
      obtain ⟨hne, hms⟩ := not_or.1 (List.mem_cons.not.1 hm)
      show ((members.forM fun m => m.assemble s t).run ((m.assemble s t).run a).2) = _
      rw [run_assemble (Ne.symm hne), ih hms, List.flatMap_cons, withFan, withFan, withFan,
        List.foldl_append]

namespace Pattern

/-- Classes without line breaks that stand for the same characters are assembled alike. -/
lemma Atom.assemble_charClass_congr {x y : List Member} (hx : .literal (.escaped 'R') ∉ x)
    (hy : .literal (.escaped 'R') ∉ y)
    (h : ∀ c, (∃ m ∈ x, m.Contains c) ↔ ∃ m ∈ y, m.Contains c) (source : Nat) :
    (charClass x).assemble source = (charClass y).assemble source := by
  have hchars : ∀ c, c ∈ x.flatMap Member.chars ↔ c ∈ y.flatMap Member.chars := fun c => by
    rw [Member.mem_flatMap_chars, Member.mem_flatMap_chars, h]
  have hmembers : ∀ target, (x.forM fun m => m.assemble source target) =
      y.forM fun m => m.assemble source target := fun target => StateT.ext fun a => by
    rw [Member.run_forM_assemble hx, Member.run_forM_assemble hy, withFan_congr a hchars]
  rw [Atom.assemble, Atom.assemble]
  simp only [hmembers]

/-! ### Atoms in a pattern -/

mutual

/-- In the pattern, an atom stands between the two texts. -/
def AtomAt (u v : List Char) : Pattern → Atom → Prop
  | .single branch, a => branch.AtomAt u v a
  | .alternative branches branch, a =>
    (∃ v', branches.AtomAt u v' a ∧ v = v' ++ '|' :: branch.text) ∨
      ∃ u', branch.AtomAt u' v a ∧ u = branches.text ++ '|' :: u'

/-- In the branch, an atom stands between the two texts. -/
def Sequence.AtomAt (u v : List Char) : Sequence → Atom → Prop
  | .empty, _ => False
  | .append items atom q, a =>
    (∃ v', items.AtomAt u v' a ∧ v = v' ++ (atom.text ++ q.text)) ∨
      ∃ u' v', atom.AtomAt u' v' a ∧ u = items.text ++ u' ∧ v = v' ++ q.text

/-- In the atom, an atom stands between the two texts: itself, or one in its body. -/
def Atom.AtomAt (u v : List Char) : Atom → Atom → Prop
  | .literal l, a => a = .literal l ∧ u = [] ∧ v = []
  | .charClass members, a => a = .charClass members ∧ u = [] ∧ v = []
  | .group header body, a => a = .group header body ∧ u = [] ∧ v = [] ∨
    ∃ u' v', body.AtomAt u' v' a ∧ u = '(' :: (header.text ++ u') ∧ v = v' ++ [')']

end

variable {a b : Atom}

mutual

/-- The pattern is written as the two texts with the atom between them, which is well-formed. -/
lemma text_of_atomAt : ∀ (p : Pattern) {u v : List Char}, p.WellFormed → p.AtomAt u v a →
    a.WellFormed ∧ p.text = u ++ a.text ++ v
  | .single branch, _, _, hp, hat => branch.text_of_atomAt hp hat
  | .alternative branches branch, u, v, hp, hat => by
      rcases hat with ⟨v', hat, rfl⟩ | ⟨u', hat, rfl⟩
      · obtain ⟨hwf, htext⟩ := branches.text_of_atomAt hp.1 hat
        exact ⟨hwf, by rw [text, htext, List.append_assoc _ v']⟩
      · obtain ⟨hwf, htext⟩ := branch.text_of_atomAt hp.2 hat
        exact ⟨hwf, by simp only [text, htext, List.append_assoc, List.cons_append]⟩

/-- The branch is written as the two texts with the atom between them, which is well-formed. -/
lemma Sequence.text_of_atomAt : ∀ (x : Sequence) {u v : List Char}, x.WellFormed →
    x.AtomAt u v a → a.WellFormed ∧ x.text = u ++ a.text ++ v
  | .empty, _, _, _, hat => hat.elim
  | .append items atom q, u, v, hp, hat => by
      rcases hat with ⟨v', hat, rfl⟩ | ⟨u', v', hat, rfl, rfl⟩
      · obtain ⟨hwf, htext⟩ := items.text_of_atomAt hp.1 hat
        exact ⟨hwf, by rw [Sequence.text, htext, List.append_assoc _ v']⟩
      · obtain ⟨hwf, htext⟩ := atom.text_of_atomAt hp.2 hat
        exact ⟨hwf, by simp only [Sequence.text, htext, List.append_assoc]⟩

/-- The atom is written as the two texts with the other one between them, which is well-formed. -/
lemma Atom.text_of_atomAt : ∀ (x : Atom) {u v : List Char}, x.WellFormed → x.AtomAt u v a →
    a.WellFormed ∧ x.text = u ++ a.text ++ v
  | .literal _, _, _, hp, hat => by
      obtain ⟨rfl, rfl, rfl⟩ := hat
      exact ⟨hp, (List.append_nil _).symm⟩
  | .charClass _, _, _, hp, hat => by
      obtain ⟨rfl, rfl, rfl⟩ := hat
      exact ⟨hp, (List.append_nil _).symm⟩
  | .group header body, _, _, hp, hat => by
      rcases hat with ⟨rfl, rfl, rfl⟩ | ⟨u', v', hat, rfl, rfl⟩
      · exact ⟨hp, (List.append_nil _).symm⟩
      · obtain ⟨hwf, htext⟩ := body.text_of_atomAt hp.2 hat
        exact ⟨hwf, by simp only [Atom.text, htext, List.append_assoc, List.cons_append]⟩

end

mutual

/-- In a pattern, an atom can be replaced by one that is assembled alike. -/
lemma exists_replaced (hb : b.WellFormed) (hab : ∀ source, b.assemble source = a.assemble source) :
    ∀ (p : Pattern) {u v : List Char}, p.WellFormed → p.AtomAt u v a → ∃ q : Pattern,
      q.WellFormed ∧ q.text = u ++ b.text ++ v ∧
        ∀ source, q.assembleBranches source = p.assembleBranches source
  | .single branch, u, v, hp, hat => by
      obtain ⟨branch', hwf, htext, hsame⟩ := branch.exists_replaced hb hab hp hat
      refine ⟨.single branch', hwf, htext, fun source => ?_⟩
      rw [assembleBranches, assembleBranches, hsame]
  | .alternative branches branch, u, v, hp, hat => by
      rcases hat with ⟨v', hat, rfl⟩ | ⟨u', hat, rfl⟩
      · obtain ⟨branches', hwf, htext, hsame⟩ := branches.exists_replaced hb hab hp.1 hat
        refine ⟨.alternative branches' branch, ⟨hwf, hp.2⟩, ?_, fun source => ?_⟩
        · rw [text, htext, List.append_assoc _ v']
        · rw [assembleBranches, assembleBranches, hsame]
      · obtain ⟨branch', hwf, htext, hsame⟩ := branch.exists_replaced hb hab hp.2 hat
        refine ⟨.alternative branches branch', ⟨hp.1, hwf⟩, ?_, fun source => ?_⟩
        · simp only [text, htext, List.append_assoc, List.cons_append]
        · rw [assembleBranches, assembleBranches, hsame]

/-- In a branch, an atom can be replaced by one that is assembled alike. -/
lemma Sequence.exists_replaced (hb : b.WellFormed)
    (hab : ∀ source, b.assemble source = a.assemble source) : ∀ (x : Sequence) {u v : List Char},
    x.WellFormed → x.AtomAt u v a → ∃ y : Sequence, y.WellFormed ∧ y.text = u ++ b.text ++ v ∧
      ∀ source, y.assemble source = x.assemble source
  | .empty, _, _, _, hat => hat.elim
  | .append items atom q, u, v, hp, hat => by
      rcases hat with ⟨v', hat, rfl⟩ | ⟨u', v', hat, rfl, rfl⟩
      · obtain ⟨items', hwf, htext, hsame⟩ := items.exists_replaced hb hab hp.1 hat
        refine ⟨.append items' atom q, ⟨hwf, hp.2⟩, ?_, fun source => ?_⟩
        · rw [Sequence.text, htext, List.append_assoc _ v']
        · rw [Sequence.assemble, Sequence.assemble, hsame]
      · obtain ⟨atom', hwf, htext, hsame⟩ := atom.exists_replaced hb hab hp.2 hat
        refine ⟨.append items atom' q, ⟨hp.1, hwf⟩, ?_, fun source => ?_⟩
        · simp only [Sequence.text, htext, List.append_assoc]
        · simp only [Sequence.assemble, hsame]

/-- An atom, or one in it, can be replaced by one that is assembled alike. -/
lemma Atom.exists_replaced (hb : b.WellFormed)
    (hab : ∀ source, b.assemble source = a.assemble source) : ∀ (x : Atom) {u v : List Char},
    x.WellFormed → x.AtomAt u v a → ∃ y : Atom, y.WellFormed ∧ y.text = u ++ b.text ++ v ∧
      ∀ source, y.assemble source = x.assemble source
  | .literal _, _, _, _, hat => by
      obtain ⟨rfl, rfl, rfl⟩ := hat
      exact ⟨b, hb, (List.append_nil _).symm, hab⟩
  | .charClass _, _, _, _, hat => by
      obtain ⟨rfl, rfl, rfl⟩ := hat
      exact ⟨b, hb, (List.append_nil _).symm, hab⟩
  | .group header body, u, v, hp, hat => by
      rcases hat with ⟨rfl, rfl, rfl⟩ | ⟨u', v', hat, rfl, rfl⟩
      · exact ⟨b, hb, (List.append_nil _).symm, hab⟩
      · obtain ⟨body', hwf, htext, hsame⟩ := body.exists_replaced hb hab hp.2 hat
        refine ⟨.group header body', ⟨hp.1, hwf⟩, ?_, fun source => ?_⟩
        · simp only [Atom.text, htext, List.append_assoc, List.cons_append]
        · simp only [Atom.assemble, hsame]

end

/-! ### Exchanging classes -/

/-- The pattern that is nothing but a class. -/
def ofClass (members : List Member) : Pattern :=
  .single (.append .empty (.charClass members) .once)

/-- A class is written as the pattern that is nothing else. -/
lemma text_of_parse_class {members : List Member} {cls : String}
    (h : Pattern.parse cls = .ok (ofClass members)) : Atom.text (.charClass members) = cls.toList :=
  (List.append_nil _).symm.trans (text_of_parse h)

/-- An atom that is written as a class is this class. -/
lemma eq_charClass_of_text {members : List Member} {cls : String}
    (h : Pattern.parse cls = .ok (ofClass members)) (ha : a.WellFormed) (htext : a.text = cls.toList) :
    a = .charClass members := by
  have hne : cls ≠ "" := fun hempty => by
    have hwritten := text_of_parse_class h
    simp [hempty] at hwritten
  have hwf : Pattern.WellFormed (.single (.append .empty a .once)) := ⟨trivial, ha⟩
  have hsame := (parse_of_wellFormed hwf ((List.append_nil _).trans htext) hne).symm.trans h
  cases hsame
  rfl

/-- A class stands for a set of characters. If two classes without line breaks stand for the same
characters and one of them is an atom of an accepted pattern, the other can be put in its place: the
pattern is still accepted, and its automaton is the same. -/
theorem ofPattern_eq_of_same_characters {x y : List Member} {cls cls' u v : String}
    (hcls : Pattern.parse cls = .ok (ofClass x)) (hcls' : Pattern.parse cls' = .ok (ofClass y))
    (hx : .literal (.escaped 'R') ∉ x) (hy : .literal (.escaped 'R') ∉ y)
    (hxy : ∀ c, (∃ m ∈ x, m.Contains c) ↔ ∃ m ∈ y, m.Contains c) {p : Pattern}
    (hp : Pattern.parse (u ++ cls ++ v) = .ok p) (hat : ∃ a, p.AtomAt u.toList v.toList a) :
    ∃ m, Nfa.ofPattern (u ++ cls ++ v) = .ok m ∧ Nfa.ofPattern (u ++ cls' ++ v) = .ok m := by
  obtain ⟨a, hat⟩ := hat
  obtain ⟨m, hm⟩ := exists_nfa_of_parse ⟨p, hp⟩
  obtain ⟨ha, hatext⟩ := p.text_of_atomAt (wellFormed_of_parse hp) hat
  rw [text_of_parse hp, String.toList_append, String.toList_append] at hatext
  obtain rfl : a = .charClass x :=
    eq_charClass_of_text hcls ha (List.append_cancel_left (List.append_cancel_right hatext)).symm
  have hwf : Atom.WellFormed (.charClass y) := (wellFormed_of_parse hcls').2
  have htext := text_of_parse_class hcls'
  obtain ⟨q, hq, hqtext, hsame⟩ := exists_replaced hwf
    (fun source => (Atom.assemble_charClass_congr hx hy hxy source).symm) p (wellFormed_of_parse hp) hat
  have hne : u ++ cls' ++ v ≠ "" := fun hempty => by
    have := congrArg String.toList hempty
    simp [← htext] at this
  have hparse : Pattern.parse (u ++ cls' ++ v) = .ok q := by
    refine parse_of_wellFormed hq ?_ hne
    rw [hqtext, htext, String.toList_append, String.toList_append]
  have hbuild : q.toNfa = p.toNfa := by
    rw [toNfa, toNfa, assembleMain, assembleMain]
    simp only [Pattern.assemble, hsame]
  refine ⟨m, hm, ?_⟩
  rw [← hm, Nfa.ofPattern, Nfa.ofPattern, hp, hparse]
  exact congrArg (Except.mapError PatternError.undefined) hbuild

/-- A range and a dash can be exchanged for the same characters in another order. -/
theorem ofPattern_eq_of_range_and_dash :
    ∃ m, Nfa.ofPattern ("(x" ++ "[a-c-]" ++ ")*|y") = .ok m ∧
      Nfa.ofPattern ("(x" ++ "[-cabc]" ++ ")*|y") = .ok m := by
  let x : List Member := [.range (.plain 'a') (.plain 'c'), .literal (.plain '-')]
  let y : List Member := [.literal (.plain '-'), .literal (.plain 'c'), .literal (.plain 'a'),
    .literal (.plain 'b'), .literal (.plain 'c')]
  have hx : x.flatMap Member.chars = ['a', 'b', 'c', '-'] := by decide
  have hy : y.flatMap Member.chars = ['-', 'c', 'a', 'b', 'c'] := by decide
  have hxy : ∀ c, (∃ m ∈ x, m.Contains c) ↔ ∃ m ∈ y, m.Contains c := fun c => by
    rw [← Member.mem_flatMap_chars, ← Member.mem_flatMap_chars, hx, hy]
    simp only [List.mem_cons, List.not_mem_nil, or_false]
    tauto
  let inner : Sequence := (Sequence.empty.append (.literal (.plain 'x')) .once).append (.charClass x)
    .once
  let p : Pattern := .alternative (.single (Sequence.empty.append (.group .anonymous (.single inner))
    .zeroOrMore)) (Sequence.empty.append (.literal (.plain 'y')) .once)
  have hp : Pattern.parse ("(x" ++ "[a-c-]" ++ ")*|y") = .ok p := rfl
  have hat : p.AtomAt "(x".toList ")*|y".toList (.charClass x) := by
    refine Or.inl ⟨[')', '*'], ?_, rfl⟩
    refine Or.inr ⟨['(', 'x'], [')'], ?_, rfl, rfl⟩
    refine Or.inr ⟨['x'], [], ?_, rfl, rfl⟩
    exact Or.inr ⟨[], [], ⟨rfl, rfl, rfl⟩, rfl, rfl⟩
  exact ofPattern_eq_of_same_characters rfl rfl (by decide) (by decide) hxy hp ⟨_, hat⟩

end Pattern

end CaptureAutomata
