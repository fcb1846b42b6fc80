/-
Transitions that are built between two states:

* `Nfa.Reads`: all words of a language are read on runs from one state to another;
* `Link`: transitions from one state to another that was there before. All words of a language are
  read over them, and labels that allow for these words can be extended without allowing for others;
* `Link.add`, `link_forM`: links between the same states stand side by side;
* `link_literal`, `link_members`: what is added for a literal, and for a class, is a link on which
  their words are read.
-/
import CaptureAutomata.Proofs.Pattern.Growth
import CaptureAutomata.Proofs.Pattern.Threaded

namespace CaptureAutomata

open scoped Computability

/-! ### Reading languages -/

namespace Nfa

variable {S A T : Type} [Key S] [Key A] {m : Nfa S A T} {s t u : S} {K L : Language A}

/-- Every word of the language is read on a run from `s` to `t`. -/
def Reads (m : Nfa S A T) (s : S) (L : Language A) (t : S) : Prop :=
  ∀ w ∈ L, m.Run s w t

lemma reads_zero : m.Reads s 0 t :=
  fun w hw => absurd hw (Language.notMem_zero w)

lemma reads_one : m.Reads s 1 s := by
  rintro w hw
  obtain rfl := (Language.mem_one w).1 hw
  exact .nil s

lemma Reads.add (h : m.Reads s K t) (k : m.Reads s L t) : m.Reads s (K + L) t :=
  fun w hw => hw.elim (h w) (k w)

lemma Reads.mul (h : m.Reads s K t) (k : m.Reads t L u) : m.Reads s (K * L) u := by
  intro w hw
  obtain ⟨x, hx, y, hy, rfl⟩ := Language.mem_mul.1 hw
  exact (h x hx).append (k y hy)

/-- What leads back to its start is read again and again. -/
lemma Reads.kstar (h : m.Reads s L s) : m.Reads s L∗ s := by
  intro w hw
  obtain ⟨l, rfl, hl⟩ := Language.mem_kstar.1 hw
  clear hw
  induction l with
  | nil => exact .nil s
  | cons x l ih =>
      exact (h x (hl x (.head _))).append (ih fun y hy => hl y (.tail _ hy))

end Nfa

namespace Assembly

variable {a b c : Assembly} {s t e j r : Nat} {A B : Language Char}

/-- `s` is a state, but not the initial one. -/
def Inner (a : Assembly) (s : Nat) : Prop :=
  0 < s ∧ s < a.count

lemma Inner.of_grows (hs : a.Inner s) (h : a.Grows b) (ha : a.Valid) : b.Inner s :=
  ⟨hs.1, hs.2.trans_le (h.count_le ha)⟩

/-- A further state is not the initial one. -/
lemma Valid.inner_withState (ha : a.Valid) : a.withState.Inner a.count :=
  ⟨ha.pos, by rw [ha.count_withState]; omega⟩

/-- A transition is read over. -/
lemma Within.reads {m : PatternNfa} {l : Option Char} (h : b.Within m) (he : b.HasEdge s l t) :
    m.Reads s (symbol l) t := by
  intro w hw
  cases l with
  | none =>
      obtain rfl := (Language.mem_one w).1 hw
      exact .silent (h s none t he) (.nil t)
  | some c =>
      obtain rfl := Set.mem_singleton_iff.1 hw
      exact .read (h s (some c) t he) (.nil t)

/-! ### Links -/

/-- From `a` to `b`, transitions from `s` to `t` were added on which the words of `A` are read. -/
structure Link (a b : Assembly) (s t : Nat) (A : Language Char) : Prop where
  /-- Nothing was lost. -/
  grows : a.Grows b
  /-- All words are read. -/
  reads : ∀ m, b.Within m → m.Reads s A t
  /-- No other words are read. -/
  labels : ∀ L, Labels a L → L s * A ≤ L t → ∃ L', Relabels a b L L'

/-- A transition is a link. -/
lemma link_withEdge {l : Option Char} (hs : s < a.count) (ht : a.Inner t) :
    Link a (a.withEdge s l t) s t (symbol l) where
  grows := .edge .refl hs ht
  reads _ hm := hm.reads (hasEdge_withEdge.2 (Or.inl ⟨rfl, rfl, rfl⟩))
  labels _ hL hle := ⟨_, fun _ _ => rfl, hL.withEdge hle⟩

/-- Links between the same states stand side by side. -/
lemma Link.add (h : Link a b s t A) (k : Link b c s t B) (ha : a.Valid) (hs : a.Inner s)
    (ht : a.Inner t) : Link a c s t (A + B) where
  grows := h.grows.trans k.grows
  reads m hm := (h.reads m (hm.of_grows k.grows)).add (k.reads m hm)
  labels L hL hle := by
    rw [mul_add] at hle
    obtain ⟨hA, hB⟩ := add_le_iff.1 hle
    obtain ⟨L₁, h₁⟩ := h.labels L hL hA
    rw [← h₁.agree s hs.2, ← h₁.agree t ht.2] at hB
    obtain ⟨L₂, h₂⟩ := k.labels L₁ h₁.labels hB
    exact ⟨L₂, h₁.trans h₂ (h.grows.count_le ha)⟩

/-- The words of the languages that the members of a list stand for. -/
def union {α : Type} (B : α → Language Char) (l : List α) : Language Char :=
  {w | ∃ x ∈ l, w ∈ B x}

/-- The words for a list depend on its members only. -/
lemma union_congr {α : Type} {B : α → Language Char} {l l' : List α} (h : ∀ x, x ∈ l ↔ x ∈ l') :
    union B l = union B l' := by
  ext w
  exact exists_congr fun x => and_congr_left' (h x)

lemma union_cons {α : Type} {B : α → Language Char} {x : α} {l : List α} :
    union B (x :: l) = B x + union B l := by
  ext w
  show (∃ y ∈ x :: l, w ∈ B y) ↔ w ∈ B x ∨ ∃ y ∈ l, w ∈ B y
  simp

/-- Links are made one after the other for the members of a list. -/
lemma link_forM {α : Type} {f : α → StateM Assembly Unit} {B : α → Language Char} {l : List α}
    (hf : ∀ x ∈ l, ∀ {a b u}, a.Valid → a.Inner s → a.Inner t → Makes (f x) a u b →
      Link a b s t (B x))
    {u : Unit} (ha : a.Valid) (hs : a.Inner s) (ht : a.Inner t) (h : Makes (l.forM f) a u b) :
    Link a b s t (union B l) := by
  induction l generalizing a with
  | nil =>
      obtain ⟨-, rfl⟩ := makes_pure.1 h
      refine ⟨.refl, fun m _ w hw => ?_, fun L hL _ => ⟨L, .refl hL⟩⟩
      obtain ⟨x, hx, -⟩ := hw
      cases hx
  | cons x l ih =>
      rw [List.forM_eq_forM, List.forM_cons, makes_bind] at h
      obtain ⟨_, c, hx, hl⟩ := h
      have hlink := hf x (.head _) ha hs ht hx
      have hrest := ih (fun y hy => hf y (.tail _ hy)) (hlink.grows.valid ha)
        (hs.of_grows hlink.grows ha) (ht.of_grows hlink.grows ha) hl
      rw [union_cons]
      exact hlink.add hrest ha hs ht

/-- Transitions on some symbols are a link. -/
lemma link_connectAll {cs : List Char} {u : Unit} (ha : a.Valid) (hs : a.Inner s) (ht : a.Inner t)
    (h : Makes (connectAll s cs t) a u b) : Link a b s t (union (fun c => symbol (some c)) cs) := by
  refine link_forM (fun c _ a b u ha hs ht h => ?_) ha hs ht h
  obtain rfl := makes_connect.1 h
  exact link_withEdge hs.2 ht

/-- Two transitions over a further state are a link. -/
lemma link_between {k l : Option Char} (ha : a.Valid) (hs : a.Inner s) (ht : a.Inner t) :
    Link a ((a.withState.withEdge s k a.count).withEdge a.count l t) s t
      (symbol k * symbol l) := by
  have hgrows : a.Grows a.withState := .state .refl
  have hva := hgrows.valid ha
  have hsa := hs.of_grows hgrows ha
  have hfirst : Link a.withState (a.withState.withEdge s k a.count) s a.count (symbol k) :=
    link_withEdge hsa.2 ha.inner_withState
  have hvb := hfirst.grows.valid hva
  have hsecond : Link (a.withState.withEdge s k a.count)
      ((a.withState.withEdge s k a.count).withEdge a.count l t) a.count t (symbol l) :=
    link_withEdge (ha.inner_withState.of_grows hfirst.grows hva).2
      ((ht.of_grows hgrows ha).of_grows hfirst.grows hva)
  refine ⟨(hgrows.trans hfirst.grows).trans hsecond.grows, fun m hm => ?_, fun L hL hle => ?_⟩
  · exact (hfirst.reads m (hm.of_grows hsecond.grows)).mul (hsecond.reads m hm)
  · obtain ⟨L₁, h₁, hbetween⟩ := hL.withState ha (L s * symbol k)
    have hedge : Labels (a.withState.withEdge s k a.count) L₁ :=
      h₁.labels.withEdge (by rw [hbetween, h₁.agree s hs.2])
    refine ⟨L₁, h₁.agree, hedge.withEdge ?_⟩
    rw [hbetween, h₁.agree t ht.2, mul_assoc]
    exact hle

/-- A carriage return, a line feed, or the one after the other. -/
lemma lineBreak_language :
    Meaning.lineBreak.language =
      union (fun c => symbol (some c)) ['\r', '\n'] +
        symbol (some '\r') * symbol (some '\n') := by
  ext w
  show w = ['\r'] ∨ w = ['\n'] ∨ w = ['\r', '\n'] ↔
    (∃ c ∈ ['\r', '\n'], w = [c]) ∨ w ∈ symbol (some '\r') * symbol (some '\n')
  have hmul : w ∈ symbol (some '\r') * symbol (some '\n') ↔ w = ['\r', '\n'] := by
    simp only [symbol, Language.mem_mul]
    constructor
    · rintro ⟨_, rfl, _, rfl, rfl⟩
      rfl
    · rintro rfl
      exact ⟨_, rfl, _, rfl, rfl⟩
  rw [hmul]
  simp [or_assoc]

/-- What is added for a literal is a link. -/
lemma link_literal {x : Literal} {u : Unit} (ha : a.Valid) (hs : a.Inner s) (ht : a.Inner t)
    (h : Makes (x.assemble s t) a u b) : Link a b s t x.meaning.language := by
  cases hx : x.meaning with
  | single c =>
      rw [Literal.assemble, hx] at h
      obtain rfl := makes_connect.1 h
      exact link_withEdge hs.2 ht
  | oneOf cs =>
      rw [Literal.assemble, hx] at h
      exact link_connectAll ha hs ht h
  | lineBreak =>
      obtain ⟨c, hc, rfl⟩ := makes_lineBreak hx h
      have hone := link_connectAll ha hs ht hc
      have htwo := link_between (k := some '\r') (l := some '\n') (hone.grows.valid ha)
        (hs.of_grows hone.grows ha) (ht.of_grows hone.grows ha)
      rw [lineBreak_language]
      exact hone.add htwo ha hs ht

/-- What is added for a member of a class is a link. -/
lemma link_member {x : Member} {u : Unit} (ha : a.Valid) (hs : a.Inner s) (ht : a.Inner t)
    (h : Makes (x.assemble s t) a u b) : Link a b s t x.language := by
  cases x with
  | literal x => exact link_literal ha hs ht h
  | range first last =>
      have hlanguage : union (fun c => symbol (some c)) (rangeEnds first last ++ rangeChars first last) =
          (Member.range first last).language :=
        union_congr fun c => mem_rangeEnds_append
      exact hlanguage ▸ link_connectAll ha hs ht h

/-- What is added for a class is a link. -/
lemma link_members {members : List Member} {u : Unit} (ha : a.Valid) (hs : a.Inner s)
    (ht : a.Inner t) (h : Makes (members.forM fun x => x.assemble s t) a u b) :
    Link a b s t (union Member.language members) :=
  link_forM (fun _ _ _ _ _ ha hs ht h => link_member ha hs ht h) ha hs ht h

end Assembly

end CaptureAutomata
