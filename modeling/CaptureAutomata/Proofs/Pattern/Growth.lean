/-
How an automaton grows while a pattern is assembled:

* `mem_charRange`, `mem_rangeEnds_append`: the characters of a range, to which its ends belong;
* `Makes`: what a computation returns and which assembly it leaves behind, with one lemma for each
  step that computations are made of;
* `Assembly.Valid`: states are numbered without gaps, transitions and tags lie between them, and
  nothing leads back to the initial state;
* `Assembly.Grows`: the steps by which an assembly may grow. What was there stays (`Grows.hasEdge`),
  and a valid assembly stays valid (`Grows.valid`);
* `Assembly.Labels`: a labelling of the states with languages that no transition breaks. It can be
  extended when the assembly grows, and holds what runs read (`Labels.run`).
-/
import CaptureAutomata.Pattern.Assembly
import CaptureAutomata.Proofs.Nfa.Build
import CaptureAutomata.Proofs.Nfa.Reach
import Mathlib

namespace CaptureAutomata

/-! ### Ranges -/

/-- The characters of a range are all from one to the other, both included. -/
@[simp] lemma mem_charRange {a b c : Char} : c ∈ charRange a b ↔ a ≤ c ∧ c ≤ b := by
  have hle : ∀ {d e : Char}, d ≤ e ↔ d.toNat ≤ e.toNat := Char.le_def.trans UInt32.le_iff_toNat_le
  simp only [charRange, List.mem_map, List.mem_filter, List.mem_range'_1, decide_eq_true_eq]
  constructor
  · rintro ⟨n, ⟨⟨hfirst, hlast⟩, hvalid⟩, rfl⟩
    rw [hle, hle, Char.toNat_ofNat, if_pos hvalid]
    omega
  · rintro ⟨hfirst, hlast⟩
    rw [hle] at hfirst hlast
    exact ⟨c.toNat, ⟨by omega, c.valid⟩, Char.ofNat_toNat c⟩

/-- The ends of a range belong to it. -/
lemma mem_rangeEnds_append {first last : Literal} {c : Char} :
    c ∈ rangeEnds first last ++ rangeChars first last ↔ c ∈ rangeChars first last := by
  refine List.mem_append.trans (or_iff_right_of_imp fun hc => ?_)
  revert hc
  rw [rangeEnds, rangeChars]
  split
  next a b _ _ =>
    split
    next hlt =>
      intro hc
      have hle : a ≤ b := hlt.le
      rcases List.mem_pair.1 hc with rfl | rfl
      · exact mem_charRange.2 ⟨le_rfl, hle⟩
      · exact mem_charRange.2 ⟨hle, le_rfl⟩
    next => exact fun hc => absurd hc List.not_mem_nil
  next => exact fun hc => hc

/-! ### Computations -/

/-- From the assembly `a` the computation returns `r` and leaves `b` behind. -/
def Makes {α : Type} (f : StateM Assembly α) (a : Assembly) (r : α) (b : Assembly) : Prop :=
  f.run a = (r, b)

section Makes

variable {α β : Type} {f : StateM Assembly α} {g : α → StateM Assembly β} {a b : Assembly}

lemma exists_makes (f : StateM Assembly α) (a : Assembly) : ∃ r b, Makes f a r b := ⟨_, _, rfl⟩

@[simp] lemma makes_pure {r r' : α} : Makes (pure r) a r' b ↔ r' = r ∧ b = a := by
  show ((r, a) : α × Assembly) = (r', b) ↔ _
  rw [Prod.mk.injEq, eq_comm, @eq_comm _ a]

/-- One computation goes on where the one before it has stopped. -/
lemma makes_bind {r : β} : Makes (f >>= g) a r b ↔ ∃ x c, Makes f a x c ∧ Makes (g x) c r b := by
  constructor
  · intro h
    exact ⟨_, _, rfl, h⟩
  · rintro ⟨x, c, hf, hg⟩
    show Makes (g (f.run a).1) (f.run a).2 r b
    rw [hf]
    exact hg

end Makes

namespace Assembly

/-! ### Single steps -/

/-- The number of states. -/
def count (a : Assembly) : Nat :=
  a.builder.stateCount

/-- There is a transition from `s` to `t`, on a symbol or without one. -/
def HasEdge (a : Assembly) (s : Nat) (l : Option Char) (t : Nat) : Prop :=
  a.builder.graph.HasEdge s l t

/-- The assembly with one more state. -/
def withState (a : Assembly) : Assembly :=
  { a with builder := a.builder.state a.count }

/-- The assembly with one more transition. -/
def withEdge (a : Assembly) (s : Nat) (l : Option Char) (t : Nat) : Assembly :=
  { a with builder := a.builder.transition s l t }

/-- The assembly with one more group. -/
def withGroup (a : Assembly) : Assembly :=
  { a with groups := a.groups + 1 }

/-- The assembly with one more tag. -/
def withTag (a : Assembly) (name : String) (s t : Nat) : Assembly :=
  { a with builder := a.builder.tag name s t }

variable {a b c : Assembly} {s t u v : Nat} {k l : Option Char} {name : String}

@[simp] lemma makes_newState {r : Nat} : Makes newState a r b ↔ r = a.count ∧ b = a.withState := by
  show ((a.count, a.withState) : Nat × Assembly) = (r, b) ↔ _
  rw [Prod.mk.injEq, eq_comm, @eq_comm _ a.withState]

@[simp] lemma makes_connect {r : Unit} : Makes (connect s l t) a r b ↔ b = a.withEdge s l t := by
  show (((), a.withEdge s l t) : Unit × Assembly) = (r, b) ↔ _
  simp [eq_comm]

@[simp] lemma makes_newGroup {r : Nat} : Makes newGroup a r b ↔ r = a.groups + 1 ∧ b = a.withGroup := by
  show ((a.groups + 1, a.withGroup) : Nat × Assembly) = (r, b) ↔ _
  rw [Prod.mk.injEq, eq_comm, @eq_comm _ a.withGroup]

@[simp] lemma makes_tag {r : Unit} : Makes (tag name s t) a r b ↔ b = a.withTag name s t := by
  show (((), a.withTag name s t) : Unit × Assembly) = (r, b) ↔ _
  simp [eq_comm]

/-- What may be repeated any number of times gets a further state, a transition back and two to it. -/
lemma makes_zeroOrMore {r : Nat} (h : Makes (Quantifier.zeroOrMore.assemble s t) a r b) :
    r = a.count ∧
      b = ((a.withState.withEdge t none s).withEdge s none a.count).withEdge t none a.count := by
  obtain ⟨_, c, h₁, h⟩ := makes_bind.1 h
  obtain ⟨rfl, rfl⟩ := makes_newState.1 h₁
  obtain ⟨_, c, h₂, h⟩ := makes_bind.1 h
  obtain rfl := makes_connect.1 h₂
  obtain ⟨_, c, h₃, h⟩ := makes_bind.1 h
  obtain rfl := makes_connect.1 h₃
  obtain ⟨_, c, h₄, h⟩ := makes_bind.1 h
  obtain rfl := makes_connect.1 h₄
  exact makes_pure.1 h

/-- A line break gets transitions on both characters, and a way over a further state. -/
lemma makes_lineBreak {l : Literal} (hl : l.meaning = .lineBreak) {r : Unit}
    (h : Makes (l.assemble s t) a r b) :
    ∃ c, Makes (connectAll s ['\r', '\n'] t) a () c ∧
      b = (c.withState.withEdge s (some '\r') c.count).withEdge c.count (some '\n') t := by
  rw [Literal.assemble, hl] at h
  obtain ⟨_, c, h₁, h⟩ := makes_bind.1 h
  obtain ⟨_, d, h₂, h⟩ := makes_bind.1 h
  obtain ⟨rfl, rfl⟩ := makes_newState.1 h₂
  obtain ⟨_, d, h₃, h⟩ := makes_bind.1 h
  obtain rfl := makes_connect.1 h₃
  exact ⟨c, h₁, makes_connect.1 h⟩

@[simp] lemma hasEdge_withState : a.withState.HasEdge s l t ↔ a.HasEdge s l t :=
  NondeterministicGraph.Builder.hasEdge_vertex

/-- A further transition is there besides the others. -/
@[simp] lemma hasEdge_withEdge :
    (a.withEdge s l t).HasEdge u k v ↔ u = s ∧ k = l ∧ v = t ∨ a.HasEdge u k v :=
  NondeterministicGraph.Builder.hasEdge_path

/-! ### Growth -/

/-- States are numbered without gaps, transitions and tags lie between states, and nothing leads back
to the initial state 0. -/
structure Valid (a : Assembly) : Prop where
  /-- The states are the numbers below the count. -/
  mem_iff : ∀ s, s ∈ a.builder.graph.adjacency ↔ s < a.count
  /-- The initial state is 0. -/
  initial_eq : a.builder.initial = 0
  /-- There is an initial state. -/
  pos : 0 < a.count
  /-- Transitions lead to states, but never to the initial one. -/
  edge : ∀ s l t, a.HasEdge s l t → 0 < t ∧ t < a.count
  /-- Tags start and end in states. -/
  tag : ∀ t ∈ a.builder.tags, t.start < a.count ∧ t.stop < a.count

/-- `b` is made from `a` by further states, further transitions between states but to the initial
one, further groups and tags of groups. -/
inductive Grows (a : Assembly) : Assembly → Prop
  /-- Nothing may be added. -/
  | refl : Grows a a
  /-- A state may be added. -/
  | state {b : Assembly} (h : Grows a b) : Grows a b.withState
  /-- A transition may be added. -/
  | edge {b : Assembly} {s t : Nat} {l : Option Char} (h : Grows a b) (hs : s < b.count)
      (ht : 0 < t ∧ t < b.count) : Grows a (b.withEdge s l t)
  /-- A group may be opened. -/
  | group {b : Assembly} (h : Grows a b) : Grows a b.withGroup
  /-- A tag may be added that does not have the name of the main group. -/
  | tag {b : Assembly} {name : String} {s t : Nat} (h : Grows a b) (hn : name ≠ mainGroup)
      (hs : s < b.count) (ht : t < b.count) : Grows a (b.withTag name s t)

/-- Growing goes on where it stopped. -/
lemma Grows.trans (h : a.Grows b) (k : b.Grows c) : a.Grows c := by
  induction k with
  | refl => exact h
  | state _ ih => exact .state ih
  | edge _ hs ht ih => exact .edge ih hs ht
  | group _ ih => exact .group ih
  | tag _ hn hs ht ih => exact .tag ih hn hs ht

/-- Transitions stay. -/
lemma Grows.hasEdge (h : a.Grows b) (he : a.HasEdge s l t) : b.HasEdge s l t := by
  induction h with
  | refl => exact he
  | state _ ih => exact hasEdge_withState.2 ih
  | edge _ _ _ ih => exact hasEdge_withEdge.2 (Or.inr ih)
  | group _ ih => exact ih
  | tag _ _ _ _ ih => exact ih

/-- Tags stay, and those that are added do not have the name of the main group. -/
lemma Grows.mem_tags (h : a.Grows b) {x : Tag String Nat} (hx : x ∈ b.builder.tags) :
    x ∈ a.builder.tags ∨ x.name ≠ mainGroup := by
  induction h with
  | refl => exact Or.inl hx
  | state _ ih => exact ih hx
  | edge _ _ _ ih => exact ih hx
  | group _ ih => exact ih hx
  | tag _ hn _ _ ih =>
      rcases List.mem_append.1 hx with hx | hx
      · exact ih hx
      · obtain rfl := List.mem_singleton.1 hx
        exact Or.inr hn

lemma Valid.count_withState (h : a.Valid) : a.withState.count = a.count + 1 :=
  NondeterministicGraph.Builder.size_vertex fun hs => absurd ((h.mem_iff _).1 hs) (lt_irrefl _)

lemma Valid.count_withEdge (h : a.Valid) (hs : s < a.count) (ht : t < a.count) :
    (a.withEdge s l t).count = a.count :=
  NondeterministicGraph.Builder.size_path ((h.mem_iff s).2 hs) ((h.mem_iff t).2 ht)

lemma Valid.source_lt (h : a.Valid) (he : a.HasEdge s l t) : s < a.count := (h.mem_iff s).1 he.mem

/-- One more state keeps an assembly valid. -/
lemma Valid.withState (h : a.Valid) : a.withState.Valid := by
  have hcount := h.count_withState
  refine ⟨fun s => ?_, h.initial_eq, by omega, fun s l t he => ?_, fun t ht => ?_⟩
  · rw [hcount]
    refine NondeterministicGraph.Builder.mem_vertex.trans ?_
    rw [h.mem_iff]
    show s = a.count ∨ _ ↔ _
    omega
  · have := h.edge s l t (hasEdge_withState.1 he)
    omega
  · have := h.tag t ht
    omega

/-- One more transition keeps an assembly valid. -/
lemma Valid.withEdge (h : a.Valid) (hs : s < a.count) (ht : 0 < t ∧ t < a.count) :
    (a.withEdge s l t).Valid := by
  have hcount := h.count_withEdge (l := l) hs ht.2
  refine ⟨fun u => ?_, h.initial_eq, by rw [hcount]; exact h.pos, fun u k v he => ?_, fun x hx => ?_⟩
  · rw [hcount]
    refine NondeterministicGraph.Builder.mem_path.trans ?_
    rw [h.mem_iff]
    omega
  · rw [hcount]
    rcases hasEdge_withEdge.1 he with ⟨-, -, rfl⟩ | he
    · exact ht
    · exact h.edge u k v he
  · rw [hcount]
    exact h.tag x hx

/-- One more tag between states keeps an assembly valid. -/
lemma Valid.withTag (h : a.Valid) (hs : s < a.count) (ht : t < a.count) :
    (a.withTag name s t).Valid := by
  refine ⟨h.mem_iff, h.initial_eq, h.pos, h.edge, fun x hx => ?_⟩
  rcases List.mem_append.1 hx with hx | hx
  · exact h.tag x hx
  · obtain rfl := List.mem_singleton.1 hx
    exact ⟨hs, ht⟩

/-- Growing keeps an assembly valid, and never loses a state. -/
lemma Grows.valid_and_count_le (h : a.Grows b) (ha : a.Valid) : b.Valid ∧ a.count ≤ b.count := by
  induction h with
  | refl => exact ⟨ha, le_rfl⟩
  | state _ ih => exact ⟨ih.1.withState, ih.1.count_withState ▸ by omega⟩
  | edge _ hs ht ih => exact ⟨ih.1.withEdge hs ht, ih.1.count_withEdge hs ht.2 ▸ ih.2⟩
  | group _ ih => exact ⟨⟨ih.1.mem_iff, ih.1.initial_eq, ih.1.pos, ih.1.edge, ih.1.tag⟩, ih.2⟩
  | tag _ _ hs ht ih => exact ⟨ih.1.withTag hs ht, ih.2⟩

lemma Grows.valid (h : a.Grows b) (ha : a.Valid) : b.Valid := (h.valid_and_count_le ha).1

lemma Grows.count_le (h : a.Grows b) (ha : a.Valid) : a.count ≤ b.count :=
  (h.valid_and_count_le ha).2

@[simp] lemma not_hasEdge_start : ¬ start.HasEdge s l t := by
  intro he
  have hempty := NondeterministicGraph.Builder.hasEdge_vertex.1 he
  simp [NondeterministicGraph.Builder.HasEdge] at hempty

@[simp] lemma count_start : start.count = 1 := by
  have hfresh : 0 ∉ ({} : NondeterministicGraph.Builder Nat (Option Char)).adjacency := by simp
  exact (NondeterministicGraph.Builder.size_vertex hfresh).trans
    (by simp [NondeterministicGraph.Builder.size])

/-- The automaton with nothing but its initial state is valid. -/
lemma valid_start : start.Valid := by
  have hcount := count_start
  refine ⟨fun s => ?_, rfl, by omega, fun s l t he => absurd he not_hasEdge_start, fun t ht => ?_⟩
  · rw [hcount]
    refine NondeterministicGraph.Builder.mem_vertex.trans ?_
    simp
  · simp [start, Nfa.Builder.ofInitial] at ht

/-- A valid assembly can be built, and keeps all that was collected. -/
lemma Valid.exists_build (h : a.Valid) :
    ∃ m, a.builder.build = .ok m ∧ m.initial = 0 ∧
      m.graph.adjacency = a.builder.graph.adjacency ∧ m.tags = a.builder.tags := by
  obtain ⟨m, hm, hinitial, hadj, htags⟩ := Nfa.Builder.exists_build (b := a.builder)
    (fun s l t he => (h.mem_iff t).2 (h.edge s l t he).2)
    ((h.mem_iff _).2 (h.initial_eq ▸ h.pos))
    fun t ht => ⟨(h.mem_iff _).2 (h.tag t ht).1, (h.mem_iff _).2 (h.tag t ht).2⟩
  exact ⟨m, hm, hinitial.trans h.initial_eq, hadj, htags⟩

/-! ### Labels -/

/-- What is read over a transition. -/
def symbol : Option Char → Language Char
  | none => 1
  | some c => {[c]}

/-- What is read on the way to a state may be followed by what is read over a transition. -/
def Labels (a : Assembly) (L : Nat → Language Char) : Prop :=
  ∀ s l t, a.HasEdge s l t → L s * symbol l ≤ L t

/-- `L'` labels `b` as `L` labels the states of `a`. -/
structure Relabels (a b : Assembly) (L L' : Nat → Language Char) : Prop where
  /-- The states of `a` keep their labels. -/
  agree : ∀ s < a.count, L' s = L s
  /-- All transitions of `b` are respected. -/
  labels : Labels b L'

variable {L L' L'' : Nat → Language Char}

lemma Relabels.refl (h : Labels a L) : Relabels a a L L :=
  ⟨fun _ _ => rfl, h⟩

lemma Relabels.trans (h : Relabels a b L L') (k : Relabels b c L' L'')
    (hle : a.count ≤ b.count) : Relabels a c L L'' :=
  ⟨fun s hs => (k.agree s (by omega)).trans (h.agree s hs), k.labels⟩

/-- A further state may have any label. -/
lemma Labels.withState (h : Labels a L) (ha : a.Valid) (P : Language Char) :
    ∃ L', Relabels a a.withState L L' ∧ L' a.count = P := by
  have hold : ∀ s < a.count, (if s = a.count then P else L s) = L s := fun s hs =>
    if_neg (by omega)
  refine ⟨fun s => if s = a.count then P else L s, ⟨hold, fun s l t he => ?_⟩, if_pos rfl⟩
  rw [hasEdge_withState] at he
  rw [hold s (ha.source_lt he), hold t (ha.edge s l t he).2]
  exact h s l t he

/-- A further transition must respect the labels. -/
lemma Labels.withEdge (h : Labels a L) (he : L s * symbol l ≤ L t) :
    Labels (a.withEdge s l t) L := by
  intro u k v huv
  rcases hasEdge_withEdge.1 huv with ⟨rfl, rfl, rfl⟩ | huv
  · exact he
  · exact h u k v huv

/-! ### Runs -/

variable {m : PatternNfa}

/-- All transitions of the assembly are there in the automaton. -/
def Within (a : Assembly) (m : PatternNfa) : Prop :=
  ∀ s l t, a.HasEdge s l t → t ∈ m.graph.targets s l

lemma Within.of_grows (h : b.Within m) (k : a.Grows b) : a.Within m :=
  fun s l t he => h s l t (k.hasEdge he)

/-- The label of a state that a run ends in holds what is read on the way to its start, followed by
what the run reads, if no transition of the automaton breaks the labelling. -/
lemma append_mem_of_run (h : ∀ s l t, t ∈ m.graph.targets s l → L s * symbol l ≤ L t)
    {w x : List Char} (hr : m.Run s w t) (hx : x ∈ L s) : x ++ w ∈ L t := by
  induction hr generalizing x with
  | nil s => simpa using hx
  | silent he _ ih =>
      have hnext := h _ _ _ he (Language.append_mem_mul hx (Language.nil_mem_one))
      rw [List.append_nil] at hnext
      exact ih hnext
  | @read s t _ a w he _ ih =>
      have hnext := h _ _ _ he (Language.append_mem_mul hx (Set.mem_singleton [a]))
      simpa using ih hnext

/-- So it does if the automaton has no other transitions than an assembly that is labelled. -/
lemma Labels.run (h : Labels a L) (hm : ∀ s l t, t ∈ m.graph.targets s l → a.HasEdge s l t)
    {w x : List Char} (hr : m.Run s w t) (hx : x ∈ L s) : x ++ w ∈ L t :=
  append_mem_of_run (fun s l t he => h s l t (hm s l t he)) hr hx

end Assembly

end CaptureAutomata
