/-
What the automaton of a pattern accepts:

* `Nfa.HasMain`: the tag of the whole pattern starts in the initial state 0, to which nothing leads
  back, and is the only one of its name;
* `exists_ofPattern`: every pattern that can be read has such an automaton, and it accepts exactly the
  words that are read on a way through the pattern;
* `accepts_only_denoted_iff`: it accepts nothing but what the pattern stands for exactly if these ways do
  not read more, which `a+b+` shows they may;
* `accepts_of_denotes`: it accepts all that the pattern stands for.
-/
import CaptureAutomata.Proofs.Pattern.Ways
import CaptureAutomata.Proofs.Pattern.WellFormed

namespace CaptureAutomata

open scoped Computability

/-! ### The main tag -/

/-- The tag of the whole pattern leads from the initial state 0, to which nothing leads back, to
`stop`. No other tag has its name. -/
structure Nfa.HasMain (m : PatternNfa) (stop : Nat) : Prop where
  /-- Runs start in state 0. -/
  initial_eq : m.initial = 0
  /-- No transition leads to state 0. -/
  notMem_targets : ∀ s l, 0 ∉ m.graph.targets s l
  /-- The tag is there, and is the only one of its name. -/
  mem_tags_iff : ∀ t, t ∈ m.tags ∧ t.name = mainGroup ↔ t = ⟨mainGroup, 0, stop⟩

namespace Nfa.HasMain

variable {m : PatternNfa} {stop : Nat} {w : List Char}

/-- Accepting a word for the main group is to reach the stop of its tag. -/
lemma accepts_iff (h : m.HasMain stop) : m.Accepts mainGroup w ↔ m.Reaches w stop := by
  constructor
  · rintro ⟨t, ht, hname, hr⟩
    obtain rfl := (h.mem_tags_iff t).1 ⟨ht, hname⟩
    exact hr
  · intro hr
    obtain ⟨ht, hname⟩ := (h.mem_tags_iff _).2 rfl
    exact ⟨_, ht, hname, hr⟩

/-- The initial state is left for good. -/
lemma eq_nil_of_reaches (h : m.HasMain stop) (hr : m.Reaches w 0) : w = [] := by
  have hrun : ∀ {s t x}, m.Run s x t → t = 0 → s = 0 ∧ x = [] := by
    intro s t x hr ht
    induction hr with
    | nil s => exact ⟨ht, rfl⟩
    | @silent s u _ _ he _ ih =>
        obtain ⟨rfl, -⟩ := ih ht
        exact absurd he (h.notMem_targets s _)
    | @read s u _ _ _ he _ ih =>
        obtain ⟨rfl, -⟩ := ih ht
        exact absurd he (h.notMem_targets s _)
  exact (hrun hr rfl).2

end Nfa.HasMain

/-! ### The automaton of a pattern -/

namespace Pattern

open Assembly

/-- A pattern is assembled behind the initial state: an entry, the branches from there on, led together,
and the main tag around them. -/
lemma exists_makes_main (p : Pattern) :
    ∃ stops c stop b, Makes (p.assembleBranches start.count)
        (start.withState.withEdge 0 none start.count) stops c ∧ Makes (join stops) c stop b ∧
      (p.assembleMain.run start).2 = b.withTag mainGroup 0 stop := by
  obtain ⟨r, a, h⟩ := exists_makes p.assembleMain start
  have ha : (p.assembleMain.run start).2 = a := congrArg Prod.snd h
  obtain ⟨_, c, h₁, h⟩ := makes_bind.1 h
  obtain ⟨rfl, rfl⟩ := makes_newState.1 h₁
  obtain ⟨_, c, h₂, h⟩ := makes_bind.1 h
  obtain rfl := makes_connect.1 h₂
  obtain ⟨stop, b, h₃, h⟩ := makes_bind.1 h
  obtain rfl := makes_tag.1 h
  obtain ⟨stops, c, hstops, hjoin⟩ := makes_bind.1 h₃
  exact ⟨stops, c, stop, b, hstops, hjoin, ha⟩

/-- The main tag is built around a passage from the initial state. -/
lemma exists_passage {p : Pattern} (hp : p.WellFormed) :
    ∃ b stop, (p.assembleMain.run start).2 = b.withTag mainGroup 0 stop ∧
      Passage start b 0 stop p.threaded := by
  obtain ⟨stops, c, stop, b, hstops, hjoin, ha⟩ := p.exists_makes_main
  obtain ⟨hv, hentry⟩ := valid_start.entry valid_start.pos
  have hbundle := (p.bundle_assemble hp hv hentry hstops).join hv hjoin
  exact ⟨b, stop, ha, hbundle.passage valid_start valid_start.pos⟩

/-- With the main tag around it, what has been assembled can be built, and has a main tag. -/
lemma exists_build_main {b : Assembly} {stop : Nat} (hgrows : start.Grows b) (hstop : b.Inner stop) :
    ∃ m, (b.withTag mainGroup 0 stop).builder.build = .ok m ∧ m.HasMain stop ∧
      (∀ s l t, t ∈ m.graph.targets s l ↔ b.HasEdge s l t) ∧
      m.tags = b.builder.tags ++ [⟨mainGroup, 0, stop⟩] := by
  have hb := hgrows.valid valid_start
  obtain ⟨m, hm, hinitial, hadj, htags⟩ := (hb.withTag hb.pos hstop.2).exists_build
  have htargets : ∀ s l t, t ∈ m.graph.targets s l ↔ b.HasEdge s l t := fun s l t => by
    rw [NondeterministicGraph.targets, hadj]
    rfl
  refine ⟨m, hm, ⟨hinitial, fun s l h0 => ?_, fun t => ?_⟩, htargets, htags⟩
  · exact absurd (hb.edge s l 0 ((htargets s l 0).1 h0)).1 (lt_irrefl 0)
  · have hmem : t ∈ m.tags ↔ t ∈ b.builder.tags ∨ t = ⟨mainGroup, 0, stop⟩ := by
      rw [htags]
      exact List.mem_append.trans (or_congr_right List.mem_singleton)
    rw [hmem]
    constructor
    · rintro ⟨ht | ht, hname⟩
      · rcases hgrows.mem_tags ht with ht | ht
        · cases ht
        · exact absurd hname ht
      · exact ht
    · rintro rfl
      exact ⟨Or.inr rfl, rfl⟩

/-- An automaton with nothing but a passage from the initial state reads the words of the passage. -/
lemma reaches_iff_of_passage {m : PatternNfa} {b : Assembly} {stop : Nat} {A : Language Char}
    (hway : Passage start b 0 stop A) (hinitial : m.initial = 0)
    (htargets : ∀ s l t, t ∈ m.graph.targets s l ↔ b.HasEdge s l t) (w : List Char) :
    m.Reaches w stop ↔ w ∈ A := by
  rw [Nfa.Reaches, hinitial]
  constructor
  · intro hrun
    -- only the empty word is read on the way to the initial state
    have hnone : Labels start fun _ => 1 := fun s l t he => absurd he not_hasEdge_start
    obtain ⟨L, h, hstop⟩ := hway.labels _ hnone
    have hnil : [] ∈ L 0 := by
      rw [h.agree 0 valid_start.pos]
      exact Language.nil_mem_one
    have hw := hstop (h.labels.run (fun s l t ht => (htargets s l t).1 ht) hrun hnil)
    rwa [one_mul] at hw
  · exact fun hw => hway.reads m (fun s l t he => (htargets s l t).2 he) w hw

/-- A well-formed pattern has an automaton, which accepts exactly the words that are read on a way
through the pattern. -/
lemma exists_toNfa {p : Pattern} (hp : p.WellFormed) :
    ∃ m stop, p.toNfa = .ok m ∧ m.HasMain stop ∧ ∀ w, m.Reaches w stop ↔ w ∈ p.threaded := by
  obtain ⟨b, stop, ha, hway⟩ := exists_passage hp
  obtain ⟨m, hm, hmain, htargets, -⟩ := exists_build_main hway.grows hway.inner
  exact ⟨m, stop, by rw [toNfa, ha, hm], hmain,
    reaches_iff_of_passage hway hmain.initial_eq htargets⟩

/-- Every pattern that can be read has an automaton, and it accepts exactly the words that are read on
a way through the pattern. -/
lemma exists_ofPattern {text : String} {p : Pattern} (h : Pattern.parse text = .ok p) :
    ∃ m stop, Nfa.ofPattern text = .ok m ∧ m.HasMain stop ∧
      ∀ w, m.Accepts mainGroup w ↔ w ∈ p.threaded := by
  obtain ⟨m, stop, hm, hmain, hreads⟩ := exists_toNfa (wellFormed_of_parse h)
  refine ⟨m, stop, ?_, hmain, fun w => hmain.accepts_iff.trans (hreads w)⟩
  rw [Nfa.ofPattern, h]
  exact mapError_eq_ok.2 hm

/-- The automaton of a pattern accepts the words that are read on a way through the pattern. So it
accepts nothing but what the pattern stands for exactly if only such words are read on these ways. -/
theorem accepts_only_denoted_iff {text : String} {p : Pattern} (h : Pattern.parse text = .ok p) :
    ∃ m, Nfa.ofPattern text = .ok m ∧ m.initial = 0 ∧
      (∀ w, m.Accepts mainGroup w ↔ w ∈ p.threaded) ∧
      ((∀ w, m.Accepts mainGroup w → p.Denotes w) ↔ p.threaded ≤ p.language) := by
  obtain ⟨m, stop, hm, hmain, haccepts⟩ := exists_ofPattern h
  exact ⟨m, hm, hmain.initial_eq, haccepts, forall_congr' fun w => imp_congr_left (haccepts w)⟩

/-- Behind one repeated letter nothing else is accepted than what `a+b` stands for. -/
theorem accepts_only_denoted_of_one_repetition :
    ∃ p m, Pattern.parse "a+b" = .ok p ∧ Nfa.ofPattern "a+b" = .ok m ∧
      ∀ w, m.Accepts mainGroup w → p.Denotes w := by
  have hp : Pattern.parse "a+b" = .ok (.single ((Sequence.empty.append (.literal (.plain 'a'))
    .oneOrMore).append (.literal (.plain 'b')) .once)) := rfl
  obtain ⟨m, hm, -, -, hiff⟩ := accepts_only_denoted_iff hp
  refine ⟨_, m, hp, hm, hiff.2 (le_of_eq ?_)⟩
  simp only [threaded, trips, walks, Sequence.trips, Sequence.walks, Quantifier.trips,
    Quantifier.passes, Atom.threaded, language_single, Sequence.language_append,
    Sequence.language_empty, Quantifier.apply, kstar_zero, one_mul, mul_one]
  rw [← mul_assoc, Language.mul_self_kstar_comm]
  rfl

/-- Words put together from one letter have no other. -/
lemma forall_eq_of_repeats {c : Char} {w : List Char} (h : Repeats (· = [c]) w) :
    ∀ x ∈ w, x = c := by
  induction h with
  | nil => simp
  | append hu _ ih =>
      subst hu
      simpa using ih

/-- Two repeated items may be read twice in a row. -/
lemma append_mem_of_two_repetitions {A B : Language Char} {x y : List Char} (hx : x ∈ A)
    (hy : y ∈ B) : x ++ y ++ (x ++ y) ∈ (A * B∗)∗ * (A * B∗ * B) := by
  have hstar : B ≤ B∗ := le_kstar
  have hround : x ++ y ∈ A * B∗ := Language.append_mem_mul hx (hstar hy)
  have hrounds : A * B∗ ≤ (A * B∗)∗ := le_kstar
  have hstay : A ≤ A * B∗ := le_mul_kstar
  exact Language.append_mem_mul (hrounds hround) (Language.append_mem_mul (hstay hx) hy)

/-- Behind two repeated letters `a+b+` accepts `abab`, which it does not stand for: the second letter
leads back to the state where the first one ended, which leads back to the start. -/
theorem not_accepts_only_denoted :
    ∃ p m, Pattern.parse "a+b+" = .ok p ∧ Nfa.ofPattern "a+b+" = .ok m ∧
      m.Accepts mainGroup ['a', 'b', 'a', 'b'] ∧ ¬ p.Denotes ['a', 'b', 'a', 'b'] := by
  have hp : Pattern.parse "a+b+" = .ok (.single ((Sequence.empty.append (.literal (.plain 'a'))
    .oneOrMore).append (.literal (.plain 'b')) .oneOrMore)) := rfl
  obtain ⟨m, -, hm, -, haccepts⟩ := exists_ofPattern hp
  refine ⟨_, m, hp, hm, (haccepts _).2 ?_, ?_⟩
  · simp only [threaded, trips, walks, Sequence.trips, Sequence.walks, Quantifier.trips,
      Quantifier.passes, Atom.threaded, kstar_zero, one_mul, mul_one]
    exact append_mem_of_two_repetitions (x := ['a']) (y := ['b']) rfl rfl
  · rintro ⟨u, v, huv, ⟨_, _, rfl, rfl, _, y, rfl, rfl, hy⟩, _, z, rfl, rfl, hz⟩
    have hy := forall_eq_of_repeats hy
    have hz := forall_eq_of_repeats hz
    cases y with
    | nil =>
        obtain rfl : ['a', 'b'] = z := by simpa using huv
        exact absurd (hz 'a' (.head _)) (by decide)
    | cons c y =>
        obtain ⟨rfl, -⟩ : 'b' = c ∧ _ := by simpa using huv
        exact absurd (hy 'b' (.head _)) (by decide)

/-- The automaton of a pattern accepts every word that the pattern stands for. -/
theorem accepts_of_denotes {text : String} {p : Pattern} (h : Pattern.parse text = .ok p) :
    ∃ m, Nfa.ofPattern text = .ok m ∧ m.initial = 0 ∧
      ∀ w, p.Denotes w → m.Accepts mainGroup w := by
  obtain ⟨m, stop, hm, hmain, haccepts⟩ := exists_ofPattern h
  exact ⟨m, hm, hmain.initial_eq, fun w hw => (haccepts w).2 (p.language_le_threaded hw)⟩

/-- A repeated group with two branches stands for nothing that its automaton does not accept. -/
theorem accepts_of_denotes_of_group :
    ∃ p m, Pattern.parse "(a|b)*" = .ok p ∧ Nfa.ofPattern "(a|b)*" = .ok m ∧
      ∀ w, p.Denotes w → m.Accepts mainGroup w := by
  have hp : ∃ p, Pattern.parse "(a|b)*" = .ok p := ⟨_, rfl⟩
  obtain ⟨p, hp⟩ := hp
  obtain ⟨m, hm, -, haccepts⟩ := accepts_of_denotes hp
  exact ⟨p, m, hp, hm, haccepts⟩

end Pattern

end CaptureAutomata
