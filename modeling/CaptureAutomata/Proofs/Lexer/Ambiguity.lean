/-
Vocabularies that are ambiguous:

* `KeySet.one_lt_size_iff`: a set has more than one member exactly if two of its members differ;
* `Lexer.mem_endingIn`: the names that end in the state after a word are those of the symbols that the
  word belongs to;
* `Lexer.clash?_eq_some`, `Lexer.exists_clash?`: what it means that the automaton cannot tell symbols
  apart, and when this is so;
* `Lexer.ambiguous_iff`: a vocabulary is ambiguous exactly if some word belongs to two symbols that are
  no keywords, and then all such symbols of one word are told.
-/
import CaptureAutomata.Proofs.Lexer.Composition

namespace CaptureAutomata

/-- A set has more than one member exactly if two of its members differ. -/
lemma KeySet.one_lt_size_iff {α : Type} [Key α] {s : KeySet α} :
    1 < s.size ↔ ∃ a ∈ s, ∃ b ∈ s, a ≠ b := by
  have hdistinct := Std.ExtTreeSet.distinct_toList (t := s)
  simp only [← Std.ExtTreeSet.length_toList, ← Std.ExtTreeSet.mem_toList (t := s)]
  cases hl : s.toList with
  | nil => simp
  | cons a l =>
      cases l with
      | nil => simp
      | cons b l =>
          rw [hl] at hdistinct
          have hab : a ≠ b := fun heq =>
            List.rel_of_pairwise_cons hdistinct (.head _) (Key.compare_eq_iff.2 heq)
          simp only [List.length_cons, Nat.lt_add_left_iff_pos, Nat.zero_lt_succ, true_iff]
          exact ⟨a, .head _, b, .tail _ (.head _), hab⟩

namespace Lexer

variable {vocabulary : KeyMap String String} {keywords : KeySet String} {settings : Settings}
  {symbols : KeyMap String Symbol} {m : PatternNfa} {d : PatternDfa}

/-! ### Symbols in errors -/

namespace Symbol

variable {x y : Symbol} {w : List Char}

@[simp] lemma isSome_errorName? : x.errorName?.isSome = !x.isKeyword := by
  cases x <;> rfl

/-- A symbol that has words and is no keyword is one of the lexer. -/
lemma Claims.belongs (h : x.Claims vocabulary settings w) (keywords : KeySet String) {name : String}
    (hx : x.errorName? = some name) : x.Belongs vocabulary keywords := by
  cases x with
  | ignored => trivial
  | rule name =>
      obtain ⟨pattern, m, hpattern, -⟩ := h
      exact Std.ExtTreeMap.mem_iff_isSome_getElem?.2 (by rw [hpattern]; rfl)
  | keyword name => cases hx

/-- If no rule has the name of the text between tokens, the symbols in errors are told apart. -/
lemma eq_of_errorName? (hname : ignoredName ∉ vocabulary) {name : String}
    (hx : x.errorName? = some name) (hy : y.errorName? = some name)
    (hbx : x.Belongs vocabulary keywords) (hby : y.Belongs vocabulary keywords) : x = y := by
  cases x with
  | keyword => cases hx
  | ignored =>
      cases y with
      | keyword => cases hy
      | ignored => rfl
      | rule other =>
          obtain rfl : other = ignoredName := Option.some.inj (hy.trans hx.symm)
          exact absurd hby hname
  | rule first =>
      cases y with
      | keyword => cases hy
      | ignored =>
          obtain rfl : first = ignoredName := Option.some.inj (hx.trans hy.symm)
          exact absurd hbx hname
      | rule second =>
          obtain rfl : first = second := Option.some.inj (hx.trans hy.symm)
          rfl

end Symbol

/-! ### States -/

/-- The names that end in the state after a word are those of the symbols, besides keywords, that the
word belongs to. -/
lemma mem_endingIn (h : Attributes m symbols vocabulary keywords settings)
    (hd : m.IsDeterminizedBy d) {w : List Char} {q : KeySet Nat}
    (hq : d.after? d.initial w = some q) {name : String} :
    name ∈ endingIn d symbols q ↔
      ∃ x : Symbol, x.errorName? = some name ∧ x.Claims vocabulary settings w := by
  have hends : name ∈ endingIn d symbols q ↔
      ∃ tag ∈ d.tagsEnding q, ∃ x, symbols[tag]? = some x ∧ x.errorName? = some name := by
    simp [endingIn, Std.ExtTreeSet.mem_ofList, Option.bind_eq_some_iff]
  have htag : ∀ tag, tag ∈ d.tagsEnding q ↔ m.Accepts tag w := fun tag => by
    rw [hd.mem_tagsEnding q (hd.mem_states w q hq)]
    simp only [hd.statesAfter w q hq _]
    rfl
  rw [hends]
  constructor
  · rintro ⟨tag, hends, x, hx, hname⟩
    exact ⟨x, hname, (h.accepts_iff hx w).1 ((htag tag).1 hends)⟩
  · rintro ⟨x, hname, hclaims⟩
    obtain ⟨tag, hx⟩ := (h.exists_name x).2 (hclaims.belongs keywords hname)
    exact ⟨tag, (htag tag).2 ((h.accepts_iff hx w).2 hclaims), x, hx, hname⟩

/-- If symbols cannot be told apart, some word belongs to more than one of them, and the symbols of this
word are those that are told. -/
lemma clash?_eq_some (h : Attributes m symbols vocabulary keywords settings)
    (hd : m.IsDeterminizedBy d) {names : KeySet String} (hclash : clash? d symbols = some names) :
    1 < names.size ∧ ∃ w, ∀ name, name ∈ names ↔
      ∃ x : Symbol, x.errorName? = some name ∧ x.Claims vocabulary settings w := by
  obtain ⟨q, hmem, hq⟩ := List.exists_of_findSome?_eq_some hclash
  simp only [Option.ite_none_right_eq_some, Option.some.injEq] at hq
  obtain ⟨hsize, rfl⟩ := hq
  obtain ⟨w, hw⟩ := hd.exists_word q hmem
  exact ⟨hsize, w, fun name => mem_endingIn h hd hw⟩

/-- If a word belongs to two symbols that are told apart in errors, they cannot be told apart. -/
lemma exists_clash? (h : Attributes m symbols vocabulary keywords settings)
    (hd : m.IsDeterminizedBy d) {w : List Char} {x y : Symbol} {a b : String}
    (hx : x.errorName? = some a) (hy : y.errorName? = some b) (hab : a ≠ b)
    (hcx : x.Claims vocabulary settings w) (hcy : y.Claims vocabulary settings w) :
    ∃ names, clash? d symbols = some names := by
  obtain ⟨tag, htag⟩ := (h.exists_name x).2 (hcx.belongs keywords hx)
  obtain ⟨t, -, hreaches⟩ := h.exists_tag tag x htag
  obtain ⟨q, hq⟩ := (hd.reads_iff w).2 ⟨t.stop, (hreaches w).2 hcx⟩
  have hsize : 1 < (endingIn d symbols q).size :=
    KeySet.one_lt_size_iff.2 ⟨a, (mem_endingIn h hd hq).2 ⟨x, hx, hcx⟩, b,
      (mem_endingIn h hd hq).2 ⟨y, hy, hcy⟩, hab⟩
  rw [← Option.isSome_iff_exists, clash?, List.findSome?_isSome_iff]
  exact ⟨q, hd.mem_states w q hq, by simp [hsize]⟩

/-! ### Vocabularies -/

/-- A vocabulary is ambiguous exactly if its automaton cannot tell symbols apart. -/
lemma build_eq_ambiguous_iff {ps : List Part} {regex : Regex} {names : KeySet String}
    (hv : vocabularyError? vocabulary keywords = none)
    (hps : parts vocabulary keywords settings = .ok ps)
    (hregex : Regex.compile (compose ps) = .ok regex) :
    build vocabulary keywords settings = .error (.ambiguousVocabulary names) ↔
      clash? regex.dfa (symbolsOf ps) = some names := by
  rw [build_eq hv hps hregex]
  cases clash? regex.dfa (symbolsOf ps) <;> simp

/-- A vocabulary without other faults, in which no rule has the name of the text between tokens, is
ambiguous exactly if some word belongs to two symbols that are no keywords. The symbols that are then
told are all those, besides keywords, that one word belongs to. -/
theorem ambiguous_iff {ps : List Part} (hv : vocabularyError? vocabulary keywords = none)
    (hps : parts vocabulary keywords settings = .ok ps) (hname : ignoredName ∉ vocabulary) :
    ((∃ names, build vocabulary keywords settings = .error (.ambiguousVocabulary names)) ↔
      ∃ w, ∃ x y : Symbol, x ≠ y ∧ x.isKeyword = false ∧ y.isKeyword = false ∧
        x.Claims vocabulary settings w ∧ y.Claims vocabulary settings w) ∧
      ∀ names, build vocabulary keywords settings = .error (.ambiguousVocabulary names) →
        ∃ w, ∀ name, name ∈ names ↔
          ∃ x : Symbol, x.errorName? = some name ∧ x.Claims vocabulary settings w := by
  obtain ⟨regex, hregex, hattributes⟩ := exists_regex hps
  have hd := regex.isDeterminizedBy
  simp only [build_eq_ambiguous_iff hv hps hregex]
  refine ⟨⟨?_, ?_⟩, fun names hclash => (clash?_eq_some hattributes hd hclash).2⟩
  · rintro ⟨names, hclash⟩
    obtain ⟨hsize, w, hw⟩ := clash?_eq_some hattributes hd hclash
    obtain ⟨a, ha, b, hb, hab⟩ := KeySet.one_lt_size_iff.1 hsize
    obtain ⟨x, hx, hcx⟩ := (hw a).1 ha
    obtain ⟨y, hy, hcy⟩ := (hw b).1 hb
    refine ⟨w, x, y, ?_, ?_, ?_, hcx, hcy⟩
    · rintro rfl
      exact hab (Option.some.inj (hx.symm.trans hy))
    · simpa [hx] using x.isSome_errorName?
    · simpa [hy] using y.isSome_errorName?
  · rintro ⟨w, x, y, hxy, hx, hy, hcx, hcy⟩
    obtain ⟨a, ha⟩ := Option.isSome_iff_exists.1 (x.isSome_errorName?.trans (by rw [hx]; rfl))
    obtain ⟨b, hb⟩ := Option.isSome_iff_exists.1 (y.isSome_errorName?.trans (by rw [hy]; rfl))
    refine exists_clash? hattributes hd ha hb ?_ hcx hcy
    rintro rfl
    exact hxy (Symbol.eq_of_errorName? hname ha hb (hcx.belongs keywords ha)
      (hcy.belongs keywords hb))

/-- A rule and the text between tokens that both have the word `a` are ambiguous. -/
theorem ambiguous_of_ignored_letter :
    ∃ names w, build (.ofList [("word", "[a-z]+")]) (.ofList ["if"]) ⟨"[ a]", "<EOF>"⟩ =
        .error (.ambiguousVocabulary names) ∧
      ∀ name, name ∈ names ↔ ∃ x : Symbol, x.errorName? = some name ∧
        x.Claims (.ofList [("word", "[a-z]+")]) ⟨"[ a]", "<EOF>"⟩ w := by
  have hword : Pattern.parse "[a-z]+" = .ok (.single (Pattern.Sequence.empty.append
    (.charClass [.range (.plain 'a') (.plain 'z')]) .oneOrMore)) := rfl
  have hignored : Pattern.parse "[ a]" = .ok (.single (Pattern.Sequence.empty.append
    (.charClass [.literal (.plain ' '), .literal (.plain 'a')]) .once)) := rfl
  obtain ⟨m, -, hm, -, haccepts⟩ := Pattern.exists_ofPattern hword
  obtain ⟨m', -, hm', -, haccepts'⟩ := Pattern.exists_ofPattern hignored
  have hv : vocabularyError? (.ofList [("word", "[a-z]+")]) (.ofList ["if"]) = none :=
    Option.isNone_iff_eq_none.1 (by decide +kernel)
  have hparts : ∃ ps, parts (.ofList [("word", "[a-z]+")]) (.ofList ["if"]) ⟨"[ a]", "<EOF>"⟩ =
      .ok ps :=
    exists_parts _ ⟨m', hm'⟩ (exists_nfa_of_rule ⟨m, hm⟩)
  obtain ⟨ps, hps⟩ := hparts
  have hletter : Pattern.Denotes (.single (Pattern.Sequence.empty.append
      (.charClass [.range (.plain 'a') (.plain 'z')]) .oneOrMore)) ['a'] :=
    ⟨[], ['a'], rfl, rfl, ['a'], [], rfl, ⟨_, .head _, 'a', by decide, rfl⟩, .nil⟩
  have hblank : Pattern.Denotes (.single (Pattern.Sequence.empty.append
      (.charClass [.literal (.plain ' '), .literal (.plain 'a')]) .once)) ['a'] :=
    ⟨[], ['a'], rfl, rfl, _, .tail _ (.head _), rfl⟩
  have hrule : (Symbol.rule "word").Claims (.ofList [("word", "[a-z]+")]) ⟨"[ a]", "<EOF>"⟩ ['a'] :=
    ⟨_, m, by simp, hm, (haccepts _).2 (Pattern.language_le_threaded _ hletter)⟩
  have hbetween : Symbol.ignored.Claims (.ofList [("word", "[a-z]+")]) ⟨"[ a]", "<EOF>"⟩ ['a'] :=
    ⟨m', hm', (haccepts' _).2 (Pattern.language_le_threaded _ hblank)⟩
  obtain ⟨hiff, htold⟩ := ambiguous_iff hv hps (by simp [ignoredName])
  obtain ⟨names, hnames⟩ := hiff.2
    ⟨['a'], .rule "word", .ignored, by decide, rfl, rfl, hrule, hbetween⟩
  obtain ⟨w, hw⟩ := htold names hnames
  exact ⟨names, w, hnames, hw⟩

end Lexer

end CaptureAutomata
