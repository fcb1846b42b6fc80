/-
One pattern for all symbols of a lexer:

* `Lexer.Symbol.Belongs`, `Lexer.Symbol.Claims`: the symbols of a lexer, and the words of a symbol;
* `Lexer.Part.IsSound`: the pattern of a part has a tree with as many groups as the part tells;
* `Lexer.mem_numbered`, `Lexer.getElem?_symbolsOf`: the number of a part counts the groups before it,
  and no two parts have the same number;
* `Lexer.exists_compile_compose`: sound parts are compiled together;
* `Lexer.tags_of_symbols`: in the automaton for all symbols each of them has one tag, whose end is
  reached by the words of the symbol.
-/
import CaptureAutomata.Lexer.Basic
import CaptureAutomata.Proofs.Pattern.Enclosing
import CaptureAutomata.Proofs.Regex.Escaping
import CaptureAutomata.Proofs.Regex.Search

namespace CaptureAutomata

namespace Lexer

variable {vocabulary : KeyMap String String} {keywords : KeySet String} {settings : Settings}

/-! ### Symbols and their words -/

namespace Symbol

/-- The symbol is the text between tokens, a rule of the vocabulary or one of the keywords. -/
def Belongs (vocabulary : KeyMap String String) (keywords : KeySet String) : Symbol → Prop
  | ignored => True
  | rule name => name ∈ vocabulary
  | keyword name => name ∈ keywords

/-- The word is one of the symbol: the automaton of the symbol's own pattern accepts it. A keyword has
no pattern, and no word but itself. -/
def Claims (vocabulary : KeyMap String String) (settings : Settings) (w : List Char) : Symbol → Prop
  | ignored => ∃ m, Nfa.ofPattern settings.ignore = .ok m ∧ m.Accepts mainGroup w
  | rule name => ∃ pattern m, vocabulary[name]? = some pattern ∧ Nfa.ofPattern pattern = .ok m ∧
      m.Accepts mainGroup w
  | keyword name => w = name.toList

end Symbol

/-! ### Parts -/

namespace Part

/-- The tree of a part's pattern, which is empty if the pattern cannot be read. -/
def tree (p : Part) : Pattern :=
  match Pattern.parse p.pattern with
  | .ok tree => tree
  | .error _ => .single .empty

/-- The pattern of a part is written as its tree, and has as many groups as the part tells. -/
structure IsSound (p : Part) : Prop where
  /-- The tree is written in the grammar of patterns. -/
  wellFormed : p.tree.WellFormed
  /-- The pattern is written so. -/
  pattern_eq : p.pattern = String.ofList p.tree.text
  /-- The number of groups is right. -/
  groups_eq : p.groups = p.tree.groups

/-- A part is sound if its pattern has an automaton, which accepts the words that are read on the way
through the tree. -/
lemma isSound_of_ofPattern {symbol : Symbol} {pattern : String} {m : PatternNfa}
    (h : Nfa.ofPattern pattern = .ok m) :
    IsSound ⟨symbol, pattern, m.tags.length - 1⟩ ∧
      ∀ w, w ∈ (Part.mk symbol pattern (m.tags.length - 1)).tree.threaded ↔
        m.Accepts mainGroup w := by
  obtain ⟨q, hq, hbuild⟩ := Pattern.exists_of_ofPattern h
  have hwf := Pattern.wellFormed_of_parse hq
  have htree : (Part.mk symbol pattern (m.tags.length - 1)).tree = q := by
    rw [tree, hq]
  have htags := (Pattern.isLaidOutAs_of_toNfa hwf hbuild).tags_eq
  refine ⟨⟨htree ▸ hwf, ?_, ?_⟩, fun w => ?_⟩
  · rw [htree, Pattern.text_of_parse hq, String.ofList_toList]
  · rw [htree]
    show m.tags.length - 1 = _
    rw [htags, List.length_append, Pattern.length_tags]
    rfl
  · obtain ⟨m', stop, hm', -, haccepts⟩ := Pattern.exists_ofPattern hq
    obtain rfl := Except.ok.inj (h.symm.trans hm')
    rw [htree, haccepts]

lemma tree_ofKeyword (name : String) : (ofKeyword name).tree = .ofChars name.toList := by
  by_cases hne : name = ""
  · subst hne
    rfl
  · rw [tree, ofKeyword, Pattern.parse_escape hne]

/-- The part of a keyword is sound. -/
lemma isSound_ofKeyword (name : String) : (ofKeyword name).IsSound := by
  refine ⟨?_, ?_, ?_⟩
  · rw [tree_ofKeyword]
    exact Pattern.wellFormed_ofChars _
  · rw [tree_ofKeyword, Pattern.text_ofChars, String.ofList_toList]
    rfl
  · rw [tree_ofKeyword, Pattern.groups_ofChars]
    rfl

/-- A part is made of a pattern that has an automaton. -/
lemma ofPattern_eq_ok {symbol : Symbol} {name pattern : String} {p : Part} :
    Part.ofPattern symbol name pattern = .ok p ↔
      ∃ m, Nfa.ofPattern pattern = .ok m ∧ p = ⟨symbol, pattern, m.tags.length - 1⟩ := by
  rw [Part.ofPattern]
  split
  next m hm => simp [hm, eq_comm]
  next c hc => simp [hc]
  next e he => simp [he]

end Part

/-! ### Numbers -/

/-- A part is numbered by the groups before it, those around the parts included. -/
lemma mem_numbered {ps : List Part} (hps : ∀ p ∈ ps, p.IsSound) {number k : Nat} {symbol : Symbol} :
    (k, symbol) ∈ numbered number ps ↔ ∃ before p after, ps = before ++ p :: after ∧
      symbol = p.symbol ∧ k = number + Pattern.groupsAround (before.map Part.tree) := by
  induction ps generalizing number with
  | nil => simp [numbered]
  | cons q ps ih =>
      obtain ⟨hq, hrest⟩ := List.forall_mem_cons.1 hps
      have hnext : ∀ before : List Part, number + Pattern.groupsAround ((q :: before).map Part.tree) =
          number + 1 + q.groups + Pattern.groupsAround (before.map Part.tree) := fun before => by
        rw [List.map_cons, Pattern.groupsAround_cons, hq.groups_eq]
        omega
      rw [numbered, List.mem_cons, ih hrest]
      constructor
      · rintro (heq | ⟨before, p, after, rfl, hsymbol, rfl⟩)
        · obtain ⟨rfl, rfl⟩ := Prod.mk.inj heq
          exact ⟨[], q, ps, rfl, rfl, rfl⟩
        · exact ⟨q :: before, p, after, rfl, hsymbol, (hnext before).symm⟩
      · rintro ⟨_ | ⟨b, before⟩, p, after, hsplit, rfl, rfl⟩
        · obtain ⟨rfl, rfl⟩ := List.cons.inj hsplit
          exact Or.inl rfl
        · obtain ⟨rfl, rfl⟩ := List.cons.inj hsplit
          exact Or.inr ⟨before, p, after, rfl, rfl, hnext before⟩

/-- The numbers of parts ascend. -/
lemma pairwise_numbered (number : Nat) (ps : List Part) :
    (∀ x ∈ numbered number ps, number ≤ x.1) ∧
      (numbered number ps).Pairwise fun x y => x.1 < y.1 := by
  induction ps generalizing number with
  | nil => simp [numbered]
  | cons p ps ih =>
      obtain ⟨hle, hlt⟩ := ih (number + 1 + p.groups)
      refine ⟨?_, List.pairwise_cons.2 ⟨fun x hx => ?_, hlt⟩⟩
      · rintro x (_ | ⟨_, hx⟩)
        · exact le_rfl
        · have := hle x hx
          omega
      · have := hle x hx
        show number < x.1
        omega

/-- The symbols are found under the numbers of their parts. -/
lemma getElem?_symbolsOf {ps : List Part} {name : String} {symbol : Symbol} :
    (symbolsOf ps)[name]? = some symbol ↔
      ∃ k, (k, symbol) ∈ numbered 1 ps ∧ name = toString k := by
  -- numbers ascend and are written differently, so no part takes the name of another
  have hdistinct : ((numbered 1 ps).map fun p => (toString p.1, p.2)).Pairwise
      fun a b => ¬ compare a.1 b.1 = .eq := by
    refine List.pairwise_map.2 ((pairwise_numbered 1 ps).2.imp fun hlt heq => ?_)
    have hsame := Nat.repr_injective (Key.compare_eq_iff.1 heq)
    omega
  have hfound : ∀ {k s}, (k, s) ∈ numbered 1 ps → (symbolsOf ps)[toString k]? = some s :=
    fun hmem => Std.ExtTreeMap.getElem?_ofList_of_mem (Key.compare_eq_iff.2 rfl) hdistinct
      (List.mem_map.2 ⟨_, hmem, rfl⟩)
  constructor
  · intro hname
    have hmem : name ∈ symbolsOf ps := by
      rw [Std.ExtTreeMap.mem_iff_isSome_getElem?, hname]
      rfl
    obtain ⟨x, hx, rfl⟩ := List.mem_map.1 (List.contains_iff_mem.1 (Std.ExtTreeMap.mem_ofList.1 hmem))
    obtain ⟨⟨k, s⟩, hk, rfl⟩ := List.mem_map.1 hx
    obtain rfl := Option.some.inj ((hfound hk).symm.trans hname)
    exact ⟨k, hk, rfl⟩
  · rintro ⟨k, hk, rfl⟩
    exact hfound hk

/-! ### Parts together -/

/-- Some pattern encloses all parts, if there are any. -/
lemma exists_encloses {ps : List Part} (hne : ps ≠ []) :
    ∃ q : Pattern, q.Encloses (ps.map Part.tree) := by
  obtain ⟨p, ps, rfl⟩ := List.exists_cons_of_ne_nil hne
  exact (Pattern.Encloses.single p.tree).append (ps.map Part.tree)

/-- Sound parts are written as a pattern that encloses them, and read as it. -/
lemma parse_compose {ps : List Part} {q : Pattern} (hq : q.Encloses (ps.map Part.tree))
    (hps : ∀ p ∈ ps, p.IsSound) : Pattern.parse (compose ps) = .ok q := by
  have htext : String.ofList q.text = compose ps := by
    rw [hq.text_eq, compose, List.map_map]
    congr 1
    refine List.map_congr_left fun p hp => ?_
    rw [(hps p hp).pattern_eq]
    rfl
  have hwf : q.WellFormed :=
    hq.wellFormed (List.forall_mem_map.2 fun p hp => (hps p hp).wellFormed)
  rw [← htext]
  exact Pattern.parse_of_wellFormed hwf String.toList_ofList.symm
    fun hempty => hq.text_ne_nil (by simpa using hempty)

/-- Sound parts are compiled together. The name of a symbol belongs to one tag alone, whose end is
reached by the words of a part of this symbol. -/
lemma exists_compile_compose {ps : List Part} (hne : ps ≠ []) (hps : ∀ p ∈ ps, p.IsSound) :
    ∃ regex, Regex.compile (compose ps) = .ok regex ∧
      ∀ (name : String) symbol, (symbolsOf ps)[name]? = some symbol → ∃ p ∈ ps, p.symbol = symbol ∧
        ∃ t, regex.nfa.tags.filter (fun t => t.name = name) = [t] ∧
          ∀ w, regex.nfa.Reaches w t.stop ↔ w ∈ p.tree.threaded := by
  obtain ⟨q, hq⟩ := exists_encloses hne
  obtain ⟨m, hm, htags⟩ :=
    hq.exists_toNfa (List.forall_mem_map.2 fun p hp => (hps p hp).wellFormed)
  have hnfa : Nfa.ofPattern (compose ps) = .ok m := by
    rw [Nfa.ofPattern, parse_compose hq hps]
    exact mapError_eq_ok.2 hm
  obtain ⟨regex, hregex, rfl⟩ := Regex.exists_compile hnfa Regex.defaultSentinel
  refine ⟨regex, hregex, fun name symbol hname => ?_⟩
  obtain ⟨k, hk, rfl⟩ := getElem?_symbolsOf.1 hname
  obtain ⟨before, p, after, rfl, rfl, rfl⟩ := (mem_numbered hps).1 hk
  exact ⟨p, by simp, rfl, htags _ p.tree (after.map Part.tree) (by simp)⟩

/-- Every symbol of a part has a name. -/
lemma exists_name_iff {ps : List Part} (hps : ∀ p ∈ ps, p.IsSound) {symbol : Symbol} :
    (∃ name : String, (symbolsOf ps)[name]? = some symbol) ↔ ∃ p ∈ ps, p.symbol = symbol := by
  constructor
  · rintro ⟨name, hname⟩
    obtain ⟨k, hk, rfl⟩ := getElem?_symbolsOf.1 hname
    obtain ⟨before, p, after, rfl, rfl, rfl⟩ := (mem_numbered hps).1 hk
    exact ⟨p, by simp, rfl⟩
  · rintro ⟨p, hp, rfl⟩
    obtain ⟨before, after, rfl⟩ := List.append_of_mem hp
    exact ⟨_, getElem?_symbolsOf.2 ⟨_, (mem_numbered hps).2 ⟨before, p, after, rfl, rfl, rfl⟩, rfl⟩⟩

/-! ### The parts of a lexer -/

/-- The parts of a lexer can be made if each pattern has an automaton. -/
lemma exists_parts (keywords : KeySet String)
    (hignore : ∃ m, Nfa.ofPattern settings.ignore = .ok m)
    (hrules : ∀ name pattern : String, vocabulary[name]? = some pattern →
      ∃ m, Nfa.ofPattern pattern = .ok m) :
    ∃ ps, parts vocabulary keywords settings = .ok ps := by
  obtain ⟨m, hm⟩ := hignore
  obtain ⟨rules, hmapM⟩ : ∃ rules,
      vocabulary.toList.mapM (fun p => Part.ofPattern (.rule p.1) p.1 p.2) = .ok rules :=
    exists_mapM fun x hx => by
      obtain ⟨m, hm⟩ := hrules x.1 x.2 (Std.ExtTreeMap.mem_toList_iff_getElem?_eq_some.1 hx)
      exact ⟨_, Part.ofPattern_eq_ok.2 ⟨m, hm, rfl⟩⟩
  refine ⟨_, bind_eq_ok.2 ⟨_, Part.ofPattern_eq_ok.2 ⟨m, hm, rfl⟩, bind_eq_ok.2 ⟨rules, hmapM, rfl⟩⟩⟩

/-- If the parts of a lexer can be made, each pattern has an automaton. -/
lemma exists_nfa_of_parts {ps : List Part} (h : parts vocabulary keywords settings = .ok ps) :
    (∃ m, Nfa.ofPattern settings.ignore = .ok m) ∧
      ∀ name pattern : String, vocabulary[name]? = some pattern →
        ∃ m, Nfa.ofPattern pattern = .ok m := by
  obtain ⟨ignored, hignored, h⟩ := bind_eq_ok.1 h
  obtain ⟨rules, hrules, h⟩ := bind_eq_ok.1 h
  obtain ⟨m, hm, -⟩ := Part.ofPattern_eq_ok.1 hignored
  refine ⟨⟨m, hm⟩, fun name pattern hpattern => ?_⟩
  obtain ⟨p, -, hp⟩ := exists_mem_of_mapM hrules (name, pattern)
    (Std.ExtTreeMap.mem_toList_iff_getElem?_eq_some.2 hpattern)
  obtain ⟨m, hm, -⟩ := Part.ofPattern_eq_ok.1 hp
  exact ⟨m, hm⟩

/-- The parts of a lexer are made from the pattern between tokens, the rules and the keywords. -/
lemma mem_parts_iff {ps : List Part} (h : parts vocabulary keywords settings = .ok ps) {p : Part} :
    p ∈ ps ↔
      (∃ m, Nfa.ofPattern settings.ignore = .ok m ∧
        p = ⟨.ignored, settings.ignore, m.tags.length - 1⟩) ∨
      (∃ name pattern m, vocabulary[name]? = some pattern ∧ Nfa.ofPattern pattern = .ok m ∧
        p = ⟨.rule name, pattern, m.tags.length - 1⟩) ∨
      ∃ name ∈ keywords, p = .ofKeyword name := by
  obtain ⟨ignored, hignored, h⟩ := bind_eq_ok.1 h
  obtain ⟨rules, hrules, h⟩ := bind_eq_ok.1 h
  cases h
  have hrule : p ∈ rules ↔ ∃ name pattern m, vocabulary[name]? = some pattern ∧
      Nfa.ofPattern pattern = .ok m ∧ p = ⟨.rule name, pattern, m.tags.length - 1⟩ := by
    constructor
    · intro hp
      obtain ⟨x, hx, hpart⟩ := exists_of_mem_mapM hrules p hp
      obtain ⟨m, hm, rfl⟩ := Part.ofPattern_eq_ok.1 hpart
      exact ⟨x.1, x.2, m, Std.ExtTreeMap.mem_toList_iff_getElem?_eq_some.1 hx, hm, rfl⟩
    · rintro ⟨name, pattern, m, hpattern, hm, rfl⟩
      obtain ⟨p, hp, hpart⟩ := exists_mem_of_mapM hrules (name, pattern)
        (Std.ExtTreeMap.mem_toList_iff_getElem?_eq_some.2 hpattern)
      obtain rfl := Except.ok.inj ((Part.ofPattern_eq_ok.2 ⟨m, hm, rfl⟩).symm.trans hpart)
      exact hp
  have hkeyword : p ∈ keywords.toList.map Part.ofKeyword ↔
      ∃ name ∈ keywords, p = .ofKeyword name := by
    simp only [List.mem_map, Std.ExtTreeSet.mem_toList, eq_comm]
  obtain ⟨m, hm, rfl⟩ := Part.ofPattern_eq_ok.1 hignored
  rw [List.cons_append, List.mem_cons, List.mem_append, hrule, hkeyword]
  refine or_congr_left ⟨fun hp => ⟨m, hm, hp⟩, ?_⟩
  rintro ⟨m', hm', rfl⟩
  obtain rfl := Except.ok.inj (hm.symm.trans hm')
  rfl

/-- The parts that are made for a lexer are sound. -/
lemma isSound_of_mem {ps : List Part} (h : parts vocabulary keywords settings = .ok ps) {p : Part}
    (hp : p ∈ ps) : p.IsSound := by
  rcases (mem_parts_iff h).1 hp with ⟨m, hm, rfl⟩ | ⟨name, pattern, m, -, hm, rfl⟩ | ⟨name, -, rfl⟩
  · exact (Part.isSound_of_ofPattern hm).1
  · exact (Part.isSound_of_ofPattern hm).1
  · exact Part.isSound_ofKeyword name

/-- The words that are read on the way through the tree of a part are those of its symbol. -/
lemma mem_threaded_iff {ps : List Part} (h : parts vocabulary keywords settings = .ok ps) {p : Part}
    (hp : p ∈ ps) (w : List Char) :
    w ∈ p.tree.threaded ↔ p.symbol.Claims vocabulary settings w := by
  rcases (mem_parts_iff h).1 hp with ⟨m, hm, rfl⟩ | ⟨name, pattern, m, hpattern, hm, rfl⟩ |
    ⟨name, -, rfl⟩
  · rw [(Part.isSound_of_ofPattern hm).2]
    constructor
    · exact fun hw => ⟨m, hm, hw⟩
    · rintro ⟨m', hm', hw⟩
      exact Except.ok.inj (hm'.symm.trans hm) ▸ hw
  · rw [(Part.isSound_of_ofPattern hm).2]
    constructor
    · exact fun hw => ⟨pattern, m, hpattern, hm, hw⟩
    · rintro ⟨pattern', m', hpattern', hm', hw⟩
      obtain rfl := Option.some.inj (hpattern'.symm.trans hpattern)
      exact Except.ok.inj (hm'.symm.trans hm) ▸ hw
  · rw [Part.tree_ofKeyword, Pattern.threaded_ofChars]
    rfl

/-- The symbols of the parts are those of the lexer. -/
lemma exists_part_iff {ps : List Part} (h : parts vocabulary keywords settings = .ok ps)
    {symbol : Symbol} :
    (∃ p ∈ ps, p.symbol = symbol) ↔ symbol.Belongs vocabulary keywords := by
  obtain ⟨⟨m, hm⟩, hrules⟩ := exists_nfa_of_parts h
  constructor
  · rintro ⟨p, hp, rfl⟩
    rcases (mem_parts_iff h).1 hp with ⟨m, -, rfl⟩ | ⟨name, pattern, m, hpattern, -, rfl⟩ |
      ⟨name, hname, rfl⟩
    · trivial
    · exact Std.ExtTreeMap.mem_iff_isSome_getElem?.2 (by rw [hpattern]; rfl)
    · exact hname
  · intro hsymbol
    cases symbol with
    | ignored => exact ⟨_, (mem_parts_iff h).2 (Or.inl ⟨m, hm, rfl⟩), rfl⟩
    | rule name =>
        obtain ⟨pattern, hpattern⟩ :=
          Option.isSome_iff_exists.1 (Std.ExtTreeMap.mem_iff_isSome_getElem?.1 hsymbol)
        obtain ⟨m, hm⟩ := hrules name pattern hpattern
        exact ⟨_, (mem_parts_iff h).2 (Or.inr (Or.inl ⟨name, pattern, m, hpattern, hm, rfl⟩)), rfl⟩
    | keyword name => exact ⟨_, (mem_parts_iff h).2 (Or.inr (Or.inr ⟨name, hsymbol, rfl⟩)), rfl⟩

/-- The only rule of a vocabulary has an automaton if its pattern does. -/
lemma exists_nfa_of_rule {name pattern : String} (h : ∃ m, Nfa.ofPattern pattern = .ok m)
    (other text : String) (hother : (.ofList [(name, pattern)] : KeyMap String String)[other]? = some text) :
    ∃ m, Nfa.ofPattern text = .ok m := by
  rw [Std.ExtTreeMap.ofList_singleton, Std.ExtTreeMap.getElem?_insert] at hother
  split at hother
  next =>
    cases hother
    exact h
  next => simp at hother

/-! ### Lexers -/

/-- The names of symbols are names of tags, one for each, and the ends of these tags are reached by the
words of the symbols. -/
structure Attributes (m : PatternNfa) (symbols : KeyMap String Symbol)
    (vocabulary : KeyMap String String) (keywords : KeySet String) (settings : Settings) : Prop where
  /-- All symbols have names. -/
  exists_name : ∀ symbol : Symbol,
    (∃ name : String, symbols[name]? = some symbol) ↔ symbol.Belongs vocabulary keywords
  /-- Names are names of tags. -/
  exists_tag : ∀ (name : String) symbol, symbols[name]? = some symbol →
    ∃ t, m.tags.filter (fun t => t.name = name) = [t] ∧
      ∀ w, m.Reaches w t.stop ↔ symbol.Claims vocabulary settings w

/-- The tag of a symbol is the only one of its name. -/
lemma Attributes.exists_tag_iff {m : PatternNfa} {symbols : KeyMap String Symbol}
    (h : Attributes m symbols vocabulary keywords settings) {name : String} {symbol : Symbol}
    (hname : symbols[name]? = some symbol) :
    ∃ t, (∀ t', t' ∈ m.tags ∧ t'.name = name ↔ t' = t) ∧
      ∀ w, m.Reaches w t.stop ↔ symbol.Claims vocabulary settings w := by
  obtain ⟨t, ht, hreaches⟩ := h.exists_tag name symbol hname
  refine ⟨t, fun t' => ?_, hreaches⟩
  have hmem : t' ∈ m.tags.filter (fun t => t.name = name) ↔ t' ∈ m.tags ∧ t'.name = name := by
    rw [List.mem_filter, decide_eq_true_eq]
  rw [← hmem, ht, List.mem_singleton]

/-- Under the name of a symbol, its words are accepted. -/
lemma Attributes.accepts_iff {m : PatternNfa} {symbols : KeyMap String Symbol}
    (h : Attributes m symbols vocabulary keywords settings) {name : String} {symbol : Symbol}
    (hname : symbols[name]? = some symbol) (w : List Char) :
    m.Accepts name w ↔ symbol.Claims vocabulary settings w := by
  obtain ⟨t, htag, hreaches⟩ := h.exists_tag_iff hname
  rw [← hreaches]
  constructor
  · rintro ⟨t', ht', hn, hr⟩
    exact (htag t').1 ⟨ht', hn⟩ ▸ hr
  · intro hr
    obtain ⟨ht, hn⟩ := (htag t).2 rfl
    exact ⟨t, ht, hn, hr⟩

/-- If the parts of a lexer can be made, then they are compiled to an automaton that tells the words of
all symbols. -/
lemma exists_regex {ps : List Part} (h : parts vocabulary keywords settings = .ok ps) :
    ∃ regex, Regex.compile (compose ps) = .ok regex ∧
      Attributes regex.nfa (symbolsOf ps) vocabulary keywords settings := by
  obtain ⟨⟨m, hm⟩, -⟩ := exists_nfa_of_parts h
  have hne : ps ≠ [] := List.ne_nil_of_mem ((mem_parts_iff h).2 (Or.inl ⟨m, hm, rfl⟩))
  have hsound : ∀ p ∈ ps, p.IsSound := fun p hp => isSound_of_mem h hp
  obtain ⟨regex, hregex, htags⟩ := exists_compile_compose hne hsound
  refine ⟨regex, hregex, fun symbol => ?_, fun name symbol hname => ?_⟩
  · rw [exists_name_iff hsound, exists_part_iff h]
  · obtain ⟨p, hp, rfl, t, ht, hreaches⟩ := htags name symbol hname
    exact ⟨t, ht, fun w => (hreaches w).trans (mem_threaded_iff h hp w)⟩

/-- What is wrong with a vocabulary never is that its automaton cannot be built. -/
lemma vocabularyError?_ne_regex (e : PatternError) :
    vocabularyError? vocabulary keywords ≠ some (.regex e) := by
  rw [vocabularyError?]
  split
  next => simp
  next =>
    split
    next => simp
    next => simp

/-- A lexer whose vocabulary can be read is built, unless its automaton cannot tell symbols apart. -/
lemma build_eq {ps : List Part} {regex : Regex} (hv : vocabularyError? vocabulary keywords = none)
    (hps : parts vocabulary keywords settings = .ok ps)
    (hregex : Regex.compile (compose ps) = .ok regex) :
    build vocabulary keywords settings =
      match clash? regex.dfa (symbolsOf ps) with
      | some names => .error (.ambiguousVocabulary names)
      | none => .ok ⟨regex, settings, vocabulary, keywords, symbolsOf ps⟩ := by
  rw [build, hv]
  show parts vocabulary keywords settings >>= _ = _
  rw [hps]
  show (Regex.compile (compose ps)).mapError LexerError.regex >>= _ = _
  rw [hregex]
  rfl

/-- If all patterns can be compiled alone, the lexer's patterns can be compiled together, and no lexer
fails for this reason. The symbols then are the text between tokens, the rules and the keywords. In the
automaton for all of them the name of a symbol is that of one tag, and the words that reach its end are
those that the automaton of the symbol's own pattern accepts, and for a keyword only itself. -/
theorem tags_of_symbols (keywords : KeySet String)
    (hignore : ∃ m, Nfa.ofPattern settings.ignore = .ok m)
    (hrules : ∀ name pattern : String, vocabulary[name]? = some pattern →
      ∃ m, Nfa.ofPattern pattern = .ok m) :
    ∃ ps regex, parts vocabulary keywords settings = .ok ps ∧
      Regex.compile (compose ps) = .ok regex ∧
      (∀ e, build vocabulary keywords settings ≠ .error (.regex e)) ∧
      (∀ lexer, build vocabulary keywords settings = .ok lexer →
        lexer.regex = regex ∧ lexer.symbols = symbolsOf ps) ∧
      (∀ symbol : Symbol, (∃ name : String, (symbolsOf ps)[name]? = some symbol) ↔
        symbol.Belongs vocabulary keywords) ∧
      ∀ (name : String) symbol, (symbolsOf ps)[name]? = some symbol →
        ∃ t, regex.nfa.tags.filter (fun t => t.name = name) = [t] ∧
          ∀ w, regex.nfa.Reaches w t.stop ↔ symbol.Claims vocabulary settings w := by
  obtain ⟨ps, hps⟩ := exists_parts keywords hignore hrules
  obtain ⟨regex, hregex, hattributes⟩ := exists_regex hps
  refine ⟨ps, regex, hps, hregex, fun e he => ?_, fun lexer hlexer => ?_,
    hattributes.exists_name, hattributes.exists_tag⟩
  · cases hv : vocabularyError? vocabulary keywords with
    | none =>
        rw [build_eq hv hps hregex] at he
        split at he <;> cases he
    | some e' =>
        rw [build, hv] at he
        cases he
        exact vocabularyError?_ne_regex e hv
  · cases hv : vocabularyError? vocabulary keywords with
    | none =>
        rw [build_eq hv hps hregex] at hlexer
        split at hlexer
        next => cases hlexer
        next =>
          cases hlexer
          exact ⟨rfl, rfl⟩
    | some e =>
        rw [build, hv] at hlexer
        cases hlexer

/-- Behind a rule that has two groups of its own, one with a name and one without, the keyword `if` has
a tag whose end is reached by `if` and no other word. -/
theorem tags_of_symbols_of_groups :
    ∃ ps regex name t,
      parts (.ofList [("word", "(?<first>[a-z])([a-z])*")]) (.ofList ["if"]) {} = .ok ps ∧
      Regex.compile (compose ps) = .ok regex ∧ (symbolsOf ps)[name]? = some (.keyword "if") ∧
      regex.nfa.tags.filter (fun t => t.name = name) = [t] ∧
      ∀ w, regex.nfa.Reaches w t.stop ↔ w = ['i', 'f'] := by
  have hignore : ∃ m, Nfa.ofPattern ({} : Settings).ignore = .ok m :=
    Pattern.exists_nfa_of_parse ⟨_, rfl⟩
  have hrule : ∃ m, Nfa.ofPattern "(?<first>[a-z])([a-z])*" = .ok m :=
    Pattern.exists_nfa_of_parse ⟨_, rfl⟩
  obtain ⟨ps, regex, hps, hregex, -, -, hnames, htags⟩ :=
    tags_of_symbols (.ofList ["if"]) hignore (exists_nfa_of_rule hrule)
  obtain ⟨name, hname⟩ := (hnames (.keyword "if")).2 (by simp [Symbol.Belongs])
  obtain ⟨t, ht, hreaches⟩ := htags name _ hname
  exact ⟨ps, regex, name, t, hps, hregex, hname, ht, hreaches⟩

end Lexer

end CaptureAutomata
