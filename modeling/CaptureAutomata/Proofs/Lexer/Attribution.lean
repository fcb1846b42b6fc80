/-
The symbol of a match:

* `Lexer.Spells`: the automaton of a lexer accepts the words of the symbols, each under the name of
  its symbol;
* `Lexer.group?_eq_span_iff`: the group of a symbol spans a match exactly if the text is one of the
  symbol's words;
* `Lexer.token_of_match`: every match makes a token of a symbol that its text belongs to, a keyword if
  it is one.
-/
import CaptureAutomata.Lexer.Token
import CaptureAutomata.Proofs.Lexer.Ambiguity
import CaptureAutomata.Proofs.Pattern.SideBySide
import CaptureAutomata.Proofs.Regex.Iterations
import CaptureAutomata.Proofs.Regex.Substring

namespace CaptureAutomata

/-! ### The words of a lexer -/

namespace Lexer

variable {vocabulary : KeyMap String String} {keywords : KeySet String} {settings : Settings}
  {symbols : KeyMap String Symbol} {m : PatternNfa}

/-- An automaton that tells the words of all symbols, and accepts nothing else. Every symbol starts
where nothing has been read. -/
structure Spells (m : PatternNfa) (symbols : KeyMap String Symbol) (vocabulary : KeyMap String String)
    (keywords : KeySet String) (settings : Settings) : Prop
    extends Attributes m symbols vocabulary keywords settings where
  /-- The accepted words are those of the symbols. -/
  accepts_main_iff : ∀ w, m.Accepts mainGroup w ↔
    ∃ symbol : Symbol, symbol.Belongs vocabulary keywords ∧ symbol.Claims vocabulary settings w
  /-- No symbol has the name of the main group. -/
  name_ne : ∀ (name : String) symbol, symbols[name]? = some symbol → name ≠ mainGroup
  /-- Symbols start where nothing has been read. -/
  starts_iff : ∀ (name : String) symbol, symbols[name]? = some symbol → ∀ w,
    (∃ t ∈ m.tags, t.name = name ∧ m.Reaches w t.start) ↔ w = []

/-- The parts of a lexer are read as a pattern that encloses them. -/
lemma exists_encloses_of_parts {ps : List Part} (h : parts vocabulary keywords settings = .ok ps) :
    ∃ q : Pattern, q.Encloses (ps.map Part.tree) ∧ Pattern.parse (compose ps) = .ok q := by
  have hne : ps ≠ [] := by
    obtain ⟨p, hp, -⟩ := (exists_part_iff h).2
      (show Symbol.ignored.Belongs vocabulary keywords from trivial)
    exact List.ne_nil_of_mem hp
  obtain ⟨q, hq⟩ := exists_encloses hne
  exact ⟨q, hq, parse_compose hq fun p hp => isSound_of_mem h hp⟩

/-- If the parts of a lexer can be made, then they are compiled to an automaton that tells the words
of all symbols, and accepts nothing else. -/
lemma exists_spells {ps : List Part} (h : parts vocabulary keywords settings = .ok ps) :
    ∃ regex, Regex.compile (compose ps) = .ok regex ∧
      Spells regex.nfa (symbolsOf ps) vocabulary keywords settings := by
  obtain ⟨regex, hregex, hattributes⟩ := exists_regex h
  have hsound : ∀ p ∈ ps, p.IsSound := fun p hp => isSound_of_mem h hp
  obtain ⟨q, hq, hparse⟩ := exists_encloses_of_parts h
  have hpattern := Regex.pattern_of_compile hregex
  have hm : regex.nfa.IsLaidOutAs q := Regex.isLaidOutAs (hpattern.symm ▸ hparse)
  refine ⟨regex, hregex, hattributes, fun w => ?_, fun name symbol hname => ?_,
    fun name symbol hname w => ?_⟩
  · obtain ⟨m, stop, hnfa, -, haccepts⟩ := Pattern.exists_ofPattern hparse
    have hregex_nfa := regex.nfa_eq
    rw [hpattern, hnfa] at hregex_nfa
    obtain rfl := Except.ok.inj hregex_nfa
    rw [haccepts, hq.mem_threaded_iff]
    constructor
    · rintro ⟨_, hbody, hw⟩
      obtain ⟨p, hp, rfl⟩ := List.mem_map.1 hbody
      exact ⟨p.symbol, (exists_part_iff h).1 ⟨p, hp, rfl⟩, (mem_threaded_iff h hp w).1 hw⟩
    · rintro ⟨symbol, hbelongs, hclaims⟩
      obtain ⟨p, hp, rfl⟩ := (exists_part_iff h).2 hbelongs
      exact ⟨p.tree, List.mem_map.2 ⟨p, hp, rfl⟩, (mem_threaded_iff h hp w).2 hclaims⟩
  · obtain ⟨k, hk, rfl⟩ := getElem?_symbolsOf.1 hname
    obtain ⟨before, p, after, -, -, rfl⟩ := (mem_numbered hsound).1 hk
    exact Header.WellFormed.name_ne_mainGroup (x := .anonymous) trivial (by omega)
  · obtain ⟨k, hk, rfl⟩ := getElem?_symbolsOf.1 hname
    obtain ⟨before, p, after, rfl, -, rfl⟩ := (mem_numbered hsound).1 hk
    obtain ⟨t, ht, hn, hstart⟩ := hq.exists_tag hm List.map_append
    obtain ⟨t', hunique, -⟩ := hattributes.exists_tag_iff hname
    rw [← hq.reaches_entry_iff hm]
    constructor
    · rintro ⟨u, hu, hun, hr⟩
      rwa [(hunique u).1 ⟨hu, hun⟩, ← (hunique t).1 ⟨ht, hn⟩, hstart] at hr
    · exact fun hr => ⟨t, ht, hn, hstart.symm ▸ hr⟩

/-! ### Matches -/

/-- The group of a symbol spans a match exactly if what was matched is one of the symbol's words. -/
lemma group?_eq_span_iff (h : Spells m symbols vocabulary keywords settings) {i k : Nat}
    {w : List Char} {x : Match} (hx : m.Reports i w k x) {name : String} {symbol : Symbol}
    (hname : symbols[name]? = some symbol) :
    x.group? name = some x.span ↔ symbol.Claims vocabulary settings (w.take k) := by
  rw [hx.group?_iff, hx.span_eq]
  constructor
  · rintro ⟨-, a, b, hspan, hb, -⟩
    obtain rfl : k = b := by
      simp only [Span.mk.injEq] at hspan
      omega
    exact (h.accepts_iff hname _).1 hb.1.2
  · intro hclaims
    have hbelongs := (h.exists_name symbol).1 ⟨name, hname⟩
    -- where the symbol ends, the main group ends as well
    have hlast : IsGreatest (m.closings w name) k := by
      refine ⟨⟨hx.closed.1.1, (h.accepts_iff hname _).2 hclaims⟩,
        fun j hj => hx.closed.2 ⟨hj.1, ?_⟩⟩
      exact (h.accepts_main_iff _).2 ⟨symbol, hbelongs, (h.accepts_iff hname _).1 hj.2⟩
    have hfirst : IsGreatest (before (m.openings w name) k) 0 := by
      refine ⟨⟨⟨hx.opened.1, (h.starts_iff name symbol hname _).2 rfl⟩, hx.pos⟩,
        fun j hj => ?_⟩
      have hnil := congrArg List.length ((h.starts_iff name symbol hname _).1 hj.1.2)
      have hlt := hj.1.1.1
      rw [List.length_take, List.length_nil] at hnil
      omega
    exact ⟨h.name_ne name symbol hname, 0, k, rfl, hlast, hfirst, le_rfl⟩

/-- What was matched is a word of one of the symbols. -/
lemma exists_claims (h : Spells m symbols vocabulary keywords settings) {i k : Nat} {w : List Char}
    {x : Match} (hx : m.Reports i w k x) :
    ∃ (name : String) (symbol : Symbol), symbols[name]? = some symbol ∧
      symbol.Claims vocabulary settings (w.take k) := by
  obtain ⟨symbol, hbelongs, hclaims⟩ := (h.accepts_main_iff _).1 hx.closed.1.2
  obtain ⟨name, hname⟩ := (h.exists_name symbol).2 hbelongs
  exact ⟨name, symbol, hname, hclaims⟩

/-! ### Candidates -/

section Candidates

variable {lexer : Lexer} {x : Match} {symbol : Symbol}

/-- The candidates are the symbols whose groups span the match. -/
lemma mem_candidates_iff : symbol ∈ lexer.candidates x ↔
    ∃ name : String, lexer.symbols[name]? = some symbol ∧ x.group? name = some x.span := by
  simp only [candidates, List.mem_map, List.mem_filter, Prod.exists, decide_eq_true_eq,
    Std.ExtTreeMap.mem_toList_iff_getElem?_eq_some]
  constructor
  · rintro ⟨name, _, ⟨hname, hgroup⟩, rfl⟩
    exact ⟨name, hname, hgroup⟩
  · rintro ⟨name, hname, hgroup⟩
    exact ⟨name, symbol, ⟨hname, hgroup⟩, rfl⟩

/-- The symbol of a match is a candidate, and a keyword if any candidate is one. -/
lemma symbolOf_spec (h : lexer.symbolOf x = some symbol) :
    symbol ∈ lexer.candidates x ∧
      ((∃ y ∈ lexer.candidates x, y.isKeyword = true) → symbol.isKeyword = true) := by
  rw [symbolOf] at h
  cases hfind : (lexer.candidates x).find? Symbol.isKeyword with
  | some y =>
      rw [hfind] at h
      obtain rfl : y = symbol := Option.some.inj h
      exact ⟨List.mem_of_find?_eq_some hfind, fun _ => List.find?_some hfind⟩
  | none =>
      rw [hfind] at h
      refine ⟨List.mem_of_mem_head? h, fun ⟨y, hy, hkeyword⟩ => ?_⟩
      exact absurd hkeyword (List.find?_eq_none.1 hfind y hy)

/-- If there is any candidate, the match has a symbol. -/
lemma exists_symbolOf (h : symbol ∈ lexer.candidates x) : ∃ y, lexer.symbolOf x = some y := by
  have hhead : (lexer.candidates x).head?.isSome = true := by
    rw [List.isSome_head?]
    exact List.ne_nil_of_mem h
  rw [← Option.isSome_iff_exists, symbolOf, Option.orElse_eq_orElse, Option.orElse_eq_or,
    Option.isSome_or, hhead, Bool.or_true]

end Candidates

/-! ### Lexers that could be built -/

/-- A lexer that could be built has the parts of its vocabulary, and the automaton that these are
compiled to. -/
lemma exists_of_build {lexer : Lexer} (h : build vocabulary keywords settings = .ok lexer) :
    ∃ ps, parts vocabulary keywords settings = .ok ps ∧
      Regex.compile (compose ps) = .ok lexer.regex ∧ lexer.symbols = symbolsOf ps ∧
      clash? lexer.regex.dfa lexer.symbols = none := by
  have hbuild := h
  rw [build] at hbuild
  split at hbuild
  next => cases hbuild
  next hv =>
    obtain ⟨ps, hps, hbuild⟩ := bind_eq_ok.1 hbuild
    obtain ⟨regex, hregex, -⟩ := bind_eq_ok.1 hbuild
    have hregex := mapError_eq_ok.1 hregex
    rw [build_eq hv hps hregex] at h
    split at h
    next => cases h
    next hclash =>
      cases h
      exact ⟨ps, hps, hregex, rfl, hclash⟩

/-- The automaton of a lexer that could be built tells the words of all symbols, and accepts nothing
else. -/
lemma spells_of_build {lexer : Lexer} (h : build vocabulary keywords settings = .ok lexer) :
    Spells lexer.regex.nfa lexer.symbols vocabulary keywords settings := by
  obtain ⟨ps, hps, hregex, hsymbols, -⟩ := exists_of_build h
  obtain ⟨regex, hregex', hspells⟩ := exists_spells hps
  obtain rfl := Except.ok.inj (hregex.symm.trans hregex')
  rwa [hsymbols]

lemma sentinel_of_build {lexer : Lexer} (h : build vocabulary keywords settings = .ok lexer) :
    lexer.regex.sentinel = Regex.defaultSentinel := by
  obtain ⟨ps, -, hregex, -⟩ := exists_of_build h
  exact (Regex.eq_of_compile hregex).2

/-- The group of a symbol spans a match in a line exactly if what was matched is one of the symbol's
words. -/
lemma group?_iff_claims {lexer : Lexer} (h : build vocabulary keywords settings = .ok lexer)
    {line : String} {x : Match} (hx : x ∈ lexer.regex.matchesIn line) {name : String} {symbol : Symbol}
    (hname : lexer.symbols[name]? = some symbol) :
    x.group? name = some x.span ↔ symbol.Claims vocabulary settings (x.text line).toList := by
  obtain ⟨i, k, hle, hreport⟩ := Regex.exists_report_of_mem hx
  rw [Regex.toList_text hreport hle]
  exact group?_eq_span_iff (spells_of_build h) hreport hname

/-- A symbol is a candidate for a match in a line exactly if it belongs to the lexer and what was
matched is one of its words. -/
lemma mem_candidates_iff_claims {lexer : Lexer} (h : build vocabulary keywords settings = .ok lexer)
    {line : String} {x : Match} (hx : x ∈ lexer.regex.matchesIn line) {symbol : Symbol} :
    symbol ∈ lexer.candidates x ↔ symbol.Belongs vocabulary keywords ∧
      symbol.Claims vocabulary settings (x.text line).toList := by
  rw [mem_candidates_iff, ← (spells_of_build h).exists_name]
  constructor
  · rintro ⟨name, hname, hgroup⟩
    exact ⟨⟨name, hname⟩, (group?_iff_claims h hx hname).1 hgroup⟩
  · rintro ⟨⟨name, hname⟩, hclaims⟩
    exact ⟨name, hname, (group?_iff_claims h hx hname).2 hclaims⟩

/-- Some symbol is a candidate for every match in a line. -/
lemma exists_candidate {lexer : Lexer} (h : build vocabulary keywords settings = .ok lexer)
    {line : String} {x : Match} (hx : x ∈ lexer.regex.matchesIn line) :
    ∃ symbol, symbol ∈ lexer.candidates x := by
  have hspells := spells_of_build h
  obtain ⟨i, k, -, hreport⟩ := Regex.exists_report_of_mem hx
  obtain ⟨name, symbol, hname, hclaims⟩ := exists_claims hspells hreport
  exact ⟨symbol, mem_candidates_iff.2
    ⟨name, hname, (group?_eq_span_iff hspells hreport hname).2 hclaims⟩⟩

/-- What is a keyword is attributed to it. -/
lemma symbolOf_of_keyword {lexer : Lexer} (h : build vocabulary keywords settings = .ok lexer)
    {line : String} {x : Match} (hx : x ∈ lexer.regex.matchesIn line)
    (htext : x.text line ∈ keywords) :
    lexer.symbolOf x = some (.keyword (x.text line)) := by
  have hown : Symbol.keyword (x.text line) ∈ lexer.candidates x :=
    (mem_candidates_iff_claims h hx).2 ⟨htext, rfl⟩
  obtain ⟨symbol, hsymbol⟩ := exists_symbolOf hown
  obtain ⟨hmem, hkeyword⟩ := symbolOf_spec hsymbol
  have htrue := hkeyword ⟨_, hown, rfl⟩
  obtain ⟨-, hclaims⟩ := (mem_candidates_iff_claims h hx).1 hmem
  rw [hsymbol]
  cases symbol with
  | ignored => cases htrue
  | rule name => cases htrue
  | keyword name => rw [String.toList_injective hclaims]

/-- No keyword is a candidate for what is none. -/
lemma ne_keyword_of_mem_candidates {lexer : Lexer}
    (h : build vocabulary keywords settings = .ok lexer) {line : String} {x : Match}
    (hx : x ∈ lexer.regex.matchesIn line) (htext : x.text line ∉ keywords) (name : String) :
    Symbol.keyword name ∉ lexer.candidates x := by
  intro hmem
  obtain ⟨hbelongs, hclaims⟩ := (mem_candidates_iff_claims h hx).1 hmem
  exact htext (String.toList_injective hclaims ▸ hbelongs)

/-- If no state has a transition on the sentinel, no longer text than the one that was matched is a
word of a symbol. -/
lemma not_claims_of_lt {lexer : Lexer} (h : build vocabulary keywords settings = .ok lexer)
    (hc : ∀ q ∈ lexer.regex.dfa.states, lexer.regex.dfa.next? q '\x00' = none) {line : String}
    {x : Match} (hx : x ∈ lexer.regex.matchesIn line) {k : Nat} (hk : x.span.stop < k)
    (hle : k ≤ line.toList.length) {symbol : Symbol} (hsymbol : symbol.Belongs vocabulary keywords) :
    ¬ symbol.Claims vocabulary settings (line.toList.extract x.span.start k) := by
  have hspells := spells_of_build h
  have hsentinel := sentinel_of_build h
  obtain ⟨i, j, hij, hreport⟩ := Regex.exists_report_of_mem hx
  rw [hreport.span_eq] at hk ⊢
  have hlt : i + j < k := hk
  obtain ⟨n, rfl⟩ := Nat.exists_eq_add_of_le (show i ≤ k by omega)
  intro hclaims
  rw [← Regex.take_rest (r := lexer.regex) hle] at hclaims
  have haccepts := (hspells.accepts_main_iff _).2 ⟨symbol, hsymbol, hclaims⟩
  obtain ⟨b, hb, hnb⟩ := Nfa.exists_mem_closings
    (Regex.not_reaches_rest (by rwa [hsentinel]) (by omega)) haccepts
  have hbj := hreport.closed.2 hb
  omega

/-- A match makes the token of its symbol. -/
lemma token?_eq {lexer : Lexer} {x : Match} {symbol : Symbol}
    (h : lexer.symbolOf x = some symbol) (row : Nat) (line : String) :
    lexer.token? row line x =
      symbol.tokenName?.map fun name => ⟨name, x.text line, row, x.span.start⟩ := by
  rw [token?, h]
  rfl

/-- Every match in a line is spanned by the group of a symbol, and is attributed to a symbol. What is
a keyword makes a token of the keyword, and any other token is of a rule whose own automaton accepts
its text. If no state has a transition on the character that ends lines, no longer text that starts in
the same column is a word of any symbol. -/
theorem token_of_match {lexer : Lexer} (h : build vocabulary keywords settings = .ok lexer)
    (row : Nat) {line : String} {x : Match} (hx : x ∈ lexer.regex.matchesIn line) :
    (∃ (name : String) (symbol : Symbol), lexer.symbols[name]? = some symbol ∧
        x.group? name = some x.span) ∧
      (∃ symbol, lexer.symbolOf x = some symbol) ∧
      (x.text line ∈ keywords →
        lexer.token? row line x = some ⟨x.text line, x.text line, row, x.span.start⟩) ∧
      (x.text line ∉ keywords → ∀ token, lexer.token? row line x = some token →
        token.text = x.text line ∧ ∃ pattern m, vocabulary[token.symbol]? = some pattern ∧
          Nfa.ofPattern pattern = .ok m ∧ m.Accepts mainGroup token.text.toList) ∧
      ((∀ q ∈ lexer.regex.dfa.states, lexer.regex.dfa.next? q '\x00' = none) →
        ∀ k, x.span.stop < k → k ≤ line.toList.length →
          ∀ symbol : Symbol, symbol.Belongs vocabulary keywords →
            ¬ symbol.Claims vocabulary settings (line.toList.extract x.span.start k)) := by
  obtain ⟨candidate, hcandidate⟩ := exists_candidate h hx
  obtain ⟨symbol, hsymbol⟩ := exists_symbolOf hcandidate
  obtain ⟨hmem, -⟩ := symbolOf_spec hsymbol
  obtain ⟨name, hname, hgroup⟩ := mem_candidates_iff.1 hmem
  obtain ⟨-, hclaims⟩ := (mem_candidates_iff_claims h hx).1 hmem
  refine ⟨⟨name, symbol, hname, hgroup⟩, ⟨symbol, hsymbol⟩, fun htext => ?_,
    fun htext token htoken => ?_,
    fun hc k hk hle other hother => not_claims_of_lt h hc hx hk hle hother⟩
  · rw [token?_eq (symbolOf_of_keyword h hx htext)]
    rfl
  · rw [token?_eq hsymbol] at htoken
    cases symbol with
    | ignored => cases htoken
    | rule name =>
        obtain rfl := Option.some.inj htoken
        exact ⟨rfl, hclaims⟩
    | keyword name => exact absurd hmem (ne_keyword_of_mem_candidates h hx htext name)

/-- In `if b` the keyword `if` is told from the rule that has this word, too, and nothing longer is a
word. -/
theorem token_of_match_of_keyword :
    ∃ lexer x, build (.ofList [("word", "[fib]+")]) (.ofList ["if"]) {} = .ok lexer ∧
      x ∈ lexer.regex.matchesIn "if b" ∧ lexer.token? 0 "if b" x = some ⟨"if", "if", 0, 0⟩ ∧
      ∀ k, 2 < k → k ≤ 4 → ∀ symbol : Symbol,
        symbol.Belongs (.ofList [("word", "[fib]+")]) (.ofList ["if"]) →
          ¬ symbol.Claims (.ofList [("word", "[fib]+")]) {} ("if b".toList.extract 0 k) := by
  obtain ⟨lexer, hlexer, hc, x, hx, hspan⟩ := exists_ok_of_decide
    (x := build (.ofList [("word", "[fib]+")]) (.ofList ["if"]) {})
    (P := fun lexer => (∀ q ∈ lexer.regex.dfa.states, lexer.regex.dfa.next? q '\x00' = none) ∧
      ∃ x ∈ lexer.regex.matchesIn "if b", x.span = ⟨0, 2⟩) (by decide +kernel)
  obtain ⟨-, -, hkeyword, -, hlongest⟩ := token_of_match hlexer 0 hx
  have htext : x.text "if b" = "if" := by
    rw [Match.text, hspan]
    rfl
  rw [htext, hspan] at hkeyword
  rw [hspan] at hlongest
  exact ⟨lexer, x, hlexer, hx, hkeyword (by simp), hlongest hc⟩

end Lexer

end CaptureAutomata
