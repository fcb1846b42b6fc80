/-
One more keyword:

* `Nfa.Scan.congr`: automata that read the same words and accept the same words scan a text alike;
* `Lexer.exists_reaches_of_build`: two lexers for one vocabulary read the same words if each of them
  reads the keywords of the other;
* `Lexer.exists_build_insert`: one more keyword leaves a vocabulary as unambiguous as it was;
* `Lexer.ownToken_insert`: it takes over the tokens of its own text, and no others;
* `Lexer.tokenize_insert`: so if it is a word of a rule, lines are split as before, and the tokens of this
  rule with its text become tokens of the keyword.
-/
import CaptureAutomata.Proofs.Lexer.Munch

namespace CaptureAutomata

/-! ### Automata with the same words -/

/-- Automata that read the same words and accept the same words scan a text alike. -/
lemma Nfa.Scan.congr {m m' : PatternNfa} {t : List Char} {i : Nat} {spans : List Span}
    (hreads : ∀ w, (∃ s, m'.Reaches w s) ↔ ∃ s, m.Reaches w s)
    (haccepts : ∀ w, m'.Accepts mainGroup w ↔ m.Accepts mainGroup w) (h : m.Scan t i spans) :
    m'.Scan t i spans := by
  have hlasts : ∀ w n, m'.Lasts w n ↔ m.Lasts w n := fun w n => by
    simp only [Nfa.Lasts, hreads]
  have hlongest : ∀ w k, m'.Longest w k ↔ m.Longest w k := fun w k => by
    simp only [Nfa.Longest, haccepts]
  induction h with
  | done hi => exact .done hi
  | hit hi hn hk _ ih => exact .hit hi ((hlasts _ _).2 hn) ((hlongest _ _).2 hk) ih
  | miss hi hn hk _ ih =>
      exact .miss hi ((hlasts _ _).2 hn) (fun h => hk (h.imp fun k => (hlongest _ k).1)) ih

namespace Lexer

variable {vocabulary : KeyMap String String} {keywords keywords' : KeySet String}
  {settings : Settings} {lexer lexer' : Lexer} {k name : String} {w : List Char}

/-! ### Lexers for one vocabulary -/

/-- The keywords are the last parts of a lexer, and the others do not depend on them. -/
lemma exists_parts_eq_append {ps : List Part} (h : parts vocabulary keywords settings = .ok ps) :
    ∃ rest, rest ≠ [] ∧ ∀ keywords, parts vocabulary keywords settings =
      .ok (rest ++ keywords.toList.map Part.ofKeyword) := by
  obtain ⟨ignored, hignored, h⟩ := bind_eq_ok.1 h
  obtain ⟨rules, hrules, -⟩ := bind_eq_ok.1 h
  exact ⟨ignored :: rules, List.cons_ne_nil _ _, fun keywords =>
    bind_eq_ok.2 ⟨ignored, hignored, bind_eq_ok.2 ⟨rules, hrules, rfl⟩⟩⟩

/-- The automaton of a lexer is laid out as a pattern that encloses its parts. -/
lemma exists_isLaidOutAs {ps : List Part} (h : build vocabulary keywords settings = .ok lexer)
    (hps : parts vocabulary keywords settings = .ok ps) :
    ∃ q : Pattern, q.Encloses (ps.map Part.tree) ∧ lexer.regex.nfa.IsLaidOutAs q := by
  obtain ⟨_, hps', hregex, -, -⟩ := exists_of_build h
  obtain rfl := Except.ok.inj (hps.symm.trans hps')
  obtain ⟨q, hq, hparse⟩ := exists_encloses_of_parts hps
  exact ⟨q, hq, Regex.isLaidOutAs ((Regex.pattern_of_compile hregex).symm ▸ hparse)⟩

/-- If the keywords of one lexer are accepted by the automaton of another one for the same vocabulary, the
other one can read all that the first one can. -/
lemma exists_reaches_of_build (h : build vocabulary keywords settings = .ok lexer)
    (h' : build vocabulary keywords' settings = .ok lexer')
    (hkeywords : ∀ k ∈ keywords, lexer'.regex.nfa.Accepts mainGroup k.toList)
    (hr : ∃ s, lexer.regex.nfa.Reaches w s) : ∃ s, lexer'.regex.nfa.Reaches w s := by
  obtain ⟨s, hs⟩ := hr
  obtain ⟨ps, hps, -, -, -⟩ := exists_of_build h
  obtain ⟨rest, hne, hparts⟩ := exists_parts_eq_append hps
  have htrees : ∀ keywords : KeySet String,
      (rest ++ keywords.toList.map Part.ofKeyword).map Part.tree =
        rest.map Part.tree ++ (keywords.toList.map String.toList).map Pattern.ofChars := by
    intro keywords
    rw [List.map_append, List.map_map, List.map_map]
    exact congrArg _ (List.map_congr_left fun k _ => Part.tree_ofKeyword k)
  obtain ⟨q, hq, hm⟩ := exists_isLaidOutAs h (hparts keywords)
  obtain ⟨q', hq', hm'⟩ := exists_isLaidOutAs h' (hparts keywords')
  rw [htrees] at hq hq'
  refine hq.exists_reaches hq' (by simpa using hne) (fun body hbody => ?_) hm hm' (fun cs hcs => ?_) hs
  · obtain ⟨p, hp, rfl⟩ := List.mem_map.1 hbody
    exact (isSound_of_mem (hparts keywords) (List.mem_append_left _ hp)).wellFormed
  · obtain ⟨k, hk, rfl⟩ := List.mem_map.1 hcs
    obtain ⟨t, -, -, hr⟩ := hkeywords k (Std.ExtTreeSet.mem_toList.1 hk)
    exact ⟨t.stop, hr⟩

/-! ### Vocabularies with one more keyword -/

/-- Nothing is wrong with a vocabulary and keywords exactly if no rule is a keyword and no name and no
pattern is empty. -/
lemma vocabularyError?_eq_none_iff : vocabularyError? vocabulary keywords = none ↔
    (∀ name ∈ vocabulary, name ∉ keywords) ∧ (∀ name, name ∈ vocabulary ∨ name ∈ keywords → name ≠ "") ∧
      ∀ name pattern : String, vocabulary[name]? = some pattern → pattern ≠ "" := by
  have hduplicates : (vocabulary.keys.filter (· ∈ keywords)).isEmpty = true ↔
      ∀ name ∈ vocabulary, name ∉ keywords := by
    simp [List.filter_eq_nil_iff]
  have hnames : (vocabulary.keys ++ keywords.toList).any String.isEmpty = false ↔
      ∀ name, name ∈ vocabulary ∨ name ∈ keywords → name ≠ "" := by
    simp [or_imp, forall_and]
  have hpatterns : vocabulary.toList.find? (·.2.isEmpty) = none ↔
      ∀ name pattern : String, vocabulary[name]? = some pattern → pattern ≠ "" := by
    simp [List.find?_eq_none, Std.ExtTreeMap.mem_toList_iff_getElem?_eq_some]
  rw [vocabularyError?, ← hduplicates, ← hnames, ← hpatterns]
  cases (vocabulary.keys.filter (· ∈ keywords)).isEmpty <;>
    cases (vocabulary.keys ++ keywords.toList).any String.isEmpty <;> simp

/-- A lexer can only be built for a vocabulary with which nothing is wrong. -/
lemma vocabularyError?_of_build (h : build vocabulary keywords settings = .ok lexer) :
    vocabularyError? vocabulary keywords = none := by
  rw [build] at h
  split at h
  next => cases h
  next hv => exact hv

/-- A lexer keeps its settings. -/
lemma settings_of_build (h : build vocabulary keywords settings = .ok lexer) :
    lexer.settings = settings := by
  obtain ⟨ps, hps, hregex, -, -⟩ := exists_of_build h
  rw [build_eq (vocabularyError?_of_build h) hps hregex] at h
  split at h
  next => cases h
  next => exact (congrArg Lexer.settings (Except.ok.inj h)).symm

/-- One more keyword that is no rule leaves a vocabulary as unambiguous as it was. -/
lemma exists_build_insert (h : build vocabulary keywords settings = .ok lexer) (hne : k ≠ "")
    (hv : k ∉ vocabulary) :
    ∃ lexer', build vocabulary (keywords.insert k) settings = .ok lexer' := by
  obtain ⟨ps, hps, -, -, -⟩ := exists_of_build h
  obtain ⟨rest, -, hparts⟩ := exists_parts_eq_append hps
  obtain ⟨hrules, hnames, hpatterns⟩ :=
    vocabularyError?_eq_none_iff.1 (vocabularyError?_of_build h)
  have hv' : vocabularyError? vocabulary (keywords.insert k) = none := by
    simp only [vocabularyError?_eq_none_iff, Std.ExtTreeSet.mem_insert, Key.compare_eq_iff]
    refine ⟨fun name hname => ?_, fun name hname => ?_, hpatterns⟩
    · rintro (rfl | hk)
      · exact hv hname
      · exact hrules name hname hk
    · rcases hname with hname | rfl | hname
      · exact hnames name (Or.inl hname)
      · exact hne
      · exact hnames name (Or.inr hname)
  obtain ⟨regex, hregex, hspells⟩ := exists_spells (hparts (keywords.insert k))
  rw [build_eq hv' (hparts _) hregex]
  cases hclash : clash? regex.dfa _ with
  | none => exact ⟨_, rfl⟩
  | some names =>
      -- keywords are not told in errors, so there would have been a clash without this one
      obtain ⟨hsize, w, hw⟩ :=
        clash?_eq_some hspells.toAttributes regex.isDeterminizedBy hclash
      obtain ⟨a, ha, b, hb, hab⟩ := KeySet.one_lt_size_iff.1 hsize
      obtain ⟨x, hx, hcx⟩ := (hw a).1 ha
      obtain ⟨y, hy, hcy⟩ := (hw b).1 hb
      exact absurd (eq_of_claims h hx hy hcx hcy) hab

/-! ### Tokens with one more keyword -/

/-- The token, but of the keyword `k` if it is one of a rule and has the text of the keyword. -/
def promote (vocabulary : KeyMap String String) (k : String) (token : Token) : Token :=
  if token.symbol ∈ vocabulary ∧ token.text = k then { token with symbol := k } else token

lemma promote_of_ne {token : Token} (h : token.text ≠ k) : promote vocabulary k token = token :=
  if_neg fun hk => h hk.2

/-- With one more keyword, a lexer has one more symbol. -/
lemma Symbol.belongs_insert_iff {symbol : Symbol} :
    symbol.Belongs vocabulary (keywords.insert k) ↔
      symbol.Belongs vocabulary keywords ∨ symbol = .keyword k := by
  cases symbol with
  | ignored => exact iff_of_true trivial (Or.inl trivial)
  | rule name => exact (or_iff_left (by simp)).symm
  | keyword name =>
      rw [Belongs, Belongs, Std.ExtTreeSet.mem_insert, Key.compare_eq_iff, keyword.injEq, or_comm,
        eq_comm]

/-- The automaton accepts the same words with one more keyword that is a word of a rule. -/
lemma accepts_main_insert_iff (h : build vocabulary keywords settings = .ok lexer)
    (h' : build vocabulary (keywords.insert k) settings = .ok lexer')
    (hrule : (Symbol.rule name).Claims vocabulary settings k.toList) (w : List Char) :
    lexer'.regex.nfa.Accepts mainGroup w ↔ lexer.regex.nfa.Accepts mainGroup w := by
  rw [(spells_of_build h).accepts_main_iff, (spells_of_build h').accepts_main_iff]
  constructor
  · rintro ⟨symbol, hbelongs, hclaims⟩
    rcases Symbol.belongs_insert_iff.1 hbelongs with hold | rfl
    · exact ⟨symbol, hold, hclaims⟩
    · obtain rfl : w = k.toList := hclaims
      exact ⟨.rule name, hrule.belongs keywords rfl, hrule⟩
  · rintro ⟨symbol, hbelongs, hclaims⟩
    exact ⟨symbol, Symbol.belongs_insert_iff.2 (Or.inl hbelongs), hclaims⟩

/-- It reads the same words, too. -/
lemma reads_insert_iff (h : build vocabulary keywords settings = .ok lexer)
    (h' : build vocabulary (keywords.insert k) settings = .ok lexer')
    (hrule : (Symbol.rule name).Claims vocabulary settings k.toList) (w : List Char) :
    (∃ s, lexer'.regex.nfa.Reaches w s) ↔ ∃ s, lexer.regex.nfa.Reaches w s := by
  have haccepts := accepts_main_insert_iff h h' hrule
  have hown : ∀ {keywords : KeySet String} {lexer : Lexer},
      build vocabulary keywords settings = .ok lexer →
        ∀ other ∈ keywords, lexer.regex.nfa.Accepts mainGroup other.toList :=
    fun h other hother => ((spells_of_build h).accepts_main_iff _).2 ⟨.keyword other, hother, rfl⟩
  refine ⟨exists_reaches_of_build h' h fun other hother => ?_,
    exists_reaches_of_build h h' fun other hother => ?_⟩
  · exact (haccepts _).1 (hown h' other hother)
  · exact (haccepts _).2 (hown h other hother)

/-- Lines are split as before with one more keyword that is a word of a rule. -/
lemma spans_insert (h : build vocabulary keywords settings = .ok lexer)
    (h' : build vocabulary (keywords.insert k) settings = .ok lexer')
    (hc : ∀ q ∈ lexer.regex.dfa.states, lexer.regex.dfa.next? q '\x00' = none)
    (hrule : (Symbol.rule name).Claims vocabulary settings k.toList) (line : String) :
    (lexer'.regex.matchesIn line).map (·.span) = (lexer.regex.matchesIn line).map (·.span) := by
  have hreads := reads_insert_iff h h' hrule
  have hc' : ∀ q ∈ lexer'.regex.dfa.states, lexer'.regex.dfa.next? q '\x00' = none :=
    lexer'.regex.isDeterminizedBy.next?_eq_none_iff.2 fun w s hs => by
      obtain ⟨s, hs⟩ := (hreads _).1 ⟨s, hs⟩
      exact lexer.regex.isDeterminizedBy.next?_eq_none_iff.1 hc w s hs
  have hscan := Regex.scan_matchesIn (r := lexer.regex) (by rwa [sentinel_of_build h]) line
  have hscan' := Regex.scan_matchesIn (r := lexer'.regex) (by rwa [sentinel_of_build h']) line
  rw [← hscan'.eq_scan, (hscan.congr hreads (accepts_main_insert_iff h h' hrule)).eq_scan]

/-- A part of a line that is the new keyword has the token of the keyword, and all others have the
tokens that they had. -/
lemma ownToken_insert (h : build vocabulary keywords settings = .ok lexer)
    (hignored : ignoredName ∉ vocabulary) (hk : k ∉ keywords)
    (hrule : (Symbol.rule name).Claims vocabulary settings k.toList) (row : Nat) (line : String)
    (s : Span) :
    ownToken vocabulary (keywords.insert k) settings row line s =
      (ownToken vocabulary keywords settings row line s).map (promote vocabulary k) := by
  rw [ownToken, ownToken]
  generalize line.toList.extract s.start s.stop = w
  by_cases hw : String.ofList w = k
  · obtain rfl : w = k.toList := by rw [← hw, String.toList_ofList]
    have hmem : name ∈ vocabulary := hrule.belongs keywords rfl
    have hother : ¬ Symbol.ignored.Claims vocabulary settings k.toList := fun hclaims =>
      hignored (eq_of_claims h rfl rfl hclaims hrule ▸ hmem)
    have hnew : owner vocabulary (keywords.insert k) settings k.toList = some (.keyword k) := by
      rw [owner, hw, if_pos (Std.ExtTreeSet.mem_insert_self)]
    have hold : owner vocabulary keywords settings k.toList = some (.rule name) := by
      rw [owner, hw, if_neg hk, if_neg hother, find?_rule h hmem hrule]
      rfl
    rw [hnew, hold, hw]
    exact congrArg some (if_pos ⟨hmem, rfl⟩).symm
  · have howner : owner vocabulary (keywords.insert k) settings w =
        owner vocabulary keywords settings w := by
      rw [owner, owner]
      refine if_congr ?_ rfl rfl
      rw [Std.ExtTreeSet.mem_insert, Key.compare_eq_iff]
      exact or_iff_right fun heq => hw heq.symm
    rw [howner, Option.map_map]
    congr 1
    exact funext fun symbol => (promote_of_ne hw).symm

/-- The tokens of a line are those of the owners of its matches. -/
lemma lineTokens_eq_filterMap (h : build vocabulary keywords settings = .ok lexer) (row : Nat)
    (line : String) :
    lexer.lineTokens row line = ((lexer.regex.matchesIn line).map (·.span)).filterMap
      (ownToken vocabulary keywords settings row line) := by
  rw [lineTokens, List.filterMap_map]
  exact List.filterMap_congr fun x hx => token?_eq_ownToken h row hx

/-- The token at the end is found as before, too. -/
lemma endToken_insert (h : build vocabulary keywords settings = .ok lexer)
    (h' : build vocabulary (keywords.insert k) settings = .ok lexer')
    (hspans : ∀ line, (lexer'.regex.matchesIn line).map (·.span) =
      (lexer.regex.matchesIn line).map (·.span)) (lines : List String) :
    lexer'.endToken lines = lexer.endToken lines := by
  have hlast : ∀ lexer : Lexer, lexer.lastStop lines =
      ((lines.flatMap fun line => (lexer.regex.matchesIn line).map (·.span)).getLast?.map
        (·.stop)).getD 0 := fun lexer => by
    rw [lastStop, ← List.map_flatMap, List.getLast?_map, Option.map_map]
    rfl
  rw [endToken, endToken, hlast, hlast, settings_of_build h, settings_of_build h']
  simp only [hspans]

/-- If a lexer could be built, no state of its automaton has a transition on the character that ends
lines, and no rule has the name of the text between tokens, then a text that is a word of a rule can be
made a keyword. The lexer for it can be built, too, and finds the same tokens in all lines, only those
of a rule that have this text being tokens of the keyword now. -/
theorem tokenize_insert (h : build vocabulary keywords settings = .ok lexer)
    (hc : ∀ q ∈ lexer.regex.dfa.states, lexer.regex.dfa.next? q '\x00' = none)
    (hignored : ignoredName ∉ vocabulary) (hne : k ≠ "") (hv : k ∉ vocabulary) (hk : k ∉ keywords)
    (hrule : (Symbol.rule name).Claims vocabulary settings k.toList) :
    ∃ lexer', build vocabulary (keywords.insert k) settings = .ok lexer' ∧
      ∀ lines, lexer'.tokenize lines = (lexer.tokenize lines).map (promote vocabulary k) := by
  obtain ⟨lexer', h'⟩ := exists_build_insert h hne hv
  have hspans := spans_insert h h' hc hrule
  have hline : ∀ row line, lexer'.lineTokens row line =
      (lexer.lineTokens row line).map (promote vocabulary k) := fun row line => by
    rw [lineTokens_eq_filterMap h', lineTokens_eq_filterMap h, hspans, List.map_filterMap]
    exact List.filterMap_congr fun s _ => ownToken_insert h hignored hk hrule row line s
  have hend : ∀ lines, promote vocabulary k (lexer.endToken lines) = lexer.endToken lines :=
    fun lines => promote_of_ne hne.symm
  refine ⟨lexer', h', fun lines => ?_⟩
  rw [tokenize, tokenize, endToken_insert h h' hspans, List.map_append, List.map_flatMap,
    List.map_singleton, hend]
  simp only [hline]

/-- In `b fib if` the word `b` becomes a keyword like `if`, and the word `fib` remains one. -/
theorem tokenize_insert_of_letter :
    ∃ lexer', build (.ofList [("word", "[fib]+")]) ((.ofList ["if"] : KeySet String).insert "b") {} =
        .ok lexer' ∧
      lexer'.tokenize ["b fib if"] =
        [⟨"b", "b", 0, 0⟩, ⟨"word", "fib", 0, 2⟩, ⟨"if", "if", 0, 6⟩, ⟨"<EOF>", "", 0, 8⟩] := by
  obtain ⟨lexer, hlexer, hc, hfound⟩ := exists_ok_of_decide
    (x := build (.ofList [("word", "[fib]+")]) (.ofList ["if"]) {})
    (P := fun lexer => (∀ q ∈ lexer.regex.dfa.states, lexer.regex.dfa.next? q '\x00' = none) ∧
      lexer.tokenize ["b fib if"] =
        [⟨"word", "b", 0, 0⟩, ⟨"word", "fib", 0, 2⟩, ⟨"if", "if", 0, 6⟩, ⟨"<EOF>", "", 0, 8⟩])
    (by decide +kernel)
  have hword : Pattern.parse "[fib]+" = .ok (.single (Pattern.Sequence.empty.append
    (.charClass [.literal (.plain 'f'), .literal (.plain 'i'), .literal (.plain 'b')]) .oneOrMore)) :=
    rfl
  obtain ⟨m, -, hm, -, haccepts⟩ := Pattern.exists_ofPattern hword
  have hletter : Pattern.Denotes (.single (Pattern.Sequence.empty.append
      (.charClass [.literal (.plain 'f'), .literal (.plain 'i'), .literal (.plain 'b')]) .oneOrMore))
      ['b'] :=
    ⟨[], ['b'], rfl, rfl, ['b'], [], rfl, ⟨_, .tail _ (.tail _ (.head _)), rfl⟩, .nil⟩
  have hrule : (Symbol.rule "word").Claims (.ofList [("word", "[fib]+")]) {} "b".toList :=
    ⟨_, m, by simp, hm, (haccepts _).2 (Pattern.language_le_threaded _ hletter)⟩
  obtain ⟨lexer', hlexer', htokens⟩ := tokenize_insert hlexer hc (by simp [ignoredName])
    (k := "b") (by decide) (by simp) (by simp) hrule
  refine ⟨lexer', hlexer', ?_⟩
  rw [htokens, hfound]
  decide +kernel

end Lexer

end CaptureAutomata
