/-
Tokens told by the words of the symbols alone:

* `Lexer.owner`: the symbol that a word is attributed to: a keyword before the text between tokens,
  and this before the rules;
* `Lexer.symbolOf_eq_owner`: every match is attributed to the owner of its text;
* `Lexer.longestClaimed`, `Lexer.munch`: the longest word of a symbol at a position, and the spans of
  these words from position to position;
* `Lexer.lineTokens_eq_munch`: the tokens of a line are those of the longest words, each found from
  where the automaton could not read on after the one before, and if it never reads past a word, from
  where the word ends.
-/
import CaptureAutomata.Proofs.Lexer.Attribution
import CaptureAutomata.Proofs.Regex.Scanning

namespace CaptureAutomata

/-! ### The least number -/

/-- No number but zero starts with a zero. -/
lemma exists_toDigits_eq_cons {n : Nat} (hn : 0 < n) :
    ∃ c rest, Nat.toDigits 10 n = c :: rest ∧ '1' ≤ c := by
  induction n using Nat.strong_induction_on with
  | _ n ih =>
      by_cases hlt : n < 10
      · refine ⟨n.digitChar, [], Nat.toDigits_of_lt_base hlt, ?_⟩
        interval_cases n <;> decide
      · obtain ⟨c, rest, hdigits, hc⟩ := ih (n / 10) (by omega) (by omega)
        exact ⟨c, _, by rw [Nat.toDigits_of_base_le (by decide) (by omega), hdigits]; rfl, hc⟩

/-- No number but zero is written before one. -/
lemma not_toString_lt_one {n : Nat} (hn : 0 < n) : compare (toString n) "1" ≠ .lt := by
  obtain ⟨c, rest, hdigits, hc⟩ := exists_toDigits_eq_cons hn
  have hlist : (toString n).toList = c :: rest := by
    show (Nat.repr n).toList = _
    rw [Nat.repr_eq_ofList_toDigits, hdigits, String.toList_ofList]
  have hone : "1".toList = ['1'] := rfl
  intro hlt
  have hless : toString n < "1" := compareOfLessAndEq_eq_lt.1 hlt
  rw [String.lt_iff_toList_lt, hlist, hone, List.cons_lt_cons_iff] at hless
  rcases hless with hless | ⟨-, hless⟩
  · exact absurd hless (not_lt_of_ge hc)
  · exact absurd hless (List.not_lt_nil rest)

namespace Lexer

variable {vocabulary : KeyMap String String} {keywords : KeySet String} {settings : Settings}
  {lexer : Lexer} {line : String} {x : Match}

/-! ### Owners -/

open Classical in
/-- The symbol that a word is attributed to: the keyword that it is, or the text between tokens, or
the first rule that has this word. -/
noncomputable def owner (vocabulary : KeyMap String String) (keywords : KeySet String)
    (settings : Settings) (w : List Char) : Option Symbol :=
  if String.ofList w ∈ keywords then some (.keyword (String.ofList w))
  else if Symbol.ignored.Claims vocabulary settings w then some .ignored
  else (vocabulary.keys.find? fun name =>
    decide ((Symbol.rule name).Claims vocabulary settings w)).map .rule

/-- The text between tokens is the first part. -/
lemma exists_parts_eq_cons {ps : List Part} (h : parts vocabulary keywords settings = .ok ps) :
    ∃ p rest, ps = p :: rest ∧ p.symbol = .ignored := by
  obtain ⟨ignored, hignored, h⟩ := bind_eq_ok.1 h
  obtain ⟨rules, -, h⟩ := bind_eq_ok.1 h
  obtain ⟨m, -, rfl⟩ := Part.ofPattern_eq_ok.1 hignored
  cases h
  exact ⟨_, _, List.cons_append, rfl⟩

/-- The text between tokens is the first symbol. -/
lemma head?_symbols (h : build vocabulary keywords settings = .ok lexer) :
    lexer.symbols.toList.head? = some ("1", .ignored) := by
  obtain ⟨ps, hps, -, hsymbols, -⟩ := exists_of_build h
  obtain ⟨p, rest, rfl, hp⟩ := exists_parts_eq_cons hps
  have hfirst : (1, Symbol.ignored) ∈ numbered 1 (p :: rest) := by
    rw [numbered, hp]
    exact .head _
  have hmem : ("1", Symbol.ignored) ∈ lexer.symbols.toList := by
    rw [hsymbols, Std.ExtTreeMap.mem_toList_iff_getElem?_eq_some]
    exact getElem?_symbolsOf.2 ⟨1, hfirst, rfl⟩
  have hordered := Std.ExtTreeMap.ordered_keys_toList (t := lexer.symbols)
  cases hlist : lexer.symbols.toList with
  | nil =>
      rw [hlist] at hmem
      cases hmem
  | cons y ys =>
      rw [hlist] at hmem hordered
      rcases List.mem_cons.1 hmem with rfl | hlater
      · rfl
      · -- a symbol before would have a number that is written before one
        have hy : y ∈ lexer.symbols.toList := hlist ▸ .head _
        rw [hsymbols, Std.ExtTreeMap.mem_toList_iff_getElem?_eq_some] at hy
        obtain ⟨k, hk, hname⟩ := getElem?_symbolsOf.1 hy
        have hpos := (pairwise_numbered 1 (p :: rest)).1 _ hk
        have hlt := List.rel_of_pairwise_cons hordered hlater
        rw [hname] at hlt
        exact absurd hlt (not_toString_lt_one hpos)

/-- Text between tokens has the text between tokens as its first candidate. -/
lemma head?_candidates (h : build vocabulary keywords settings = .ok lexer)
    (hx : x ∈ lexer.regex.matchesIn line)
    (hclaims : Symbol.ignored.Claims vocabulary settings (x.text line).toList) :
    (lexer.candidates x).head? = some .ignored := by
  have hhead := head?_symbols h
  obtain ⟨ys, hys⟩ := List.head?_eq_some_iff.1 hhead
  have hmem : ("1", Symbol.ignored) ∈ lexer.symbols.toList := hys ▸ .head _
  have hname := Std.ExtTreeMap.mem_toList_iff_getElem?_eq_some.1 hmem
  have hgroup := (group?_iff_claims h hx hname).2 hclaims
  rw [candidates, hys, List.filter_cons_of_pos (by simpa using hgroup)]
  rfl

/-- No word belongs to two symbols of a lexer that could be built that have different names in errors. -/
lemma eq_of_claims (h : build vocabulary keywords settings = .ok lexer) {w : List Char} {a b : String}
    {first second : Symbol} (ha : first.errorName? = some a) (hb : second.errorName? = some b)
    (hfirst : first.Claims vocabulary settings w) (hsecond : second.Claims vocabulary settings w) :
    a = b := by
  obtain ⟨ps, -, -, -, hclash⟩ := exists_of_build h
  by_contra hne
  obtain ⟨names, hnames⟩ := exists_clash? (spells_of_build h).toAttributes
    lexer.regex.isDeterminizedBy ha hb hne hfirst hsecond
  rw [hclash] at hnames
  cases hnames

open Classical in
/-- The first rule that has a word is the only one. -/
lemma find?_rule (h : build vocabulary keywords settings = .ok lexer) {w : List Char} {name : String}
    (hname : name ∈ vocabulary) (hclaims : (Symbol.rule name).Claims vocabulary settings w) :
    (vocabulary.keys.find? fun name =>
      decide ((Symbol.rule name).Claims vocabulary settings w)) = some name := by
  have hsome : (vocabulary.keys.find? fun name =>
      decide ((Symbol.rule name).Claims vocabulary settings w)).isSome = true :=
    List.find?_isSome.2 ⟨name, Std.ExtTreeMap.mem_keys.2 hname, decide_eq_true hclaims⟩
  obtain ⟨other, hother⟩ := Option.isSome_iff_exists.1 hsome
  have hdecide := List.find?_some hother
  have hfound : (Symbol.rule other).Claims vocabulary settings w := of_decide_eq_true hdecide
  rw [hother, eq_of_claims h rfl rfl hfound hclaims]

/-- Every match in a line is attributed to the owner of its text. -/
lemma symbolOf_eq_owner (h : build vocabulary keywords settings = .ok lexer)
    (hx : x ∈ lexer.regex.matchesIn line) :
    lexer.symbolOf x = owner vocabulary keywords settings (x.text line).toList := by
  have htext : String.ofList (x.text line).toList = x.text line := String.ofList_toList
  rw [owner, htext]
  split
  next hkeyword => exact symbolOf_of_keyword h hx hkeyword
  next hkeyword =>
    have hnone := ne_keyword_of_mem_candidates h hx hkeyword
    split
    next hignored =>
      have hfind : (lexer.candidates x).find? Symbol.isKeyword = none := by
        refine List.find?_eq_none.2 fun y hy hkey => ?_
        cases y with
        | ignored => cases hkey
        | rule name => cases hkey
        | keyword name => exact hnone name hy
      rw [symbolOf, hfind, head?_candidates h hx hignored]
      rfl
    next hignored =>
      obtain ⟨candidate, hcandidate⟩ := exists_candidate h hx
      obtain ⟨symbol, hsymbol⟩ := exists_symbolOf hcandidate
      obtain ⟨hmem, -⟩ := symbolOf_spec hsymbol
      obtain ⟨hbelongs, hclaims⟩ := (mem_candidates_iff_claims h hx).1 hmem
      rw [hsymbol]
      cases symbol with
      | ignored => exact absurd hclaims hignored
      | keyword name => exact absurd hmem (hnone name)
      | rule name =>
          rw [find?_rule h hbelongs hclaims]
          rfl

/-! ### The longest words -/

open Classical in
/-- The length of the longest word of a symbol, the empty one left aside, that starts at position `i`
of a text; zero if there is none. -/
noncomputable def longestClaimed (vocabulary : KeyMap String String) (keywords : KeySet String)
    (settings : Settings) (t : List Char) (i : Nat) : Nat :=
  Nat.findGreatest (fun k => 1 ≤ k ∧ ∃ symbol : Symbol, symbol.Belongs vocabulary keywords ∧
    symbol.Claims vocabulary settings ((t.drop i).take k)) (t.length - i)

/-- The spans of the longest words of symbols in a text from position `i` on. Where the longest word
is `k` symbols long, the next one is looked for at `ahead i k`, but always further on. -/
noncomputable def munch (vocabulary : KeyMap String String) (keywords : KeySet String)
    (settings : Settings) (ahead : Nat → Nat → Nat) (t : List Char) (i : Nat) : List Span :=
  if i < t.length then
    (if 1 ≤ longestClaimed vocabulary keywords settings t i then
        [⟨i, i + longestClaimed vocabulary keywords settings t i⟩] else []) ++
      munch vocabulary keywords settings ahead t
        (max (ahead i (longestClaimed vocabulary keywords settings t i)) (i + 1))
  else []
termination_by t.length - i

/-- The token of the owner of a part of a line, unless it is text between tokens. -/
noncomputable def ownToken (vocabulary : KeyMap String String) (keywords : KeySet String)
    (settings : Settings) (row : Nat) (line : String) (s : Span) : Option Token :=
  (owner vocabulary keywords settings (line.toList.extract s.start s.stop) >>= Symbol.tokenName?).map
    fun name => ⟨name, String.ofList (line.toList.extract s.start s.stop), row, s.start⟩

/-- In a text, the longest word is taken, and then those further on. -/
lemma munch_of_lt {ahead : Nat → Nat → Nat} {t : List Char} {i : Nat} (hi : i < t.length) :
    munch vocabulary keywords settings ahead t i =
      (if 1 ≤ longestClaimed vocabulary keywords settings t i then
          [⟨i, i + longestClaimed vocabulary keywords settings t i⟩] else []) ++
        munch vocabulary keywords settings ahead t
          (max (ahead i (longestClaimed vocabulary keywords settings t i)) (i + 1)) := by
  rw [munch, if_pos hi]

lemma munch_of_le {ahead : Nat → Nat → Nat} {t : List Char} {i : Nat} (hi : t.length ≤ i) :
    munch vocabulary keywords settings ahead t i = [] := by
  rw [munch, if_neg (by omega)]

section Longest

variable {symbols : KeyMap String Symbol} {m : PatternNfa} {t : List Char} {i k n : Nat}

/-- A word of a symbol is the longest if no longer part of the text is one. -/
lemma longestClaimed_eq_of_claims (hle : k ≤ t.length - i) (hpos : 1 ≤ k)
    (hk : ∃ symbol : Symbol, symbol.Belongs vocabulary keywords ∧
      symbol.Claims vocabulary settings ((t.drop i).take k))
    (hlast : ∀ j, k < j → j ≤ t.length - i →
      ¬ ∃ symbol : Symbol, symbol.Belongs vocabulary keywords ∧
        symbol.Claims vocabulary settings ((t.drop i).take j)) :
    longestClaimed vocabulary keywords settings t i = k := by
  classical
  exact Nat.findGreatest_eq_iff.2
    ⟨hle, fun _ => ⟨hpos, hk⟩, fun j hj hjle h => hlast j hj hjle h.2⟩

/-- The longest word of a symbol is the longest accepted prefix of what is left. -/
lemma longestClaimed_eq (h : Spells m symbols vocabulary keywords settings)
    (hk : m.Longest (t.drop i) k) : longestClaimed vocabulary keywords settings t i = k := by
  obtain ⟨⟨hle, hpos, haccepts⟩, hlast⟩ := hk
  rw [List.length_drop] at hle
  refine longestClaimed_eq_of_claims hle hpos ((h.accepts_main_iff _).1 haccepts)
    fun j hj hjle hclaims => ?_
  have hmem : j ≤ k :=
    hlast ⟨by rwa [List.length_drop], by omega, (h.accepts_main_iff _).2 hclaims⟩
  omega

/-- Without an accepted prefix there is no word of a symbol. -/
lemma longestClaimed_eq_zero (h : Spells m symbols vocabulary keywords settings)
    (hk : ¬ ∃ k, m.Longest (t.drop i) k) : longestClaimed vocabulary keywords settings t i = 0 := by
  classical
  rw [longestClaimed, Nat.findGreatest_eq_zero_iff]
  rintro j - hle ⟨hpos, hclaims⟩
  refine hk (Nfa.exists_longest ⟨j, ?_, by simpa using hpos, (h.accepts_main_iff _).2 hclaims⟩)
  rwa [List.length_drop]

/-- A scan attempt by attempt finds the longest words, each from where the one before could not be
read on. -/
lemma eq_munch_of_scan (h : Spells m symbols vocabulary keywords settings) {spans : List Span}
    (hscan : m.Scan t i spans) :
    munch vocabulary keywords settings (fun i _ => i + m.stretch t i) t i = spans := by
  induction hscan with
  | done hi => exact munch_of_le hi
  | @hit i n k spans hi hn hk _ ih =>
      have hpos : 1 ≤ k := hk.1.2.1
      rw [munch_of_lt hi, longestClaimed_eq h hk, if_pos hpos, Nfa.stretch_eq hn, ih]
      rfl
  | @miss i n spans hi hn hk _ ih =>
      rw [munch_of_lt hi, longestClaimed_eq_zero h hk, if_neg (by omega), Nfa.stretch_eq hn, ih]
      rfl

/-- The longest word of a symbol lies in the stretch that can be read. -/
lemma longestClaimed_le (h : Spells m symbols vocabulary keywords settings)
    (hn : m.Lasts (t.drop i) n) : longestClaimed vocabulary keywords settings t i ≤ n := by
  by_cases hk : ∃ k, m.Longest (t.drop i) k
  · obtain ⟨k, hk⟩ := hk
    rw [longestClaimed_eq h hk]
    exact hk.le_stretch hn
  · rw [longestClaimed_eq_zero h hk]
    exact Nat.zero_le n

/-- If no attempt reads past the longest word, or past one symbol where there is none, the longest
words are found from where the one before ends. -/
lemma munch_eq (h : Spells m symbols vocabulary keywords settings)
    (hread : ∀ j, m.Attempt t i j → j < t.length →
      m.stretch t j ≤ max (longestClaimed vocabulary keywords settings t j) 1) :
    munch vocabulary keywords settings (fun i _ => i + m.stretch t i) t i =
      munch vocabulary keywords settings (fun i k => i + k) t i := by
  induction hlen : t.length - i using Nat.strong_induction_on generalizing i with
  | _ len ih =>
      by_cases hi : i < t.length
      · obtain ⟨n, hn⟩ := m.exists_lasts (t.drop i)
        have hstretch := Nfa.stretch_eq hn
        have hle := longestClaimed_le h hn
        have hmost := hread i (.here i) hi
        have hnext : max (i + m.stretch t i) (i + 1) =
            max (i + longestClaimed vocabulary keywords settings t i) (i + 1) := by omega
        have hrest := ih (t.length - max (i + m.stretch t i) (i + 1)) (by omega)
          (fun j hj => hread j (.next hi hn (hstretch ▸ hj))) rfl
        rw [munch_of_lt hi, munch_of_lt hi, hrest, hnext]
      · rw [munch_of_le (by omega), munch_of_le (by omega)]

end Longest

/-- What a match is attributed to makes the token of the owner of its text. -/
lemma token?_eq_ownToken (h : build vocabulary keywords settings = .ok lexer) (row : Nat)
    (hx : x ∈ lexer.regex.matchesIn line) :
    lexer.token? row line x = ownToken vocabulary keywords settings row line x.span := by
  rw [token?, ownToken, x.extract_span, symbolOf_eq_owner h hx, String.ofList_toList]

/-- If no state has a transition on the sentinel, the matches in a line are the longest words of the
symbols, each found from where the automaton could not read on after the one before, but always
further on. They are attributed to their owners, whose tokens are those of the line. If the automaton
never reads past such a word, nor past one symbol where there is none, each of these words is found
from where the one before ends. -/
theorem lineTokens_eq_munch (h : build vocabulary keywords settings = .ok lexer)
    (hc : ∀ q ∈ lexer.regex.dfa.states, lexer.regex.dfa.next? q '\x00' = none)
    (row : Nat) (line : String) :
    ∃ spans, spans = munch vocabulary keywords settings
        (fun i _ => i + lexer.regex.nfa.stretch line.toList i) line.toList 0 ∧
      (lexer.regex.matchesIn line).map (fun x => (x.span, lexer.symbolOf x)) =
        spans.map (fun s =>
          (s, owner vocabulary keywords settings (line.toList.extract s.start s.stop))) ∧
      lexer.lineTokens row line = spans.filterMap (ownToken vocabulary keywords settings row line) ∧
      ((∀ j, lexer.regex.nfa.Attempt line.toList 0 j → j < line.toList.length →
          lexer.regex.nfa.stretch line.toList j ≤
            max (longestClaimed vocabulary keywords settings line.toList j) 1) →
        spans = munch vocabulary keywords settings (fun i k => i + k) line.toList 0) := by
  have hspells := spells_of_build h
  have hscan := Regex.scan_matchesIn (r := lexer.regex) (by rwa [sentinel_of_build h]) line
  have hspans := eq_munch_of_scan hspells hscan
  refine ⟨_, rfl, ?_, ?_, fun hread => munch_eq hspells hread⟩
  · rw [hspans, List.map_map]
    refine List.map_congr_left fun x hx => ?_
    show _ = (x.span, owner vocabulary keywords settings _)
    rw [symbolOf_eq_owner h hx, x.extract_span]
  · rw [hspans, lineTokens, List.filterMap_map]
    exact List.filterMap_congr fun x hx => token?_eq_ownToken h row hx

/-- In `ab` the run that finds the keyword `a` reads the `b`, too, which the keyword `abc` goes on
with, and so the keyword `b` is not found. -/
theorem lineTokens_eq_munch_of_run_past_keyword :
    ∃ lexer, build ∅ (.ofList ["a", "abc", "b"]) {} = .ok lexer ∧
      (munch ∅ (.ofList ["a", "abc", "b"]) {} (fun i _ => i + lexer.regex.nfa.stretch "ab".toList i)
        "ab".toList 0).filterMap (ownToken ∅ (.ofList ["a", "abc", "b"]) {} 0 "ab") =
          [⟨"a", "a", 0, 0⟩] := by
  obtain ⟨lexer, hlexer, hc, hfound⟩ := exists_ok_of_decide (x := build ∅ (.ofList ["a", "abc", "b"]) {})
    (P := fun lexer => (∀ q ∈ lexer.regex.dfa.states, lexer.regex.dfa.next? q '\x00' = none) ∧
      lexer.lineTokens 0 "ab" = [⟨"a", "a", 0, 0⟩]) (by decide +kernel)
  obtain ⟨spans, rfl, -, htokens, -⟩ := lineTokens_eq_munch hlexer hc 0 "ab"
  exact ⟨lexer, hlexer, htokens.symm.trans hfound⟩

/-- In `ab` the longest words, each from where the one before ends, are those of the keywords `a` and
`b`, but only the first of them is found. -/
theorem not_lineTokens_eq_munch :
    ∃ lexer, build ∅ (.ofList ["a", "abc", "b"]) {} = .ok lexer ∧
      (∀ q ∈ lexer.regex.dfa.states, lexer.regex.dfa.next? q '\x00' = none) ∧
      lexer.lineTokens 0 "ab" = [⟨"a", "a", 0, 0⟩] ∧
      (munch ∅ (.ofList ["a", "abc", "b"]) {} (fun i k => i + k) "ab".toList 0).filterMap
        (ownToken ∅ (.ofList ["a", "abc", "b"]) {} 0 "ab") =
          [⟨"a", "a", 0, 0⟩, ⟨"b", "b", 0, 1⟩] := by
  obtain ⟨lexer, hlexer, hc, htokens, x, hx, hspan⟩ := exists_ok_of_decide
    (x := build ∅ (.ofList ["a", "abc", "b"]) {})
    (P := fun lexer => (∀ q ∈ lexer.regex.dfa.states, lexer.regex.dfa.next? q '\x00' = none) ∧
      lexer.lineTokens 0 "ab" = [⟨"a", "a", 0, 0⟩] ∧
        ∃ x ∈ lexer.regex.matchesIn "ab", x.span = ⟨0, 1⟩) (by decide +kernel)
  refine ⟨lexer, hlexer, hc, htokens, ?_⟩
  have hfirst : longestClaimed ∅ (.ofList ["a", "abc", "b"]) {} "ab".toList 0 = 1 := by
    refine longestClaimed_eq_of_claims (by decide) le_rfl
      ⟨.keyword "a", by simp [Symbol.Belongs], rfl⟩ ?_
    rintro j hj hle ⟨symbol, hbelongs, hclaims⟩
    obtain rfl : j = 2 := by
      have hle : j ≤ 2 := hle
      omega
    have hnot := not_claims_of_lt hlexer hc hx (k := 2) (by rw [hspan]; decide) (by decide) hbelongs
    rw [hspan] at hnot
    exact hnot hclaims
  have hsecond : longestClaimed ∅ (.ofList ["a", "abc", "b"]) {} "ab".toList 1 = 1 := by
    refine longestClaimed_eq_of_claims (by decide) le_rfl
      ⟨.keyword "b", by simp [Symbol.Belongs], rfl⟩ ?_
    intro j hj hle
    have hle : j ≤ 1 := hle
    omega
  have hspans : munch ∅ (.ofList ["a", "abc", "b"]) {} (fun i k => i + k) "ab".toList 0 =
      [⟨0, 1⟩, ⟨1, 2⟩] := by
    rw [munch_of_lt (by decide), hfirst]
    show [_] ++ munch _ _ _ _ _ 1 = _
    rw [munch_of_lt (by decide), hsecond]
    show [_] ++ ([_] ++ munch _ _ _ _ _ 2) = _
    rw [munch_of_le (by decide)]
    rfl
  have ha : owner ∅ (.ofList ["a", "abc", "b"]) {} ("ab".toList.extract 0 1) = some (.keyword "a") :=
    if_pos (by simp)
  have hb : owner ∅ (.ofList ["a", "abc", "b"]) {} ("ab".toList.extract 1 2) = some (.keyword "b") :=
    if_pos (by simp)
  rw [hspans]
  simp only [List.filterMap_cons, List.filterMap_nil, ownToken, ha, hb]
  rfl

end Lexer

end CaptureAutomata
