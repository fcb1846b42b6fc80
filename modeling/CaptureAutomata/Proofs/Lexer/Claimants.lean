/-
The symbols that claim the text of a match:

* `Lexer.mem_candidates_of_claims`: a symbol besides the keywords spans a match if the text is one of its
  words;
* `Lexer.eq_or_ignored`: two such symbols have the same name in errors, so that they are the same unless
  one is the text between tokens and the other a rule with its name;
* `Lexer.eq_of_candidates_iff`: a match has at most one such symbol exactly if its text is not a word of
  both of these, and then it makes the token of the rule that has it as a word;
* `Lexer.not_eq_of_candidates`: a rule with the name of the text between tokens may share words with it.
-/
import CaptureAutomata.Proofs.Lexer.Munch

namespace CaptureAutomata.Lexer

variable {vocabulary : KeyMap String String} {keywords : KeySet String} {settings : Settings}
  {lexer : Lexer} {line : String} {x : Match} {y z : Symbol}

/-- A symbol that is no keyword spans a match if the text is one of its words. -/
lemma mem_candidates_of_claims (h : build vocabulary keywords settings = .ok lexer)
    (hx : x ∈ lexer.regex.matchesIn line) (hy : y.isKeyword = false)
    (hclaims : y.Claims vocabulary settings (x.text line).toList) : y ∈ lexer.candidates x := by
  obtain ⟨name, hname⟩ :=
    Option.isSome_iff_exists.1 (y.isSome_errorName?.trans (by rw [hy]; rfl))
  exact (mem_candidates_iff_claims h hx).2 ⟨hclaims.belongs keywords hname, hclaims⟩

/-- Two symbols that are no keywords and have a word in common are the same, unless they are the text
between tokens and a rule with its name. -/
lemma eq_or_ignored (h : build vocabulary keywords settings = .ok lexer) {w : List Char}
    (hy : y.isKeyword = false) (hz : z.isKeyword = false) (hcy : y.Claims vocabulary settings w)
    (hcz : z.Claims vocabulary settings w) :
    y = z ∨ Symbol.ignored.Claims vocabulary settings w ∧
      (Symbol.rule ignoredName).Claims vocabulary settings w := by
  cases y with
  | keyword name => cases hy
  | ignored =>
      cases z with
      | keyword name => cases hz
      | ignored => exact Or.inl rfl
      | rule name =>
          obtain rfl : ignoredName = name := eq_of_claims h rfl rfl hcy hcz
          exact Or.inr ⟨hcy, hcz⟩
  | rule name =>
      cases z with
      | keyword name => cases hz
      | ignored =>
          obtain rfl : name = ignoredName := eq_of_claims h rfl rfl hcy hcz
          exact Or.inr ⟨hcz, hcy⟩
      | rule other =>
          obtain rfl : name = other := eq_of_claims h rfl rfl hcy hcz
          exact Or.inl rfl

/-- What is a word of a rule, but neither a keyword nor text between tokens, makes a token of the rule. -/
lemma token?_of_rule (h : build vocabulary keywords settings = .ok lexer) (row : Nat)
    (hx : x ∈ lexer.regex.matchesIn line) (hkeyword : x.text line ∉ keywords)
    (hignored : ¬ Symbol.ignored.Claims vocabulary settings (x.text line).toList) {name : String}
    (hrule : (Symbol.rule name).Claims vocabulary settings (x.text line).toList) :
    lexer.token? row line x = some ⟨name, x.text line, row, x.span.start⟩ := by
  have howner : owner vocabulary keywords settings (x.text line).toList = some (.rule name) := by
    rw [owner, String.ofList_toList, if_neg hkeyword, if_neg hignored,
      find?_rule h (hrule.belongs keywords rfl) hrule]
    rfl
  rw [token?_eq ((symbolOf_eq_owner h hx).trans howner)]
  rfl

/-- If a lexer could be built, then at most one symbol besides the keywords spans a match, exactly if the
text is not a word of both the text between tokens and a rule with its name. Unless it is, and unless it is
a keyword, it makes a token of any rule that has it as a word. -/
theorem eq_of_candidates_iff (h : build vocabulary keywords settings = .ok lexer) (row : Nat)
    (hx : x ∈ lexer.regex.matchesIn line) :
    ((∀ y ∈ lexer.candidates x, ∀ z ∈ lexer.candidates x,
        y.isKeyword = false → z.isKeyword = false → y = z) ↔
      ¬ (Symbol.ignored.Claims vocabulary settings (x.text line).toList ∧
        (Symbol.rule ignoredName).Claims vocabulary settings (x.text line).toList)) ∧
    (¬ (Symbol.ignored.Claims vocabulary settings (x.text line).toList ∧
        (Symbol.rule ignoredName).Claims vocabulary settings (x.text line).toList) →
      x.text line ∉ keywords → ∀ name : String,
        (Symbol.rule name).Claims vocabulary settings (x.text line).toList →
          lexer.token? row line x = some ⟨name, x.text line, row, x.span.start⟩) := by
  refine ⟨⟨?_, ?_⟩, ?_⟩
  · rintro hunique ⟨hignored, hrule⟩
    have heq := hunique _ (mem_candidates_of_claims h hx rfl hignored) _
      (mem_candidates_of_claims h hx rfl hrule) rfl rfl
    cases heq
  · intro hboth y hy z hz hyk hzk
    obtain ⟨-, hcy⟩ := (mem_candidates_iff_claims h hx).1 hy
    obtain ⟨-, hcz⟩ := (mem_candidates_iff_claims h hx).1 hz
    exact (eq_or_ignored h hyk hzk hcy hcz).resolve_right hboth
  · intro hboth hkeyword name hrule
    refine token?_of_rule h row hx hkeyword (fun hignored => ?_) hrule
    -- the text between tokens and the rule would be the same symbol
    have heq := (eq_or_ignored h rfl rfl hignored hrule).resolve_right hboth
    cases heq

/-- A rule with the name of the text between tokens that has other words makes tokens of its own. -/
theorem eq_of_candidates_of_other_letter :
    ∃ lexer x, build (.ofList [("<IGNORE>", "a")]) ∅ {} = .ok lexer ∧
      x ∈ lexer.regex.matchesIn " a" ∧ lexer.candidates x = [.rule "<IGNORE>"] ∧
      lexer.token? 0 " a" x = some ⟨"<IGNORE>", "a", 0, 1⟩ := by
  obtain ⟨lexer, hlexer, x, hx, hspan, hcandidates⟩ := exists_ok_of_decide
    (x := build (.ofList [("<IGNORE>", "a")]) ∅ {})
    (P := fun lexer => ∃ x ∈ lexer.regex.matchesIn " a",
      x.span = ⟨1, 2⟩ ∧ lexer.candidates x = [.rule "<IGNORE>"]) (by decide +kernel)
  obtain ⟨hiff, htoken⟩ := eq_of_candidates_iff hlexer 0 hx
  have hunique := hiff.1 fun y hy z hz _ _ => by
    rw [hcandidates, List.mem_singleton] at hy hz
    rw [hy, hz]
  have hmem : Symbol.rule "<IGNORE>" ∈ lexer.candidates x := by simp [hcandidates]
  obtain ⟨-, hrule⟩ := (mem_candidates_iff_claims hlexer hx).1 hmem
  have htext : x.text " a" = "a" := by
    rw [Match.text, hspan]
    rfl
  have hone := htoken hunique (by simp) _ hrule
  rw [htext, hspan] at hone
  exact ⟨lexer, x, hlexer, hx, hcandidates, hone⟩

/-- If a rule has the name of the text between tokens, and the blank as a word like this, the lexer can be
built all the same. Both of them span a blank, and it makes no token. -/
theorem not_eq_of_candidates :
    ∃ lexer x, build (.ofList [("<IGNORE>", " ")]) ∅ {} = .ok lexer ∧
      x ∈ lexer.regex.matchesIn " " ∧ lexer.candidates x = [.ignored, .rule "<IGNORE>"] ∧
      (¬ ∀ y ∈ lexer.candidates x, ∀ z ∈ lexer.candidates x,
        y.isKeyword = false → z.isKeyword = false → y = z) ∧
      lexer.token? 0 " " x = none := by
  obtain ⟨lexer, hlexer, x, hx, hcandidates, htoken⟩ := exists_ok_of_decide
    (x := build (.ofList [("<IGNORE>", " ")]) ∅ {})
    (P := fun lexer => ∃ x ∈ lexer.regex.matchesIn " ",
      lexer.candidates x = [.ignored, .rule "<IGNORE>"] ∧ lexer.token? 0 " " x = none)
    (by decide +kernel)
  refine ⟨lexer, x, hlexer, hx, hcandidates, fun hunique => ?_, htoken⟩
  have heq := hunique .ignored (by simp [hcandidates]) (.rule "<IGNORE>") (by simp [hcandidates])
    rfl rfl
  cases heq

end CaptureAutomata.Lexer
