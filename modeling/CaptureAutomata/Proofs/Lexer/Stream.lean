/-
The tokens of some lines, from call to call:

* `Lexer.Stream.tokensLeft`: the tokens that are still to come. Reading a line and passing over text
  between tokens leave them as they are, and a match of a symbol takes the first of them;
* `Lexer.lists_nextToken`: so one call after the other gives them;
* `Lexer.text_of_mem_lineTokens`, `Lexer.pairwise_lineTokens`: the tokens of a line are parts of it, and
  follow each other;
* `Lexer.Accounts`: tokens that tell of some lines what those of every single line tell of it, in order;
* `Lexer.stream_accounts`: the stream of some lines gives such tokens, then one for the end, and then
  nothing any more.
-/
import CaptureAutomata.Lexer.Stream
import CaptureAutomata.Proofs.Regex.Order

namespace CaptureAutomata.Lexer

variable {lexer : Lexer} {s : Stream} {line : Line} {row : Nat} {text : String} {lines : List String}
  {found : Match} {tape : Tape Char} {t : Token}

/-! ### What is still to come -/

/-- The end of the last one of some matches, or `stop` if there is none. -/
def lastStopOf (stop : Nat) (found : List Match) : Nat :=
  (found.getLast?.map (·.span.stop)).getD stop

@[simp] lemma lastStopOf_cons (stop : Nat) (x : Match) (xs : List Match) :
    lastStopOf stop (x :: xs) = lastStopOf x.span.stop xs := by
  rw [lastStopOf, lastStopOf, List.getLast?_cons]
  cases xs.getLast? <;> rfl

/-- The tokens of lines whose numbers go on from `row`. -/
def tokensFrom (lexer : Lexer) (row : Nat) (lines : List String) : List Token :=
  (lines.zipIdx row).flatMap fun p => lexer.lineTokens p.2 p.1

@[simp] lemma tokensFrom_cons (lexer : Lexer) (row : Nat) (text : String) (rest : List String) :
    lexer.tokensFrom row (text :: rest) =
      lexer.lineTokens row text ++ lexer.tokensFrom (row + 1) rest := by
  rw [tokensFrom, List.zipIdx_cons, List.flatMap_cons, tokensFrom]

namespace Stream

/-- The matches that are left in the line that is being split. -/
def matchesLeft (lexer : Lexer) (s : Stream) : List Match :=
  match s.line with
  | none => []
  | some line => lexer.regex.matchesOn line.tape

/-- The tokens that are left in this line. -/
def lineLeft (lexer : Lexer) (s : Stream) : List Token :=
  match s.line with
  | none => []
  | some line => (lexer.regex.matchesOn line.tape).filterMap (lexer.token? line.row line.text)

/-- The number of the line that will be the last one. -/
def endRow (s : Stream) : Nat :=
  match s.lines with
  | [] => s.lastRow
  | _ :: rest => s.row + rest.length

/-- The end of the match that will be the last one. -/
def endStop (lexer : Lexer) (s : Stream) : Nat :=
  lastStopOf s.lastStop (s.matchesLeft lexer ++ s.lines.flatMap lexer.regex.matchesIn)

/-- The token at the end, as long as it has not been given. -/
def endLeft (lexer : Lexer) (s : Stream) : List Token :=
  bif s.done then [] else [⟨lexer.settings.eof, "", s.endRow, s.endStop lexer⟩]

/-- The tokens that are still to come. -/
def tokensLeft (lexer : Lexer) (s : Stream) : List Token :=
  s.lineLeft lexer ++ lexer.tokensFrom s.row s.lines ++ s.endLeft lexer

/-- Behind a match the tokens are left that come after its own. -/
lemma tokensLeft_pass (hline : s.line = some line)
    (hfound : lexer.regex.nextMatch line.tape = (some found, tape)) :
    s.tokensLeft lexer = (lexer.token? line.row line.text found).toList ++
      (s.pass line tape found.span.stop).tokensLeft lexer := by
  have hmatches := lexer.regex.lists_nextMatch.eq_cons hfound
  have hstop : s.endStop lexer = (s.pass line tape found.span.stop).endStop lexer := by
    simp only [endStop, matchesLeft, pass, hline, hmatches, List.cons_append, lastStopOf_cons]
  have hend : s.endLeft lexer = (s.pass line tape found.span.stop).endLeft lexer := by
    rw [endLeft, hstop]
    rfl
  have hleft : s.lineLeft lexer = (lexer.token? line.row line.text found).toList ++
      (s.pass line tape found.span.stop).lineLeft lexer := by
    simp only [lineLeft, pass, hline, hmatches, List.filterMap_cons]
    cases lexer.token? line.row line.text found <;> rfl
  rw [tokensLeft, hleft, hend, List.append_assoc, List.append_assoc, tokensLeft, List.append_assoc]
  rfl

/-- A line without further matches has no further tokens. -/
lemma tokensLeft_leaveLine (hline : s.line = some line)
    (hnone : lexer.regex.nextMatch line.tape = (none, tape)) :
    s.tokensLeft lexer = s.leaveLine.tokensLeft lexer := by
  obtain ⟨hmatches, -⟩ := lexer.regex.lists_nextMatch.eq_nil hnone
  have hstop : s.endStop lexer = s.leaveLine.endStop lexer := by
    simp only [endStop, matchesLeft, leaveLine, hline, hmatches]
  have hleft : s.lineLeft lexer = [] := by
    simp only [lineLeft, hline, hmatches, List.filterMap_nil]
  rw [tokensLeft, hleft, endLeft, hstop]
  rfl

/-- A line that is read has the tokens that were to come of it. -/
lemma tokensLeft_readLine {rest : List String} (hline : s.line = none) (hlines : s.lines = text :: rest) :
    s.tokensLeft lexer = (s.readLine text rest (lexer.regex.tape text)).tokensLeft lexer := by
  have hrow : s.endRow = (s.readLine text rest (lexer.regex.tape text)).endRow := by
    simp only [endRow, readLine, hlines]
    cases rest with
    | nil => rfl
    | cons other rest => exact (Nat.succ_add_eq_add_succ _ _).symm
  have hstop : s.endStop lexer = (s.readLine text rest (lexer.regex.tape text)).endStop lexer := by
    simp only [endStop, matchesLeft, readLine, hline, hlines, List.nil_append]
    rfl
  have hleft : s.lineLeft lexer = [] := by rw [lineLeft, hline]
  rw [tokensLeft, hleft, hlines, tokensFrom_cons, endLeft, hrow, hstop]
  rfl

/-- Behind the last line only the token at the end is to come. -/
lemma tokensLeft_of_lines_eq_nil (hline : s.line = none) (hlines : s.lines = []) :
    s.tokensLeft lexer =
      bif s.done then [] else [⟨lexer.settings.eof, "", s.lastRow, s.lastStop⟩] := by
  simp only [tokensLeft, lineLeft, endLeft, endRow, endStop, matchesLeft, hline, hlines]
  rfl

end Stream

/-- One call after the other gives the tokens that are to come. -/
lemma lists_nextToken (lexer : Lexer) :
    Iterator.Lists lexer.nextToken (Stream.tokensLeft lexer) := by
  refine .of_call fun s => ?_
  fun_induction nextToken lexer s with
  | case1 s line hline found tape hfound token htoken =>
      rw [Stream.tokensLeft_pass hline hfound, htoken]
      exact ⟨rfl, rfl⟩
  | case2 s line hline found tape hfound hnone ih =>
      rw [Stream.tokensLeft_pass hline hfound, hnone]
      exact ih
  | case3 s line hline tape hnone ih =>
      rw [Stream.tokensLeft_leaveLine hline hnone]
      exact ih
  | case4 s hline text rest hlines ih =>
      rw [Stream.tokensLeft_readLine hline hlines]
      exact ih
  | case5 s hline hlines hdone =>
      rw [Stream.tokensLeft_of_lines_eq_nil hline hlines, hdone]
      exact ⟨rfl, rfl⟩
  | case6 s hline hlines hdone =>
      rw [Stream.tokensLeft_of_lines_eq_nil hline hlines, Bool.eq_false_iff.2 hdone]
      exact ⟨rfl, Stream.tokensLeft_of_lines_eq_nil hline hlines⟩

/-- At the start all tokens of the lines are to come. -/
lemma tokensLeft_stream (lexer : Lexer) (lines : List String) :
    (stream lines).tokensLeft lexer = lexer.tokenize lines := by
  have hrow : (stream lines).endRow = lines.length - 1 := by
    cases lines with
    | nil => rfl
    | cons text rest => exact Nat.zero_add _
  rw [Stream.tokensLeft, Stream.endLeft, hrow]
  rfl

/-! ### The tokens of a line -/

/-- The tokens of a line are parts of it. -/
lemma text_of_mem_lineTokens (ht : t ∈ lexer.lineTokens row text) :
    t.row = row ∧ t.text ≠ "" ∧
      t.text.toList = text.toList.extract t.column (t.column + t.text.length) := by
  obtain ⟨x, hx, htoken⟩ := List.mem_filterMap.1 ht
  obtain ⟨symbol, -, rfl⟩ := Option.map_eq_some_iff.1 htoken
  have hfits := Regex.fits_of_mem hx
  have hlength := x.length_text hfits.stop_le
  have hpos : 0 < (x.text text).length := by
    rw [hlength]
    exact Nat.sub_pos_of_lt hfits.start_lt_stop
  refine ⟨rfl, fun hempty => ?_, ?_⟩
  · have hempty : x.text text = "" := hempty
    rw [hempty] at hpos
    exact Nat.lt_irrefl 0 hpos
  · show (x.text text).toList = text.toList.extract x.span.start (x.span.start + (x.text text).length)
    rw [hlength, Nat.add_sub_cancel' hfits.start_lt_stop.le, x.extract_span]

/-- Each token of a line ends before the later ones start. -/
lemma pairwise_lineTokens (lexer : Lexer) (row : Nat) (text : String) :
    (lexer.lineTokens row text).Pairwise fun t u => t.column + t.text.length ≤ u.column := by
  rw [lineTokens, List.pairwise_filterMap]
  refine (lexer.regex.pairwise_matchesIn text).imp_of_mem fun {x y} hx _ hxy t ht u hu => ?_
  obtain ⟨_, -, rfl⟩ := Option.map_eq_some_iff.1 ht
  obtain ⟨_, -, rfl⟩ := Option.map_eq_some_iff.1 hu
  have hfits := Regex.fits_of_mem hx
  show x.span.start + (x.text text).length ≤ y.span.start
  rwa [x.length_text hfits.stop_le, Nat.add_sub_cancel' hfits.start_lt_stop.le]

/-- The tokens of a line are those that it has on its own, with the number of the line. -/
lemma lineTokens_eq_map (lexer : Lexer) (row : Nat) (text : String) :
    lexer.lineTokens row text = (lexer.tokenize [text]).dropLast.map fun t => { t with row } := by
  have halone : (lexer.tokenize [text]).dropLast = lexer.lineTokens 0 text := by
    rw [tokenize, List.dropLast_concat]
    exact List.append_nil _
  rw [halone, lineTokens, lineTokens, List.map_filterMap]
  refine List.filterMap_congr fun x _ => ?_
  rw [token?, token?, Option.map_map]
  rfl

/-! ### The tokens of all lines -/

/-- The tokens of lines are on these lines. -/
lemma exists_of_mem_tokensFrom (ht : t ∈ lexer.tokensFrom row lines) :
    ∃ n line, lines[n]? = some line ∧ t ∈ lexer.lineTokens (row + n) line := by
  obtain ⟨⟨line, k⟩, hline, ht⟩ := List.mem_flatMap.1 ht
  obtain ⟨hle, hline⟩ := List.mk_mem_zipIdx_iff_le_and_getElem?_sub.1 hline
  exact ⟨k - row, line, hline, by rwa [Nat.add_sub_cancel' hle]⟩

lemma row_le_of_mem_tokensFrom (ht : t ∈ lexer.tokensFrom row lines) : row ≤ t.row := by
  obtain ⟨n, line, -, ht⟩ := exists_of_mem_tokensFrom ht
  rw [(text_of_mem_lineTokens ht).1]
  exact Nat.le_add_right row n

/-- Of two tokens the later one is on a later line, or starts behind the other one. -/
lemma pairwise_tokensFrom (lexer : Lexer) (row : Nat) (lines : List String) :
    (lexer.tokensFrom row lines).Pairwise fun t u =>
      t.row < u.row ∨ t.row = u.row ∧ t.column + t.text.length ≤ u.column := by
  induction lines generalizing row with
  | nil => exact .nil
  | cons text rest ih =>
      rw [tokensFrom_cons, List.pairwise_append]
      refine ⟨?_, ih (row + 1), fun t ht u hu => ?_⟩
      · refine (lexer.pairwise_lineTokens row text).imp_of_mem fun ht hu htu => Or.inr ⟨?_, htu⟩
        rw [(text_of_mem_lineTokens ht).1, (text_of_mem_lineTokens hu).1]
      · rw [(text_of_mem_lineTokens ht).1]
        exact Or.inl (row_le_of_mem_tokensFrom hu)

/-- The tokens on a line are those of this line. -/
lemma filter_tokensFrom {n : Nat} (hline : lines[n]? = some text) :
    (lexer.tokensFrom row lines).filter (·.row = row + n) = lexer.lineTokens (row + n) text := by
  induction lines generalizing row n with
  | nil => cases hline
  | cons first rest ih =>
      rw [tokensFrom_cons, List.filter_append]
      cases n with
      | zero =>
          obtain rfl : first = text := Option.some.inj hline
          have hrest : (lexer.tokensFrom (row + 1) rest).filter (·.row = row) = [] := by
            refine List.filter_eq_nil_iff.2 fun t ht => ?_
            rw [decide_eq_true_eq]
            exact Nat.ne_of_gt (row_le_of_mem_tokensFrom ht)
          rw [Nat.add_zero, hrest, List.append_nil]
          exact List.filter_eq_self.2 fun t ht => decide_eq_true (text_of_mem_lineTokens ht).1
      | succ n =>
          have hfirst : (lexer.lineTokens row first).filter (·.row = row + (n + 1)) = [] := by
            refine List.filter_eq_nil_iff.2 fun t ht => ?_
            rw [(text_of_mem_lineTokens ht).1, decide_eq_true_eq]
            exact (Nat.lt_add_of_pos_right n.succ_pos).ne
          rw [hfirst, List.nil_append, Nat.add_comm n 1, ← Nat.add_assoc]
          exact ih hline

/-! ### What the stream tells of the lines -/

/-- Tokens that tell of some lines, in order, what every single line has. -/
structure Accounts (lexer : Lexer) (lines : List String) (tokens : List Token) : Prop where
  /-- Each is a part of the line with its number, and not empty. -/
  text_eq : ∀ t ∈ tokens, t.text ≠ "" ∧ ∃ line, lines[t.row]? = some line ∧
    t.text.toList = line.toList.extract t.column (t.column + t.text.length)
  /-- Each is on a later line than the ones before, or starts where they have ended. -/
  ordered : tokens.Pairwise fun t u =>
    t.row < u.row ∨ t.row = u.row ∧ t.column + t.text.length ≤ u.column
  /-- Those on a line are the ones that it has on its own, apart from the one at the end. -/
  filter_row : ∀ row line, lines[row]? = some line →
    tokens.filter (·.row = row) = (lexer.tokenize [line]).dropLast.map fun t => { t with row }

/-- The tokens before the one at the end tell of the lines. -/
lemma accounts_tokensFrom (lexer : Lexer) (lines : List String) :
    lexer.Accounts lines (lexer.tokensFrom 0 lines) where
  text_eq t ht := by
    obtain ⟨n, line, hline, ht⟩ := exists_of_mem_tokensFrom ht
    obtain ⟨hrow, hne, htext⟩ := text_of_mem_lineTokens ht
    rw [Nat.zero_add] at hrow
    exact ⟨hne, line, by rwa [hrow], htext⟩
  ordered := lexer.pairwise_tokensFrom 0 lines
  filter_row row line hline := by
    rw [← lineTokens_eq_map]
    have hfilter : (lexer.tokensFrom 0 lines).filter (·.row = 0 + row) = _ := filter_tokensFrom hline
    rwa [Nat.zero_add] at hfilter

/-- The stream of some lines gives finitely many tokens, which tell of the lines, and then one more for
the end and nothing any more. The last one has no text. It is on the last line, in the column where the
last match on any line ended, whether or not it made a token. -/
theorem stream_accounts (lexer : Lexer) (lines : List String) :
    ∃ tokens last, lexer.Accounts lines tokens ∧
      (∀ n, Iterator.nth lexer.nextToken (stream lines) n = (tokens ++ [last])[n]?) ∧
      lexer.tokenize lines = tokens ++ [last] ∧
      last.symbol = lexer.settings.eof ∧ last.text = "" ∧ last.row = lines.length - 1 ∧
      (lines.flatMap lexer.regex.matchesIn = [] → last.column = 0) ∧
      (∀ found, (lines.flatMap lexer.regex.matchesIn).getLast? = some found →
        last.column = found.span.stop) := by
  refine ⟨lexer.tokensFrom 0 lines, lexer.endToken lines, lexer.accounts_tokensFrom lines, fun n => ?_,
    rfl, rfl, rfl, rfl, fun hnone => ?_, fun found hfound => ?_⟩
  · rw [(lexer.lists_nextToken).nth_eq, tokensLeft_stream]
    rfl
  · show lexer.lastStop lines = 0
    rw [lastStop, hnone]
    rfl
  · show lexer.lastStop lines = found.span.stop
    rw [lastStop, hfound]
    rfl

end CaptureAutomata.Lexer
