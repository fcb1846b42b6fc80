/-
Runs of a deterministic automaton over a tape:

* `Dfa.runFrom`: a run up to the first dead transition or the end of the symbols. Leaving a state
  closes the open tags that end in it and then opens the tags that start in it; staying in it does
  neither;
* `Dfa.evaluate`: the spans of the tags that a run over a tape closes, and the tape after it;
* `Dfa.runsFrom`, `Dfa.evaluateAll`: the runs over all symbols. The next one starts on the symbol
  that ended the run, but always further on than the run did;
* `Dfa.advance`, `Dfa.nextSpans`: the same one at a time: where a run leaves the tape, and the spans
  of the next run that closes any.
-/
import CaptureAutomata.Dfa.Basic
import CaptureAutomata.Span
import CaptureAutomata.Tape

namespace CaptureAutomata.Dfa

variable {D A T : Type} [Key D] [Key A] [Key T]

/-- Spans by the names of the tags that cover them. -/
abbrev Spans (T : Type) [Key T] : Type := KeyMap T Span

/-- Closes at `position` the open tags that end in `d`; they stay open. -/
def closeTags (m : Dfa D A T) (d : D) (position : Nat) (opened : KeyMap T Nat) (closed : Spans T) :
    Spans T :=
  opened.toList.foldl
    (fun closed p =>
      if p.1 ∈ m.tagsEnding d then closed.insert p.1 ⟨p.2, position⟩ else closed)
    closed

/-- Opens at `position` the tags that start in `d`. -/
def openTags (m : Dfa D A T) (d : D) (position : Nat) (opened : KeyMap T Nat) : KeyMap T Nat :=
  (m.tagsStarting d).toList.foldl (fun opened name => opened.insert name position) opened

/-- The run that is in `d` before the symbol at `position`: the closed spans at its end, and the
position just past the last symbol read. -/
def runFrom (m : Dfa D A T) (d : D) (position : Nat) (opened : KeyMap T Nat) (closed : Spans T) :
    List A → Spans T × Nat
  | [] => (closed, position)
  | a :: rest =>
    match m.next? d a with
    | none => (m.closeTags d position opened closed, position + 1)
    | some d' =>
      if d' = d then m.runFrom d (position + 1) opened closed rest
      else
        m.runFrom d' (position + 1) (m.openTags d position opened)
          (m.closeTags d position opened closed) rest

/-- The spans that a run over the symbols from `position` on closes, if any, and the position just
past the last symbol read. -/
def run (m : Dfa D A T) (position : Nat) (symbols : List A) : Option (Spans T) × Nat :=
  let (closed, index) := m.runFrom m.initial position ∅ ∅ symbols
  (if closed.isEmpty then none else some closed, index)

/-- The spans that a run over the rest of the tape closes, if any, and the tape just past the last
symbol read. -/
def evaluate (m : Dfa D A T) (tape : Tape A) : Option (Spans T) × Tape A :=
  let (closed, index) := m.run tape.index tape.remaining
  (closed, tape.reset index)

/-- Where the next run starts after one that started at `start` and ended just before `index`. -/
def restart (start index : Nat) : Nat :=
  max (index - 1) (start + 1)

/-- The starts of the successive runs over the symbols from `position` on, and the spans they
close. -/
def runsFrom (m : Dfa D A T) (position : Nat) : List A → List (Nat × Option (Spans T))
  | [] => []
  | a :: rest =>
    let (closed, index) := m.run position (a :: rest)
    let next := restart position index
    (position, closed) :: m.runsFrom next (rest.drop (next - position - 1))
termination_by symbols => symbols.length
decreasing_by
  simp only [List.length_drop, List.length_cons]
  omega

/-- The starts of the successive runs over the rest of the tape, and the spans they close. -/
def runs (m : Dfa D A T) (tape : Tape A) : List (Nat × Option (Spans T)) :=
  m.runsFrom tape.index tape.remaining

/-- The spans closed by the successive runs that close any. -/
def evaluateAll (m : Dfa D A T) (tape : Tape A) : List (Spans T) :=
  (m.runs tape).filterMap (·.2)

/-! ### One run at a time -/

/-- The tape where the run after the next one starts. -/
def advance (m : Dfa D A T) (tape : Tape A) : Tape A :=
  tape.reset (restart tape.index (m.evaluate tape).2.index)

/-- A run leaves the tape further on. -/
theorem index_lt_advance (m : Dfa D A T) (tape : Tape A) : tape.index < (m.advance tape).index :=
  Nat.le_max_right _ _

/-- If it was not done, fewer symbols are left behind a run. -/
theorem left_advance_lt (m : Dfa D A T) {tape : Tape A} (h : ¬ tape.isDone = true) :
    (m.advance tape).length - (m.advance tape).index < tape.length - tape.index := by
  have hlt := Tape.not_isDone_iff.1 h
  have hadvance := m.index_lt_advance tape
  have hlength : (m.advance tape).length = tape.length := rfl
  omega

/-- The spans closed by the next run that closes any, and the tape where the run after it starts. -/
def nextSpans (m : Dfa D A T) (tape : Tape A) : Option (Spans T) × Tape A :=
  if tape.isDone then (none, tape)
  else
    match (m.evaluate tape).1 with
    | some spans => (some spans, m.advance tape)
    | none => m.nextSpans (m.advance tape)
termination_by tape.length - tape.index
decreasing_by exact m.left_advance_lt (by assumption)

/-- Spans are closed by a run over some of the symbols that are left, which leaves the tape further
on. -/
theorem nextSpans_some {m : Dfa D A T} {tape tape' : Tape A} {spans : Spans T}
    (h : m.nextSpans tape = (some spans, tape')) :
    tape.index < tape'.index ∧ tape.index < tape.length ∧ tape'.symbols = tape.symbols := by
  induction tape using nextSpans.induct m with
  | case1 tape hdone =>
    rw [nextSpans, if_pos hdone] at h
    cases h
  | case2 tape hdone found hfound =>
    rw [nextSpans, if_neg hdone, hfound] at h
    cases h
    exact ⟨m.index_lt_advance tape, Tape.not_isDone_iff.1 hdone, rfl⟩
  | case3 tape hdone hnone ih =>
    rw [nextSpans, if_neg hdone, hnone] at h
    obtain ⟨hindex, -, hsymbols⟩ := ih h
    exact ⟨Nat.lt_trans (m.index_lt_advance tape) hindex, Tape.not_isDone_iff.1 hdone, hsymbols⟩

/-- Fewer symbols are left where spans were closed. -/
theorem left_nextSpans_lt {m : Dfa D A T} {tape tape' : Tape A} {spans : Spans T}
    (h : m.nextSpans tape = (some spans, tape')) :
    tape'.length - tape'.index < tape.length - tape.index := by
  obtain ⟨hindex, hlt, hsymbols⟩ := nextSpans_some h
  have hlength : tape'.length = tape.length := congrArg List.length hsymbols
  omega

end CaptureAutomata.Dfa
