/-
Scans of a tape always come further:

* `Dfa.runs_eq`, `Dfa.advance_induction`: the runs over a tape are the next one and those from where it
  leaves the tape, and there are no more when the tape is done;
* `Dfa.lists_nextSpans`: one call after the other gives what the runs close, and then nothing;
* `Dfa.isChain_runs`, `Dfa.Attempts`: each run starts where the one before left the tape, at a symbol,
  and reads at least this symbol and at most all that are left;
* `Dfa.evaluateAll_progress`: a scan ends, its runs start further and further on, and what it finds lies
  behind all that it found before.
-/
import CaptureAutomata.Iterator
import CaptureAutomata.Proofs.Dfa.Runs

namespace CaptureAutomata

lemma Tape.remaining_eq_nil_iff {A : Type} {t : Tape A} :
    t.remaining = [] ↔ t.isDone = true := by
  rw [remaining, List.drop_eq_nil_iff, isDone, decide_eq_true_eq, length]

namespace Dfa

variable {D A T : Type} [Key D] [Key A] [Key T] {m : Dfa D A T} {tape : Tape A}
  {x : Nat × Option (Spans T)}

/-! ### From run to run -/

/-- What holds of tapes that are done, and of a tape if it holds where the next run leaves it, holds of
all tapes. -/
@[elab_as_elim]
lemma advance_induction (m : Dfa D A T) {P : Tape A → Prop}
    (done : ∀ tape : Tape A, tape.isDone = true → P tape)
    (run : ∀ tape : Tape A, ¬ tape.isDone = true → P (m.advance tape) → P tape) (tape : Tape A) :
    P tape :=
  if h : tape.isDone = true then done tape h
  else run tape h (m.advance_induction done run (m.advance tape))
termination_by tape.length - tape.index
decreasing_by exact m.left_advance_lt h

lemma runs_of_isDone (h : tape.isDone = true) : m.runs tape = [] := by
  rw [runs, Tape.remaining_eq_nil_iff.2 h, runsFrom]

/-- The runs over a tape are the next one and those from where it leaves the tape. -/
lemma runs_eq (h : ¬ tape.isDone = true) :
    m.runs tape = (tape.index, (m.evaluate tape).1) :: m.runs (m.advance tape) := by
  have hne : tape.remaining ≠ [] := fun hnil => h (Tape.remaining_eq_nil_iff.1 hnil)
  have hlt := m.index_lt_advance tape
  have hrest : tape.remaining.drop ((m.advance tape).index - tape.index) =
      (m.advance tape).remaining := by
    rw [Tape.remaining, List.drop_drop, Nat.add_sub_cancel' hlt.le]
    rfl
  rw [runs, runsFrom_eq m tape.index hne, runs, ← hrest]
  rfl

/-- The first run starts where the tape stands. -/
lemma start_of_head? (h : x ∈ (m.runs tape).head?) : x.1 = tape.index := by
  by_cases hdone : tape.isDone = true
  · rw [runs_of_isDone hdone] at h
    cases h
  · rw [runs_eq hdone] at h
    obtain rfl := Option.some.inj h
    rfl

/-- One call after the other gives the spans that the runs close. -/
lemma lists_nextSpans (m : Dfa D A T) : Iterator.Lists m.nextSpans m.evaluateAll := by
  refine .of_call fun tape => ?_
  induction tape using m.advance_induction with
  | done tape hdone => simp [nextSpans, hdone, evaluateAll, runs_of_isDone hdone]
  | run tape hdone ih =>
      have hall : m.evaluateAll tape =
          ((m.evaluate tape).1.toList ++ m.evaluateAll (m.advance tape)) := by
        rw [evaluateAll, runs_eq hdone, List.filterMap_cons]
        cases (m.evaluate tape).1 <;> rfl
      rw [nextSpans, if_neg hdone, hall]
      cases (m.evaluate tape).1 with
      | some spans => exact ⟨rfl, rfl⟩
      | none => exact ih

/-! ### Single runs -/

/-- A run ends behind the symbol that it starts at or further on, but not behind the tape. -/
lemma index_evaluate (h : tape.index < tape.length) :
    tape.index < (m.evaluate tape).2.index ∧ (m.evaluate tape).2.index ≤ tape.length := by
  have hindex := m.runFrom_index m.initial tape.index ∅ ∅ tape.remaining
  have hlength : tape.remaining.length = tape.length - tape.index := List.length_drop
  have heq : (m.evaluate tape).2.index =
      tape.index + min (m.extent m.initial tape.remaining + 1) tape.remaining.length := hindex
  omega

/-- What is told of a run in a scan of the tape: where it starts, and what it closes. -/
structure Attempts (m : Dfa D A T) (tape : Tape A) (x : Nat × Option (Spans T)) : Prop where
  /-- It closes what a run from there closes. -/
  spans_eq : x.2 = (m.evaluate (tape.reset x.1)).1
  /-- It does not start before the place where the tape stands. -/
  index_le : tape.index ≤ x.1
  /-- One step on from its start is not behind the tape. -/
  succ_le : x.1 + 1 ≤ tape.length
  /-- One step back from where it ends is not before its start. -/
  start_le : x.1 + 1 ≤ (m.evaluate (tape.reset x.1)).2.index
  /-- It does not end behind the tape. -/
  stop_le : (m.evaluate (tape.reset x.1)).2.index ≤ tape.length

/-- All runs are such. -/
lemma attempts_of_mem (h : x ∈ m.runs tape) : m.Attempts tape x := by
  induction tape using m.advance_induction with
  | done tape hdone =>
      rw [runs_of_isDone hdone] at h
      cases h
  | run tape hdone ih =>
      rw [runs_eq hdone, List.mem_cons] at h
      rcases h with rfl | h
      · have hlt := Tape.not_isDone_iff.1 hdone
        obtain ⟨hstart, hstop⟩ := index_evaluate (m := m) hlt
        exact ⟨rfl, le_rfl, hlt, hstart, hstop⟩
      · obtain ⟨hspans, hindex, hsucc, hstart, hstop⟩ := ih h
        exact ⟨hspans, (m.index_lt_advance tape).le.trans hindex, hsucc, hstart, hstop⟩

/-! ### Successive runs -/

/-- Each run starts where the one before left the tape. -/
lemma isChain_runs (m : Dfa D A T) (tape : Tape A) :
    (m.runs tape).IsChain fun x y => y.1 = restart x.1 (m.evaluate (tape.reset x.1)).2.index := by
  induction tape using m.advance_induction with
  | done tape hdone =>
      rw [runs_of_isDone hdone]
      exact .nil
  | run tape hdone ih =>
      rw [runs_eq hdone, List.isChain_cons]
      exact ⟨fun y hy => start_of_head? hy, ih⟩

/-- Each run starts further on than all before. -/
lemma pairwise_start_runs (m : Dfa D A T) (tape : Tape A) :
    (m.runs tape).Pairwise fun x y => x.1 < y.1 := by
  have hchain : (m.runs tape).IsChain fun x y => x.1 < y.1 := by
    refine (m.isChain_runs tape).imp fun x y (hxy : y.1 = _) => ?_
    rw [hxy]
    exact Nat.le_max_right _ _
  exact List.isChain_iff_pairwise.1 hchain

/-- The spans that a run of a scan closes are not empty, and none lies before the start of the run. -/
lemma Attempts.span {spans : Spans T} {t : T} {s : Span} (h : m.Attempts tape x)
    (hspans : x.2 = some spans) (hs : spans[t]? = some s) : x.1 ≤ s.start ∧ s.start < s.stop := by
  have hrun : (m.run x.1 (tape.reset x.1).remaining).1.bind (·[t]?) = some s := by
    have heq : (m.run x.1 (tape.reset x.1).remaining).1 = some spans := h.spans_eq.symm.trans hspans
    rw [heq]
    exact hs
  obtain ⟨hstart, hlt, -⟩ := span_of_run hrun
  exact ⟨hstart, hlt⟩

/-- Spans that are found earlier end before those start that are found later. -/
lemma pairwise_evaluateAll (m : Dfa D A T) (tape : Tape A) :
    (m.evaluateAll tape).Pairwise fun spans later =>
      ∀ (t u : T) (s r : Span), spans[t]? = some s → later[u]? = some r → s.stop ≤ r.start := by
  rw [evaluateAll, List.pairwise_filterMap]
  refine (m.pairwise_runsFrom tape.index tape.remaining).imp_of_mem fun {x y} _ hy hxy => ?_
  intro spans hspans later hlater t u s r hs hr
  -- the later run starts behind the earlier spans, and its own lie further on
  have hstop : s.stop ≤ y.1 := hxy t s (by rw [hspans]; exact hs)
  exact hstop.trans ((attempts_of_mem hy).span hlater hr).1

/-- A scan gives the spans that its runs close, one item at a call, and then nothing any more. Each run
starts where the one before left the tape, further on than all before and still at a symbol, so that no
position lies before the start of the tape or behind its end. No span is empty, and all that an item
tells of lies before what the later ones tell of. -/
theorem evaluateAll_progress (m : Dfa D A T) (tape : Tape A) :
    (∀ n, Iterator.nth m.nextSpans tape n = (m.evaluateAll tape)[n]?) ∧
      ((m.runs tape).IsChain fun x y =>
        y.1 = restart x.1 (m.evaluate (tape.reset x.1)).2.index) ∧
      ((m.runs tape).Pairwise fun x y => x.1 < y.1) ∧
      (∀ x ∈ m.runs tape, m.Attempts tape x) ∧
      (∀ spans ∈ m.evaluateAll tape, ∀ (t : T) (s : Span), spans[t]? = some s → s.start < s.stop) ∧
      (m.evaluateAll tape).Pairwise fun spans later =>
        ∀ (t u : T) (s r : Span), spans[t]? = some s → later[u]? = some r → s.stop ≤ r.start := by
  refine ⟨m.lists_nextSpans.nth_eq tape, m.isChain_runs tape, m.pairwise_start_runs tape,
    fun _ => attempts_of_mem, fun spans hmem t s hs => ?_, m.pairwise_evaluateAll tape⟩
  obtain ⟨x, hx, hspans⟩ := List.mem_filterMap.1 hmem
  exact ((attempts_of_mem hx).span hspans hs).2

end Dfa

end CaptureAutomata
