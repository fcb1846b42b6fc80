/-
What a run over a tape closes, told by the states that it goes through:

* `Dfa.stateAfter?`, `Dfa.StopsAt`, `Dfa.DiesAt`: the state after some symbols of the tape, how many of
  them are read, and whether the next one has no transition;
* `Dfa.changes`, `Dfa.starts`, `Dfa.ends`: the positions where the state changes, and those of them where
  a tag starts, or ends, in the state that is left;
* `Dfa.stopsAt_iff`, `Dfa.StopsAt.leavesAt_iff`: these are the positions where the run leaves its states;
* `Dfa.evaluate_spans`: a tag is closed if it starts and later ends, over the span up to its last end and
  from the last start before, and the tape is left behind the symbol that ended the run.
-/
import CaptureAutomata.Proofs.Dfa.Runs

namespace CaptureAutomata

lemma Tape.peek_eq_getElem? {A : Type} (t : Tape A) (offset : Nat) :
    t.peek offset = t.remaining[offset]? := by
  simp [peek, remaining]

namespace Dfa

variable {D A T : Type} [Key D] [Key A] [Key T] {m : Dfa D A T} {tape : Tape A} {d : D} {k n : Nat}
  {t : T}

/-! ### The states of a run -/

/-- The state after `n` of the symbols that are left on the tape, if they can be read. -/
def stateAfter? (m : Dfa D A T) (tape : Tape A) : Nat → Option D
  | 0 => some m.initial
  | n + 1 => do m.next? (← m.stateAfter? tape n) (← tape.peek n)

/-- The run reads `k` symbols: there is no state after one more, because its transition is missing or
the tape has ended. -/
def StopsAt (m : Dfa D A T) (tape : Tape A) (k : Nat) : Prop :=
  IsLeast {n | m.stateAfter? tape (n + 1) = none} k

/-- The symbol behind the first `k` has no transition. -/
def DiesAt (m : Dfa D A T) (tape : Tape A) (k : Nat) : Prop :=
  ∃ d a, m.stateAfter? tape k = some d ∧ tape.peek k = some a ∧ m.next? d a = none

/-- The positions where the state changes in a run that reads `k` symbols: those of symbols that lead to
another state, and that of a symbol without a transition. -/
def changes (m : Dfa D A T) (tape : Tape A) (k : Nat) : Set Nat :=
  {n | (n < k ∧ m.stateAfter? tape (n + 1) ≠ m.stateAfter? tape n) ∨ (n = k ∧ m.DiesAt tape k)}

/-- The positions where a state changes that the tag starts in. -/
def starts (m : Dfa D A T) (tape : Tape A) (k : Nat) (t : T) : Set Nat :=
  {n | n ∈ m.changes tape k ∧ ∃ d, m.stateAfter? tape n = some d ∧ t ∈ m.tagsStarting d}

/-- The positions where a state changes that the tag ends in. -/
def ends (m : Dfa D A T) (tape : Tape A) (k : Nat) (t : T) : Set Nat :=
  {n | n ∈ m.changes tape k ∧ ∃ d, m.stateAfter? tape n = some d ∧ t ∈ m.tagsEnding d}

/-! ### Positions -/

lemma stateAfter?_succ {a : A} (hd : m.stateAfter? tape n = some d) (ha : tape.peek n = some a) :
    m.stateAfter? tape (n + 1) = m.next? d a := by
  rw [stateAfter?, hd, ha]
  rfl

/-- The state after some symbols is the one that reading them leads to. -/
lemma stateAfter?_eq_some_iff : m.stateAfter? tape n = some d ↔
    n ≤ tape.remaining.length ∧ m.after? m.initial (tape.remaining.take n) = some d := by
  induction n generalizing d with
  | zero => simp [stateAfter?, after?]
  | succ n ih =>
      have hstep : m.stateAfter? tape (n + 1) = some d ↔ ∃ q a, m.stateAfter? tape n = some q ∧
          tape.peek n = some a ∧ m.next? q a = some d := by
        simp [stateAfter?, Option.bind_eq_some_iff]
      simp only [hstep, ih, tape.peek_eq_getElem?]
      constructor
      · rintro ⟨q, a, ⟨-, hq⟩, ha, hnext⟩
        exact ⟨(List.getElem?_eq_some_iff.1 ha).1, by rw [after?_take_succ ha hq, hnext]⟩
      · rintro ⟨hlt, hd⟩
        have ha : tape.remaining[n]? = some tape.remaining[n] := List.getElem?_eq_getElem hlt
        rw [List.take_add_one, ha, Option.toList_some, after?_append_singleton,
          Option.bind_eq_bind, Option.bind_eq_some_iff] at hd
        obtain ⟨q, hq, hnext⟩ := hd
        exact ⟨q, _, ⟨Nat.le_of_succ_le hlt, hq⟩, ha, hnext⟩

/-- There is a state after as many symbols as can be read. -/
lemma exists_stateAfter?_iff :
    (∃ d, m.stateAfter? tape n = some d) ↔ n ≤ m.extent m.initial tape.remaining := by
  have hle := m.extent_le_length m.initial tape.remaining
  simp only [stateAfter?_eq_some_iff, exists_and_left]
  constructor
  · rintro ⟨hn, hd⟩
    exact (exists_after?_take_iff hn).1 hd
  · exact fun hn => ⟨hn.trans hle, (exists_after?_take_iff (hn.trans hle)).2 hn⟩

/-- A run reads as many symbols as can be read. -/
lemma stopsAt_iff : m.StopsAt tape k ↔ k = m.extent m.initial tape.remaining := by
  have hnone : ∀ n, m.stateAfter? tape (n + 1) = none ↔ m.extent m.initial tape.remaining ≤ n := by
    intro n
    rw [← Option.not_isSome_iff_eq_none, Option.isSome_iff_exists, exists_stateAfter?_iff,
      Nat.not_le, Nat.lt_succ_iff]
  have hleast : m.StopsAt tape (m.extent m.initial tape.remaining) :=
    ⟨(hnone _).2 le_rfl, fun n hn => (hnone n).1 hn⟩
  exact ⟨fun h => h.unique hleast, fun h => h ▸ hleast⟩

/-- A run dies unless it has read all symbols. -/
lemma StopsAt.diesAt_iff (h : m.StopsAt tape k) : m.DiesAt tape k ↔ k < tape.remaining.length := by
  constructor
  · rintro ⟨-, a, -, ha, -⟩
    rw [tape.peek_eq_getElem?] at ha
    exact (List.getElem?_eq_some_iff.1 ha).1
  · intro hlt
    obtain ⟨d, hd⟩ := exists_stateAfter?_iff.2 (stopsAt_iff.1 h).le
    have ha : tape.peek k = some tape.remaining[k] := by
      rw [tape.peek_eq_getElem?, List.getElem?_eq_getElem hlt]
    exact ⟨d, _, hd, ha, (stateAfter?_succ hd ha).symm.trans h.1⟩

/-- A run leaves its states where they change. -/
lemma StopsAt.leavesAt_iff (h : m.StopsAt tape k) :
    m.LeavesAt tape.remaining n d ↔ n ∈ m.changes tape k ∧ m.stateAfter? tape n = some d := by
  constructor
  · intro hleaves
    have hd : m.stateAfter? tape n = some d :=
      stateAfter?_eq_some_iff.2 ⟨hleaves.lt_length.le, hleaves.1⟩
    have hn : n ≤ k := stopsAt_iff.1 h ▸ exists_stateAfter?_iff.1 ⟨d, hd⟩
    obtain ⟨-, a, ha, hnext⟩ := hleaves
    rw [← tape.peek_eq_getElem?] at ha
    refine ⟨?_, hd⟩
    rcases hn.lt_or_eq with hlt | rfl
    · exact Or.inl ⟨hlt, by rwa [stateAfter?_succ hd ha, hd]⟩
    · exact Or.inr ⟨rfl, d, a, hd, ha, (stateAfter?_succ hd ha).symm.trans h.1⟩
  · rintro ⟨⟨hlt, hchange⟩ | ⟨rfl, q, a, hq, ha, hdead⟩, hd⟩
    · have hlen := m.extent_le_length m.initial tape.remaining
      have hn : n < tape.remaining.length := by
        rw [stopsAt_iff.1 h] at hlt
        exact hlt.trans_le hlen
      have ha : tape.peek n = some tape.remaining[n] := by
        rw [tape.peek_eq_getElem?, List.getElem?_eq_getElem]
      rw [stateAfter?_succ hd ha, hd] at hchange
      exact ⟨(stateAfter?_eq_some_iff.1 hd).2, _, tape.peek_eq_getElem? n ▸ ha, hchange⟩
    · obtain rfl := Option.some.inj (hq.symm.trans hd)
      exact ⟨(stateAfter?_eq_some_iff.1 hd).2, a, tape.peek_eq_getElem? n ▸ ha, by simp [hdead]⟩

/-- Tags are opened where they start. -/
lemma StopsAt.openings_eq (h : m.StopsAt tape k) (t : T) :
    m.openings tape.remaining t = m.starts tape k t := by
  ext n
  simp only [openings, starts, Set.mem_ofPred_eq, h.leavesAt_iff, and_assoc, exists_and_left]

lemma StopsAt.closings_eq (h : m.StopsAt tape k) (t : T) :
    m.closings tape.remaining t = m.ends tape k t := by
  ext n
  simp only [closings, ends, Set.mem_ofPred_eq, h.leavesAt_iff, and_assoc, exists_and_left]

lemma le_of_mem_ends (h : n ∈ m.ends tape k t) : n ≤ k := by
  obtain ⟨⟨hlt, -⟩ | ⟨rfl, -⟩, -⟩ := h
  · exact hlt.le
  · exact le_rfl

/-! ### Spans -/

/-- The positions where a tag ends that started before. -/
def endsAfterStart (m : Dfa D A T) (tape : Tape A) (k : Nat) (t : T) : Set Nat :=
  {b | b ∈ m.ends tape k t ∧ ∃ a ∈ m.starts tape k t, a < b}

/-- Behind a start the last end of all is the last one behind a start. -/
lemma isGreatest_ends_iff {a b : Nat} (ha : a ∈ before (m.starts tape k t) b) :
    IsGreatest (m.ends tape k t) b ↔ IsGreatest (m.endsAfterStart tape k t) b := by
  constructor
  · rintro ⟨hb, hlast⟩
    exact ⟨⟨hb, a, ha⟩, fun c hc => hlast hc.1⟩
  · rintro ⟨hb, hlast⟩
    refine ⟨hb.1, fun c hc => ?_⟩
    by_contra hlt
    exact hlt (hlast ⟨hc, a, ha.1, ha.2.trans (Nat.lt_of_not_le hlt)⟩)

/-- If a tag ends behind a start at all, there is a last end, and a last start before it. -/
lemma exists_isGreatest (h : (m.endsAfterStart tape k t).Nonempty) :
    ∃ a b, IsGreatest (m.endsAfterStart tape k t) b ∧
      IsGreatest (before (m.starts tape k t) b) a := by
  have hbounded : BddAbove (m.endsAfterStart tape k t) := ⟨k, fun b hb => le_of_mem_ends hb.1⟩
  obtain ⟨b, hb⟩ := hbounded.exists_isGreatest_of_nonempty h
  obtain ⟨-, a, ha, hab⟩ := hb.1
  have hbefore : BddAbove (before (m.starts tape k t) b) := ⟨b, fun c hc => hc.2.le⟩
  obtain ⟨c, hc⟩ := hbefore.exists_isGreatest_of_nonempty ⟨a, ha, hab⟩
  exact ⟨c, b, hb, hc⟩

/-- A tag is closed over the span up to its last end behind a start, from the last start before. -/
lemma StopsAt.getElem?_evaluate_iff (h : m.StopsAt tape k) (t : T) (s : Span) :
    (m.evaluate tape).1.bind (·[t]?) = some s ↔
      ∃ a b, s = ⟨tape.index + a, tape.index + b⟩ ∧ IsGreatest (m.endsAfterStart tape k t) b ∧
        IsGreatest (before (m.starts tape k t) b) a := by
  have hrun := run_getElem?_iff (m := m) tape.index tape.remaining t s
  rw [h.openings_eq, h.closings_eq] at hrun
  refine hrun.trans ?_
  constructor
  · rintro ⟨a, b, rfl, hb, ha⟩
    exact ⟨a, b, rfl, (isGreatest_ends_iff ha.1).1 hb, ha⟩
  · rintro ⟨a, b, rfl, hb, ha⟩
    exact ⟨a, b, rfl, (isGreatest_ends_iff ha.1).2 hb, ha⟩

/-- A tag is closed if it ends behind a start. -/
lemma StopsAt.exists_getElem?_evaluate_iff (h : m.StopsAt tape k) (t : T) :
    (∃ s, (m.evaluate tape).1.bind (·[t]?) = some s) ↔ (m.endsAfterStart tape k t).Nonempty := by
  simp only [h.getElem?_evaluate_iff]
  constructor
  · rintro ⟨-, a, b, -, hb, -⟩
    exact ⟨b, hb.1⟩
  · intro hne
    obtain ⟨a, b, hb, ha⟩ := exists_isGreatest hne
    exact ⟨_, a, b, rfl, hb, ha⟩

/-- A run gives nothing if it closes no tag. -/
lemma evaluate_eq_none_iff (m : Dfa D A T) (tape : Tape A) :
    (m.evaluate tape).1 = none ↔ ∀ t : T, (m.evaluate tape).1.bind (·[t]?) = none := by
  constructor
  · intro hnone t
    rw [hnone, Option.bind_none]
  · intro hnone
    have hempty : (m.runFrom m.initial tape.index ∅ ∅ tape.remaining).1 = ∅ :=
      Std.ExtTreeMap.ext_getElem? fun t => by
        rw [← run_bind, Std.ExtTreeMap.getElem?_empty]
        exact hnone t
    exact if_pos (Std.ExtTreeMap.isEmpty_iff.2 hempty)

/-- The tape is left behind the symbol that the run died on, or at its end. -/
lemma StopsAt.evaluate_index (h : m.StopsAt tape k) (hlt : tape.index < tape.length) :
    (m.evaluate tape).2.index = if k < tape.remaining.length then tape.index + k + 1
      else tape.length := by
  have hindex : (m.evaluate tape).2.index =
      tape.index + min (m.extent m.initial tape.remaining + 1) tape.remaining.length :=
    m.runFrom_index m.initial tape.index ∅ ∅ tape.remaining
  have hlength : tape.remaining.length = tape.length - tape.index := List.length_drop
  have hle := m.extent_le_length m.initial tape.remaining
  rw [hindex, ← stopsAt_iff.1 h]
  rw [← stopsAt_iff.1 h] at hle
  split <;> omega

/-- A run over a tape that is not done reads some number of symbols, until one has no transition or the
tape ends. It gives a span for a tag exactly if the state changes somewhere where the tag starts and
further on where it ends: the span up to the last such end, from the last start before. It gives nothing
if there is no such tag. The tape is left behind the symbol without a transition, and at its end if there
was none. -/
theorem evaluate_spans (m : Dfa D A T) (tape : Tape A) (h : tape.index < tape.length) :
    ∃ k, m.StopsAt tape k ∧
      (∀ t, (∃ s, (m.evaluate tape).1.bind (·[t]?) = some s) ↔
        ∃ a b, a < b ∧ a ∈ m.starts tape k t ∧ b ∈ m.ends tape k t) ∧
      (∀ (t : T) (s : Span), (m.evaluate tape).1.bind (·[t]?) = some s ↔
        ∃ a b, s = ⟨tape.index + a, tape.index + b⟩ ∧
          IsGreatest {b | b ∈ m.ends tape k t ∧ ∃ a ∈ m.starts tape k t, a < b} b ∧
          IsGreatest {a | a ∈ m.starts tape k t ∧ a < b} a) ∧
      ((m.evaluate tape).1 = none ↔
        ∀ (t : T) (a b : Nat), a ∈ m.starts tape k t → b ∈ m.ends tape k t → ¬ a < b) ∧
      (m.DiesAt tape k → (m.evaluate tape).2 = tape.reset (tape.index + k + 1)) ∧
      (¬ m.DiesAt tape k → (m.evaluate tape).2 = tape.reset tape.length) := by
  have hstop : m.StopsAt tape (m.extent m.initial tape.remaining) := stopsAt_iff.2 rfl
  generalize m.extent m.initial tape.remaining = k at hstop
  have hclosed : ∀ t, (∃ s, (m.evaluate tape).1.bind (·[t]?) = some s) ↔
      ∃ a b, a < b ∧ a ∈ m.starts tape k t ∧ b ∈ m.ends tape k t := fun t => by
    rw [hstop.exists_getElem?_evaluate_iff]
    constructor
    · rintro ⟨b, hb, a, ha, hab⟩
      exact ⟨a, b, hab, ha, hb⟩
    · rintro ⟨a, b, hab, ha, hb⟩
      exact ⟨b, hb, a, ha, hab⟩
  have hreset : (m.evaluate tape).2 = tape.reset (m.evaluate tape).2.index := rfl
  refine ⟨k, hstop, hclosed, hstop.getElem?_evaluate_iff, ?_, fun hdies => ?_, fun hdies => ?_⟩
  · rw [evaluate_eq_none_iff]
    refine forall_congr' fun t => ?_
    rw [← Option.not_isSome_iff_eq_none, Option.isSome_iff_exists, hclosed]
    constructor
    · exact fun hnone a b ha hb hab => hnone ⟨a, b, hab, ha, hb⟩
    · rintro hnone ⟨a, b, hab, ha, hb⟩
      exact hnone a b ha hb hab
  · rw [hreset, hstop.evaluate_index h, if_pos (hstop.diesAt_iff.1 hdies)]
  · rw [hreset, hstop.evaluate_index h, if_neg fun hlt => hdies (hstop.diesAt_iff.2 hlt)]

/-- The automaton goes to and fro between two states. -/
private def toAndFro : Builder Nat Char String :=
  (((Builder.ofInitial 0).transition 0 'a' 1).transition 1 'b' 0).tag "round" 0 0

/-- In `abab-`, read from behind an `x` on, the tag that starts and ends in the first state is closed
twice, and the last round counts. -/
theorem evaluate_spans_of_last_round :
    ∃ m k, toAndFro.build = .ok m ∧ m.StopsAt ⟨"xabab-".toList, 1⟩ k ∧
      (m.evaluate ⟨"xabab-".toList, 1⟩).1.bind (·["round"]?) = some ⟨3, 5⟩ ∧
      IsGreatest {a | a ∈ m.starts ⟨"xabab-".toList, 1⟩ k "round" ∧ a < 4} 2 := by
  obtain ⟨m, hm, hround⟩ := exists_ok_of_decide (x := toAndFro.build)
    (P := fun m => (m.evaluate ⟨"xabab-".toList, 1⟩).1.bind (·["round"]?) = some ⟨3, 5⟩)
    (by decide +kernel)
  obtain ⟨k, hstop, -, hspan, -⟩ := m.evaluate_spans ⟨"xabab-".toList, 1⟩ (by decide)
  obtain ⟨a, b, heq, -, ha⟩ := (hspan "round" _).1 hround
  obtain ⟨rfl, rfl⟩ : a = 2 ∧ b = 4 := by
    simp only [Span.mk.injEq] at heq
    omega
  exact ⟨m, k, hm, hstop, hround, ha⟩

end Dfa

end CaptureAutomata
