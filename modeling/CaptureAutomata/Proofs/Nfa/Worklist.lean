/-
The subset construction ends and never fails:

* `KeySet.newcomers_append`: newcomers of two lists are those of the first and then those that it leaves
  to the second;
* `IsReached.isClosed`, `size_le_two_pow_sub_one`: the sets that words lead to are not empty and closed
  under silent transitions, so that `n` states have at most `2 ^ n - 1` of them;
* `round_cases`: all that one round can do. It does not fail (`Sound`), and it leaves more sets
  constructed, or as many and a shorter queue (`exists_rounds_nil`);
* `Worklist.Completes`: what the table of the subset construction still adds to a worklist. The queue
  may hold a set many times, the table looks at it where it comes first (`Completes.construct`);
* `toDfa_of_worklist`: the loop ends with the deterministic automaton, and on the way it never has
  constructed more than `2 ^ n - 1` sets.
-/
import CaptureAutomata.Proofs.Nfa.Determinization

namespace CaptureAutomata

/-! ### Newcomers of two lists -/

namespace KeySet

variable {α β : Type} [Key α] {key : β → α}

/-- The second of two lists brings those that are neither in the set nor in the first. -/
lemma newcomers_append (s : KeySet α) (l l' : List β) :
    newcomers key s (l ++ l') = newcomers key s l ++ newcomers key (s.insertMany (l.map key)) l' := by
  induction l generalizing s with
  | nil => simp [newcomers]
  | cons b l ih =>
      rw [List.cons_append, newcomers, newcomers, List.map_cons, Std.ExtTreeSet.insertMany_cons]
      by_cases hb : key b ∈ s
      · have hinsert : s.insert (key b) = s :=
          Std.ExtTreeSet.ext_mem fun a => by
            simp only [Std.ExtTreeSet.mem_insert, Key.compare_eq_iff]
            exact ⟨fun h => h.elim (fun h => h ▸ hb) id, Or.inr⟩
        rw [if_pos hb, if_pos hb, hinsert, ih]
      · rw [if_neg hb, if_neg hb, ih, List.cons_append]

/-- The newcomers among the keys of a list are the keys of its newcomers. -/
lemma newcomers_map (s : KeySet α) (l : List β) :
    newcomers id s (l.map key) = (newcomers key s l).map key := by
  induction l generalizing s with
  | nil => rfl
  | cons b l ih =>
      rw [List.map_cons, newcomers, newcomers, id]
      split
      · exact ih s
      · rw [List.map_cons, ih]

end KeySet

namespace Nfa

variable {S A T : Type} [Key S] [Key A]

/-! ### Closed sets of states -/

/-- A set of states, not empty, that silent transitions do not leave. -/
structure IsClosed (m : Nfa S A T) (q : KeySet S) : Prop where
  /-- Its members are states. -/
  mem_states : ∀ s ∈ q, s ∈ m.states
  /-- It has a member. -/
  nonempty : ∃ s, s ∈ q
  /-- Silent transitions lead from members to members. -/
  target_mem : ∀ s ∈ q, ∀ t ∈ m.graph.targets s none, t ∈ q

variable {m : Nfa S A T}

/-- The states after a word are closed. -/
lemma IsReached.isClosed {q : KeySet S} (h : m.IsReached q) : m.IsClosed q := by
  obtain ⟨w, ⟨s, hs⟩, hq⟩ := h
  refine ⟨fun r hr => mem_states_of_reaches ((hq r).1 hr), ⟨s, (hq s).2 hs⟩, ?_⟩
  intro r hr t ht
  exact (hq t).2 (((hq r).1 hr).silent (.silent ht (.nil t)))

/-- There are at most `2 ^ n - 1` sets of `n` states that are not empty. -/
lemma size_le_two_pow_sub_one {sets : KeySet (KeySet S)} (h : ∀ q ∈ sets, m.IsClosed q) :
    sets.size ≤ 2 ^ m.states.length - 1 := by
  have hempty : ∅ ∉ sets := by
    intro hmem
    obtain ⟨s, hs⟩ := (h ∅ hmem).nonempty
    exact Std.ExtTreeSet.not_mem_empty hs
  have hall : ∀ q ∈ sets.insert ∅, q ∈ m.stateSets := by
    intro q hq
    rcases Std.ExtTreeSet.mem_insert.1 hq with hq | hq
    · obtain rfl := Key.compare_eq_iff.1 hq
      exact mem_stateSets fun s hs => absurd hs Std.ExtTreeSet.not_mem_empty
    · exact mem_stateSets (h q hq).mem_states
  have hle : (sets.insert ∅).size ≤ 2 ^ m.states.length := size_le_two_pow hall
  rw [Std.ExtTreeSet.size_insert, if_neg (by simpa using hempty)] at hle
  omega

/-! ### One round -/

variable [Key T]

namespace Worklist

/-- All sets of the worklist are those after some word. -/
structure Sound (m : Nfa S A T) (w : Worklist S A T) : Prop where
  /-- So are the sets that have been constructed. -/
  of_constructed : ∀ q ∈ w.constructed, m.IsReached q
  /-- So are the sets that are waiting. -/
  of_queue : ∀ q ∈ w.queue, m.IsReached q

variable {w : Worklist S A T} {q : KeySet S} {queue : List (KeySet S)} {moves : List (A × KeySet S)}

/-- A worklist stays sound without a set of its queue. -/
lemma Sound.skip (h : w.Sound m) (hw : w.queue = q :: queue) : (w.skip queue).Sound m where
  of_constructed := h.of_constructed
  of_queue r hr := h.of_queue r (hw ▸ .tail _ hr)

/-- A worklist stays sound when a set of its queue is constructed, as moves lead from the states after a
word to such states. -/
lemma Sound.construct (h : w.Sound m) (hw : w.queue = q :: queue) (hmoves : m.moves q = .ok moves) :
    (w.construct m.tags q queue moves).Sound m := by
  have hq : m.IsReached q := h.of_queue q (hw ▸ .head _)
  refine ⟨fun r hr => ?_, fun r hr => ?_⟩
  · rcases Std.ExtTreeSet.mem_insert.1 hr with hr | hr
    · exact Key.compare_eq_iff.1 hr ▸ hq
    · exact h.of_constructed r hr
  · rcases List.mem_append.1 hr with hr | hr
    · exact h.of_queue r (hw ▸ .tail _ hr)
    · obtain ⟨p, hp, rfl⟩ := List.mem_map.1 hr
      exact hq.of_mem_moves hmoves hp

/-- No more than `2 ^ n - 1` sets are constructed. -/
lemma Sound.size_constructed_le (h : w.Sound m) :
    w.constructed.size ≤ 2 ^ m.states.length - 1 :=
  size_le_two_pow_sub_one fun q hq => (h.of_constructed q hq).isClosed

end Worklist

variable {w : Worklist S A T}

/-- A round does nothing if the queue is empty, and else takes off its first set and constructs it
unless that has been done. -/
lemma round_cases (h : w.Sound m) :
    (w.queue = [] ∧ m.round w = .ok w) ∨
      (∃ q queue, w.queue = q :: queue ∧ q ∈ w.constructed ∧ m.round w = .ok (w.skip queue)) ∨
      ∃ q queue moves, w.queue = q :: queue ∧ q ∉ w.constructed ∧ m.moves q = .ok moves ∧
        m.round w = .ok (w.construct m.tags q queue moves) := by
  cases hw : w.queue with
  | nil => exact Or.inl ⟨rfl, by rw [round, hw]⟩
  | cons q queue =>
      by_cases hq : q ∈ w.constructed
      · exact Or.inr (Or.inl ⟨q, queue, rfl, hq, by simp only [round, hw, if_pos hq]⟩)
      · obtain ⟨moves, hmoves⟩ := (h.of_queue q (hw ▸ .head _)).exists_moves
        refine Or.inr (Or.inr ⟨q, queue, moves, rfl, hq, hmoves, ?_⟩)
        simp only [round, hw, if_neg hq, hmoves]
        rfl

/-- Rounds come to an empty queue: a round constructs one more set, of which there are finitely many, or
it shortens the queue. -/
lemma exists_rounds_nil (w : Worklist S A T) (h : w.Sound m) :
    ∃ n w', m.rounds n w = .ok w' ∧ w'.queue = [] := by
  rcases round_cases h with ⟨hw, -⟩ | ⟨q, queue, hw, -, hround⟩ |
    ⟨q, queue, moves, hw, hq, hmoves, hround⟩
  · exact ⟨0, w, rfl, hw⟩
  · obtain ⟨n, w', hn, hw'⟩ := exists_rounds_nil (w.skip queue) (h.skip hw)
    exact ⟨n + 1, w', by rw [rounds, hround]; exact hn, hw'⟩
  · obtain ⟨n, w', hn, hw'⟩ :=
      exists_rounds_nil (w.construct m.tags q queue moves) (h.construct hw hmoves)
    exact ⟨n + 1, w', by rw [rounds, hround]; exact hn, hw'⟩
termination_by (2 ^ m.states.length - w.constructed.size, w.queue.length)
decreasing_by
  · refine .right _ ?_
    simp [hw, Worklist.skip]
  · refine .left _ _ ?_
    have hle := (h.construct hw hmoves).size_constructed_le
    have hpos : 0 < 2 ^ m.states.length := Nat.two_pow_pos _
    have hsize : (w.construct m.tags q queue moves).constructed.size = w.constructed.size + 1 := by
      rw [Worklist.construct, Std.ExtTreeSet.size_insert, if_neg (by simpa using hq)]
    omega

/-! ### The table and the worklist -/

namespace Worklist

/-- The table of the subset construction has still to add its rows for the sets of the queue that have
not been constructed, each where it comes first, and for those behind them. They make `b` of what has
been collected. -/
inductive Completes (m : Nfa S A T) (w : Worklist S A T) (b : Dfa.Builder (KeySet S) A T) : Prop
  /-- The table has seen all sets of the worklist. -/
  | intro (seen : KeySet (KeySet S)) (hs : ∀ q ∈ seen, q ∈ m.stateSets) (rows : List (Row S A))
    (hseen : ∀ q, q ∈ seen ↔ q ∈ w.constructed ∨ q ∈ w.queue)
    (hrows : m.rowsFrom seen hs (w.constructed.newcomers id w.queue) = .ok rows)
    (hb : rows.foldl (addRow m.tags) w.dfa = b)

variable {q : KeySet S} {queue : List (KeySet S)} {moves : List (A × KeySet S)}
  {b : Dfa.Builder (KeySet S) A T}

/-- With an empty queue there is nothing to add. -/
lemma Completes.eq_dfa (h : w.Completes m b) (hw : w.queue = []) : w.dfa = b := by
  obtain ⟨seen, hs, rows, -, hrows, rfl⟩ := h
  rw [hw, KeySet.newcomers, rowsFrom] at hrows
  cases hrows
  rfl

/-- The table has no row for a set that has been constructed before. -/
lemma Completes.skip (h : w.Completes m b) (hw : w.queue = q :: queue) (hq : q ∈ w.constructed) :
    (w.skip queue).Completes m b := by
  obtain ⟨seen, hs, rows, hseen, hrows, hb⟩ := h
  refine ⟨seen, hs, rows, fun r => ?_, ?_, hb⟩
  · rw [hseen, hw, List.mem_cons]
    constructor
    · rintro (hr | rfl | hr)
      · exact Or.inl hr
      · exact Or.inl hq
      · exact Or.inr hr
    · exact fun hr => hr.imp_right Or.inr
  · rw [hw, KeySet.newcomers, id, if_pos hq] at hrows
    exact hrows

/-- The table has the row that is added for a set when it is constructed, and goes on with the sets that
the moves lead to. -/
lemma Completes.construct (h : w.Completes m b) (hw : w.queue = q :: queue)
    (hq : q ∉ w.constructed) (hmoves : m.moves q = .ok moves) :
    (w.construct m.tags q queue moves).Completes m b := by
  obtain ⟨seen, hs, rows, hseen, hrows, hb⟩ := h
  rw [hw] at hseen
  rw [hw, KeySet.newcomers, id, if_neg hq, rowsFrom] at hrows
  split at hrows
  next u hu => cases hrows
  next moves' hmoves' =>
  obtain rfl := Except.ok.inj (hmoves.symm.trans hmoves')
  obtain ⟨rest, hrest, rfl⟩ := map_eq_ok.1 hrows
  refine ⟨seen.insertMany (freshSets seen moves), mem_stateSets_of_seen hs hmoves, rest,
    fun r => ?_, ?_, hb⟩
  · rw [freshSets, KeySet.mem_insertMany_newcomers, hseen]
    simp only [Worklist.construct, Std.ExtTreeSet.mem_insert, Key.compare_eq_iff, List.mem_cons,
      List.mem_append]
    grind
  · -- what has been constructed, with the rest of the queue, is what has been seen
    have hset : (w.constructed.insert q).insertMany (queue.map id) = seen :=
      Std.ExtTreeSet.ext_mem fun r => by
        simp only [Std.ExtTreeSet.mem_insertMany_list, List.map_id, List.contains_iff_mem,
          Std.ExtTreeSet.mem_insert, Key.compare_eq_iff, hseen, List.mem_cons]
        grind
    have hqueue : KeySet.newcomers id (w.constructed.insert q) (queue ++ moves.map (·.2)) =
        KeySet.newcomers id (w.constructed.insert q) queue ++ freshSets seen moves := by
      rw [KeySet.newcomers_append, hset, KeySet.newcomers_map, freshSets]
    rw [Worklist.construct, hqueue]
    exact hrest

end Worklist

/-- Rounds do not fail, and what the table makes of a worklist it still makes after them. -/
lemma exists_rounds {b : Dfa.Builder (KeySet S) A T} (n : Nat) (h : w.Sound m)
    (hb : w.Completes m b) : ∃ w', m.rounds n w = .ok w' ∧ w'.Sound m ∧ w'.Completes m b := by
  induction n generalizing w with
  | zero => exact ⟨w, rfl, h, hb⟩
  | succ n ih =>
      obtain ⟨next, hround, hsound, hcompletes⟩ :
          ∃ next, m.round w = .ok next ∧ next.Sound m ∧ next.Completes m b := by
        rcases round_cases h with ⟨-, hround⟩ | ⟨q, queue, hw, hq, hround⟩ |
          ⟨q, queue, moves, hw, hq, hmoves, hround⟩
        · exact ⟨w, hround, h, hb⟩
        · exact ⟨_, hround, h.skip hw, hb.skip hw hq⟩
        · exact ⟨_, hround, h.construct hw hmoves, hb.construct hw hq hmoves⟩
      obtain ⟨w', hw', hrest⟩ := ih hsound hcompletes
      exact ⟨w', by rw [rounds, hround]; exact hw', hrest⟩

/-! ### The whole loop -/

/-- Before the first round the table has all its rows to add. -/
lemma exists_beginWorklist (m : Nfa S A T) :
    ∃ begun d, m.beginWorklist = .ok begun ∧ begun.Sound m ∧ m.toDfa = .ok d ∧
      ∃ b, begun.Completes m b ∧ b.build = .ok d := by
  have hinitial : m.initial ∈ m.states :=
    Std.ExtTreeMap.mem_keys.2 (Std.ExtTreeMap.contains_iff_mem.1 m.initial_mem)
  obtain ⟨initial, hi⟩ : ∃ initial, m.epsilonClosure [m.initial] = .ok initial :=
    exists_epsilonClosure fun s hs => by rwa [List.mem_singleton.1 hs]
  obtain ⟨rows, hrows, -⟩ :
      ∃ rows, m.rows initial (mem_stateSets_of_epsilonClosure hi) = .ok rows ∧
        ∀ row ∈ rows, m.IsReached row.states := exists_rows hi
  obtain ⟨d, hd, -⟩ := exists_build_rows hrows
  refine ⟨_, d, by rw [beginWorklist, hi]; rfl, ?_, toDfa_eq_ok hi hrows hd, _, ?_, hd⟩
  · refine ⟨fun q hq => absurd hq Std.ExtTreeSet.not_mem_empty, fun q hq => ?_⟩
    obtain rfl := List.mem_singleton.1 hq
    exact ⟨[], ⟨m.initial, .nil _⟩, statesAfter_nil hi⟩
  · refine ⟨_, _, rows, fun q => ?_, hrows, rfl⟩
    rw [Std.ExtTreeSet.mem_ofList, List.contains_iff_mem]
    simp

/-- The subset construction ends and never fails. Its loop begins, no round fails, no round has
constructed more than `2 ^ n - 1` different sets of the `n` states, all of them closed under silent
transitions and not empty, and after some round the queue is empty. What has been collected then is the
deterministic automaton. -/
theorem toDfa_of_worklist (m : Nfa S A T) :
    ∃ begun, m.beginWorklist = .ok begun ∧
      (∀ n, ∃ w, m.rounds n begun = .ok w ∧ w.constructed.size ≤ 2 ^ m.states.length - 1 ∧
        ∀ q ∈ w.constructed, m.IsClosed q) ∧
      ∃ n w d, m.rounds n begun = .ok w ∧ w.queue = [] ∧ w.dfa.build = .ok d ∧
        m.toDfa = .ok d := by
  obtain ⟨begun, d, hbegun, hsound, hd, b, hcompletes, hb⟩ := m.exists_beginWorklist
  refine ⟨begun, hbegun, fun n => ?_, ?_⟩
  · obtain ⟨w, hw, hwsound, -⟩ := exists_rounds n hsound hcompletes
    exact ⟨w, hw, hwsound.size_constructed_le, fun q hq => (hwsound.of_constructed q hq).isClosed⟩
  · obtain ⟨n, w, hw, hqueue⟩ := exists_rounds_nil begun hsound
    obtain ⟨w', hw', -, hwcompletes⟩ := exists_rounds n hsound hcompletes
    obtain rfl := Except.ok.inj (hw.symm.trans hw')
    exact ⟨n, w, d, hw, hqueue, hwcompletes.eq_dfa hqueue ▸ hb, hd⟩

end Nfa

end CaptureAutomata
