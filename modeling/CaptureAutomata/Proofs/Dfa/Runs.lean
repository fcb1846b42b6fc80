/-
How far runs read, and the runs that follow each other:

* `Dfa.extent`: how many of some symbols can be read from a state on;
* `Dfa.runFrom_index`: a run ends behind the first symbol that cannot be read, or behind the last one;
* `Dfa.span_of_run`: a run closes tags over spans that are not empty, and that end before the run does;
* `Dfa.run_add`: a run that starts further on closes the same spans further on;
* `Dfa.runFrom_append_congr`: symbols at the end count only from the state on that they are read from;
* `Dfa.runsFrom_within`: where the next run starts after one over a part of the symbols that it does not
  read past;
* `Dfa.pairwise_runsFrom`: what a run closes ends before the later runs start.
-/
import CaptureAutomata.Proofs.Dfa.Spans

namespace CaptureAutomata

/-- The span as many positions further on. -/
def Span.shift (n : Nat) (s : Span) : Span :=
  ⟨n + s.start, n + s.stop⟩

namespace Dfa

variable {D A T : Type} [Key D] [Key A] [Key T] {m : Dfa D A T} {d : D} {i n position : Nat}
  {opened : KeyMap T Nat} {closed : Spans T} {a : A} {u w symbols rest : List A} {t : T}
  {s : Span}

/-! ### How far a run reads -/

/-- How many of some symbols can be read from a state on. -/
def extent (m : Dfa D A T) (d : D) : List A → Nat
  | [] => 0
  | a :: w =>
    match m.next? d a with
    | none => 0
    | some d' => m.extent d' w + 1

/-- Behind a symbol that can be read it goes on from the next state. -/
lemma extent_cons {d' : D} (h : m.next? d a = some d') :
    m.extent d (a :: w) = m.extent d' w + 1 := by
  rw [extent]
  simp only [h]

lemma extent_dead (h : m.next? d a = none) : m.extent d (a :: w) = 0 := by
  rw [extent]
  simp only [h]

/-- No more than all symbols can be read. -/
lemma extent_le_length (m : Dfa D A T) (d : D) (w : List A) : m.extent d w ≤ w.length := by
  induction w generalizing d with
  | nil => exact le_rfl
  | cons a w ih =>
      cases ha : m.next? d a with
      | none => simp [extent_dead ha]
      | some d' =>
          rw [extent_cons ha, List.length_cons]
          exact Nat.succ_le_succ (ih d')

/-- The first `k` symbols can be read exactly if there are no more than can be read. -/
lemma exists_after?_take_iff {k : Nat} (hk : k ≤ w.length) :
    (∃ q, m.after? d (w.take k) = some q) ↔ k ≤ m.extent d w := by
  induction w generalizing d k with
  | nil =>
      obtain rfl : k = 0 := Nat.le_zero.1 hk
      simp [after?]
  | cons a w ih =>
      cases k with
      | zero => simp [after?]
      | succ k =>
          rw [List.take_succ_cons, after?]
          cases ha : m.next? d a with
          | none => simp [extent_dead ha]
          | some d' =>
              rw [extent_cons ha, Nat.succ_le_succ_iff, ← ih (Nat.le_of_succ_le_succ hk)]
              rfl

/-- More symbols behind those that are there do not change how many of these can be read. -/
lemma extent_append (m : Dfa D A T) (d : D) (w v : List A) :
    min (m.extent d (w ++ v)) w.length = m.extent d w := by
  induction w generalizing d with
  | nil => simp [extent]
  | cons a w ih =>
      rw [List.cons_append]
      cases ha : m.next? d a with
      | none => simp [extent_dead ha]
      | some d' =>
          rw [extent_cons ha, extent_cons ha, List.length_cons, ← ih d']
          omega

/-- A run ends behind the first symbol that cannot be read, or behind the last one. -/
lemma runFrom_index (m : Dfa D A T) (d : D) (position : Nat) (opened : KeyMap T Nat)
    (closed : Spans T) (w : List A) :
    (m.runFrom d position opened closed w).2 = position + min (m.extent d w + 1) w.length := by
  induction w generalizing d position opened closed with
  | nil => simp [runFrom]
  | cons a w ih =>
      have hle := m.extent_le_length d (a :: w)
      cases ha : m.next? d a with
      | none =>
          rw [runFrom_dead ha, extent_dead ha, List.length_cons]
          omega
      | some d' =>
          rw [extent_cons ha, List.length_cons] at hle ⊢
          by_cases hstay : d' = d
          · subst hstay
            rw [runFrom_stay ha, ih]
            omega
          · rw [runFrom_leave ha hstay, ih]
            omega

/-- With one more symbol behind them, a run ends behind the first of some symbols that it cannot read,
and if it can read them all, behind the one more. -/
lemma run_index_append_singleton (m : Dfa D A T) (i : Nat) (w : List A) (a : A) :
    (m.run i (w ++ [a])).2 = i + m.extent m.initial w + 1 := by
  have happend := m.extent_append m.initial w [a]
  rw [run, runFrom_index, List.length_append, List.length_singleton]
  omega

/-! ### What a run closes -/

/-- A state is left before the run ends. -/
lemma LeavesAt.lt_index {k : Nat} (h : m.LeavesAt symbols k d) (i : Nat) :
    i + k < (m.run i symbols).2 := by
  have hlt := h.lt_length
  have hle := (exists_after?_take_iff hlt.le).1 ⟨d, h.1⟩
  rw [run, runFrom_index]
  omega

/-- A run closes tags over spans that start where it does or further on, are not empty and end before
the run does. -/
lemma span_of_run (h : (m.run i symbols).1.bind (·[t]?) = some s) :
    i ≤ s.start ∧ s.start < s.stop ∧ s.stop < (m.run i symbols).2 := by
  obtain ⟨j, k, rfl, hk, hj⟩ := (run_getElem?_iff i symbols t s).1 h
  obtain ⟨d, hd, -⟩ := hk.1
  exact ⟨Nat.le_add_right i j, Nat.add_lt_add_left hj.1.2 i, hd.lt_index i⟩

/-- A run closes the same tags over the same spans, only further on, if it starts further on. -/
lemma run_add (m : Dfa D A T) (n i : Nat) (symbols : List A) (t : T) :
    (m.run (n + i) symbols).1.bind (·[t]?) =
      ((m.run i symbols).1.bind (·[t]?)).map (Span.shift n) := by
  ext s
  rw [Option.map_eq_some_iff, run_getElem?_iff]
  constructor
  · rintro ⟨j, k, rfl, hk, hj⟩
    refine ⟨⟨i + j, i + k⟩, (run_getElem?_iff i symbols t _).2 ⟨j, k, rfl, hk, hj⟩, ?_⟩
    rw [Span.shift, Nat.add_assoc, Nat.add_assoc]
  · rintro ⟨s, hs, rfl⟩
    obtain ⟨j, k, rfl, hk, hj⟩ := (run_getElem?_iff i symbols t s).1 hs
    exact ⟨j, k, by rw [Span.shift, Nat.add_assoc, Nat.add_assoc], hk, hj⟩

/-! ### Symbols at the end -/

/-- A run over a single symbol closes the tags of the state that it is read from, unless it leads back
to this state. -/
lemma runFrom_singleton (m : Dfa D A T) (d : D) (position : Nat) (opened : KeyMap T Nat)
    (closed : Spans T) (a : A) :
    m.runFrom d position opened closed [a] =
      (if m.next? d a = some d then closed else m.closeTags d position opened closed,
        position + 1) := by
  cases ha : m.next? d a with
  | none => rw [runFrom_dead ha, if_neg (by simp)]
  | some d' =>
      by_cases hstay : d' = d
      · subst hstay
        rw [runFrom_stay ha, if_pos rfl, runFrom]
      · rw [runFrom_leave ha hstay, if_neg (by simpa using hstay), runFrom]

/-- What a run makes of the symbols at the end depends on the others only through the state that they
are read from, and on what was opened and closed there. -/
lemma runFrom_append_congr {v v' : List A}
    (h : ∀ q, m.after? d w = some q → ∀ position opened closed,
      m.runFrom q position opened closed v = m.runFrom q position opened closed v') :
    m.runFrom d position opened closed (w ++ v) = m.runFrom d position opened closed (w ++ v') := by
  induction w generalizing d position opened closed with
  | nil => exact h d rfl position opened closed
  | cons a w ih =>
      rw [List.cons_append, List.cons_append]
      cases ha : m.next? d a with
      | none => rw [runFrom_dead ha, runFrom_dead ha]
      | some d' =>
          have hrest : ∀ q, m.after? d' w = some q → ∀ position opened closed,
              m.runFrom q position opened closed v = m.runFrom q position opened closed v' :=
            fun q hq => h q (by rw [after?, ha]; exact hq)
          by_cases hstay : d' = d
          · subst hstay
            rw [runFrom_stay ha, runFrom_stay ha, ih hrest]
          · rw [runFrom_leave ha hstay, runFrom_leave ha hstay, ih hrest]

/-! ### Successive runs -/

/-- The runs over some symbols are the first one and those from where the next one starts. -/
lemma runsFrom_eq (m : Dfa D A T) (i : Nat) (h : symbols ≠ []) :
    m.runsFrom i symbols =
      (i, (m.run i symbols).1) ::
        m.runsFrom (restart i (m.run i symbols).2)
          (symbols.drop (restart i (m.run i symbols).2 - i)) := by
  cases symbols with
  | nil => exact absurd rfl h
  | cons a rest =>
      have hpos : restart i (m.run i (a :: rest)).2 - i =
          restart i (m.run i (a :: rest)).2 - i - 1 + 1 := by
        have : i + 1 ≤ restart i (m.run i (a :: rest)).2 := le_max_right _ _
        omega
      rw [runsFrom, hpos, List.drop_succ_cons]

/-- The next run starts where a run could not read on, but always further on: within the same part of
the symbols, if anything is left of it, and otherwise behind the symbol that follows. -/
lemma runsFrom_within (hi : i ≤ u.length) (hn : i + n ≤ u.length)
    (hindex : (m.run i (u.drop i ++ a :: rest)).2 = i + n + 1) :
    m.runsFrom i (u.drop i ++ a :: rest) =
      (i, (m.run i (u.drop i ++ a :: rest)).1) ::
        if i < u.length then
          m.runsFrom (max (i + n) (i + 1)) (u.drop (max (i + n) (i + 1)) ++ a :: rest)
        else m.runsFrom (u.length + 1) rest := by
  have hrestart : restart i (i + n + 1) = max (i + n) (i + 1) := rfl
  rw [runsFrom_eq m i (by simp), hindex, hrestart]
  congr 1
  split
  next hlt =>
    rw [List.drop_append_of_le_length (by rw [List.length_drop]; omega), List.drop_drop]
    congr 3
    omega
  next hge =>
    obtain rfl : i = u.length := by omega
    have hnext : max (u.length + n) (u.length + 1) = u.length + 1 := by omega
    rw [hnext, List.drop_length, Nat.add_sub_cancel_left]
    rfl

/-- The runs over some symbols are runs over what is left of them from some position on. -/
lemma exists_of_mem_runsFrom {x : Nat × Option (Spans T)} (h : x ∈ m.runsFrom i symbols) :
    ∃ n < symbols.length, x = (i + n, (m.run (i + n) (symbols.drop n)).1) := by
  induction hlen : symbols.length using Nat.strong_induction_on generalizing i symbols with
  | _ len ih =>
      by_cases hne : symbols = []
      · rw [hne, runsFrom] at h
        cases h
      · have hpos := List.length_pos_of_ne_nil hne
        rw [runsFrom_eq m i hne, List.mem_cons] at h
        rcases h with rfl | h
        · exact ⟨0, by omega, rfl⟩
        · -- the later runs start further on
          have hstart : i + 1 ≤ restart i (m.run i symbols).2 := le_max_right _ _
          generalize restart i (m.run i symbols).2 = next at h hstart
          have hshort : (symbols.drop (next - i)).length < len := by
            rw [List.length_drop]
            omega
          obtain ⟨n, hn, rfl⟩ := ih _ hshort h rfl
          rw [List.length_drop] at hn
          have hpos : next + n = i + (next - i + n) := by omega
          exact ⟨next - i + n, by omega, by rw [List.drop_drop, hpos]⟩

/-- What a run closes ends before the later runs start. -/
lemma pairwise_runsFrom (m : Dfa D A T) (i : Nat) (symbols : List A) :
    (m.runsFrom i symbols).Pairwise fun x y =>
      ∀ (t : T) (s : Span), x.2.bind (·[t]?) = some s → s.stop ≤ y.1 := by
  induction hlen : symbols.length using Nat.strong_induction_on generalizing i symbols with
  | _ len ih =>
      by_cases hne : symbols = []
      · rw [hne, runsFrom]
        exact .nil
      · have hpos := List.length_pos_of_ne_nil hne
        have hstart : i + 1 ≤ restart i (m.run i symbols).2 := le_max_right _ _
        have hindex : (m.run i symbols).2 - 1 ≤ restart i (m.run i symbols).2 := le_max_left _ _
        rw [runsFrom_eq m i hne, List.pairwise_cons]
        refine ⟨fun y hy t s hs => ?_, ih _ ?_ _ _ rfl⟩
        · obtain ⟨n, -, rfl⟩ := exists_of_mem_runsFrom hy
          obtain ⟨-, -, hstop⟩ := span_of_run hs
          omega
        · rw [List.length_drop]
          omega

end Dfa

end CaptureAutomata
