/-
What a run closes:

* `Dfa.LeavesAt`: the run over some symbols leaves a state on the symbol at a position;
* `Dfa.openings`, `Dfa.closings`: the positions where states are left that a tag starts, or ends, in;
* `Dfa.Ledger`: what is open and what is closed after some symbols. Every step keeps it
  (`Ledger.stay`, `Ledger.leave`), and so does the whole run (`Ledger.runFrom`);
* `Dfa.run_getElem?_iff`: a run closes a tag over the span from the last opening before its last closing
  to that closing.
-/
import CaptureAutomata.Proofs.Dfa.Tags
import CaptureAutomata.Proofs.Nfa.Determinization

namespace CaptureAutomata

/-- The members of a set of positions that come before `k`. -/
def before (P : Set Nat) (k : Nat) : Set Nat :=
  {j | j ∈ P ∧ j < k}

section Before

variable {P : Set Nat} {j k l : Nat}

/-- The last position before `k + 1` is `k`, if it is a member. -/
lemma isGreatest_before_succ (h : k ∈ P) : IsGreatest (before P (k + 1)) j ↔ j = k := by
  have hk : IsGreatest (before P (k + 1)) k := ⟨⟨h, by omega⟩, fun i hi => by
    have := hi.2
    omega⟩
  exact ⟨fun hj => hj.unique hk, fun hj => hj ▸ hk⟩

/-- If `k` is no member, the same positions come before `k` and before `k + 1`. -/
lemma before_succ (h : k ∉ P) : before P (k + 1) = before P k := by
  ext i
  refine and_congr_right fun hi => ?_
  have hne : i ≠ k := fun heq => h (heq ▸ hi)
  omega

lemma before_eq_self (h : ∀ i ∈ P, i < k) : before P k = P :=
  Set.ext fun i => and_iff_left_of_imp (h i)

/-- Of two bounds the smaller one counts. -/
lemma before_before (hkl : k ≤ l) : before (before P l) k = before P k := by
  ext i
  constructor
  · rintro ⟨hi, hlt⟩
    exact ⟨hi.1, hlt⟩
  · rintro ⟨hi, hlt⟩
    exact ⟨⟨hi, hlt.trans_le hkl⟩, hlt⟩

/-- The last position before `k + 1` is the last one of all exactly if none comes behind `k`. -/
lemma isGreatest_iff_before (hj : j ≤ k) :
    IsGreatest P j ↔ IsGreatest (before P (k + 1)) j ∧ ∀ i ∈ P, i ≤ k := by
  constructor
  · rintro ⟨hmem, hlast⟩
    exact ⟨⟨⟨hmem, by omega⟩, fun i hi => hlast hi.1⟩, fun i hi => (hlast hi).trans hj⟩
  · rintro ⟨⟨hmem, hlast⟩, hle⟩
    exact ⟨hmem.1, fun i hi => hlast ⟨hi, by have := hle i hi; omega⟩⟩

end Before

namespace Dfa

variable {D A T : Type} [Key D] [Key A] [Key T] {m : Dfa D A T} {d d' : D} {symbols : List A}
  {i k : Nat} {a : A} {t : T} {opened : KeyMap T Nat} {closed : Spans T}

/-! ### Leaving states -/

/-- After `k` of the symbols the run is in `d`, and the next symbol does not keep it there. -/
def LeavesAt (m : Dfa D A T) (symbols : List A) (k : Nat) (d : D) : Prop :=
  m.after? m.initial (symbols.take k) = some d ∧
    ∃ a, symbols[k]? = some a ∧ m.next? d a ≠ some d

/-- The positions where a state is left that the tag starts in. -/
def openings (m : Dfa D A T) (symbols : List A) (t : T) : Set Nat :=
  {k | ∃ d, m.LeavesAt symbols k d ∧ t ∈ m.tagsStarting d}

/-- The positions where a state is left that the tag ends in. -/
def closings (m : Dfa D A T) (symbols : List A) (t : T) : Set Nat :=
  {k | ∃ d, m.LeavesAt symbols k d ∧ t ∈ m.tagsEnding d}

lemma LeavesAt.unique (h : m.LeavesAt symbols k d) (h' : m.LeavesAt symbols k d') : d' = d :=
  Option.some.inj (h'.1.symm.trans h.1)

lemma LeavesAt.lt_length (h : m.LeavesAt symbols k d) : k < symbols.length := by
  obtain ⟨-, a, ha, -⟩ := h
  exact (List.getElem?_eq_some_iff.1 ha).1

/-- Where a state is left, the tags that start in it are opened. -/
lemma LeavesAt.mem_openings (h : m.LeavesAt symbols k d) :
    k ∈ m.openings symbols t ↔ t ∈ m.tagsStarting d :=
  ⟨fun ⟨_, h', ht⟩ => h.unique h' ▸ ht, fun ht => ⟨d, h, ht⟩⟩

/-- Where a state is left, the tags that end in it are closed. -/
lemma LeavesAt.mem_closings (h : m.LeavesAt symbols k d) :
    k ∈ m.closings symbols t ↔ t ∈ m.tagsEnding d :=
  ⟨fun ⟨_, h', ht⟩ => h.unique h' ▸ ht, fun ht => ⟨d, h, ht⟩⟩

lemma after?_take_succ (ha : symbols[k]? = some a)
    (hd : m.after? m.initial (symbols.take k) = some d) :
    m.after? m.initial (symbols.take (k + 1)) = m.next? d a := by
  rw [List.take_add_one, ha, Option.toList_some, after?_append_singleton, hd]
  rfl

/-- No state is left where the run stays. -/
lemma not_leavesAt_of_stay (ha : symbols[k]? = some a)
    (hd : m.after? m.initial (symbols.take k) = some d) (hstay : m.next? d a = some d) :
    ¬ m.LeavesAt symbols k d' := by
  rintro ⟨hd', b, hb, hleaves⟩
  obtain rfl := Option.some.inj (hd.symm.trans hd')
  obtain rfl := Option.some.inj (ha.symm.trans hb)
  exact hleaves hstay

/-- Behind a symbol that the run ends on no state is left. -/
lemma LeavesAt.le_of_dead {j : Nat} (h : m.LeavesAt symbols j d') (ha : symbols[k]? = some a)
    (hd : m.after? m.initial (symbols.take k) = some d) (hdead : m.next? d a = none) : j ≤ k := by
  by_contra hlt
  have hsplit : symbols.take j = symbols.take (k + 1) ++ (symbols.drop (k + 1)).take (j - (k + 1)) := by
    rw [← List.take_add]
    congr 1
    omega
  have hj := h.1
  rw [hsplit, after?_append, after?_take_succ ha hd, hdead] at hj
  cases hj

/-! ### What is open and what is closed -/

/-- The tags that are open, and those that are closed, after `k` symbols of a run that starts at
position `i`: a tag is open from its last opening on, and was closed at its last closing, over the
span from the last opening before. -/
structure Ledger (m : Dfa D A T) (i : Nat) (symbols : List A) (k : Nat) (opened : KeyMap T Nat)
    (closed : Spans T) : Prop where
  /-- The last opening counts. -/
  opened_iff : ∀ t p, opened[t]? = some p ↔
    ∃ s, p = i + s ∧ IsGreatest (before (m.openings symbols t) k) s
  /-- The last closing counts, and the last opening before it. -/
  closed_iff : ∀ t x, closed[t]? = some x ↔
    ∃ s e, x = ⟨i + s, i + e⟩ ∧ IsGreatest (before (m.closings symbols t) k) e ∧
      IsGreatest (before (m.openings symbols t) e) s

/-- At first nothing is open, and nothing closed. -/
lemma ledger_zero : Ledger m i symbols 0 ∅ ∅ where
  opened_iff t p := by
    simp only [Std.ExtTreeMap.getElem?_empty, reduceCtorEq, false_iff]
    rintro ⟨s, -, hs⟩
    exact absurd hs.1.2 (Nat.not_lt_zero s)
  closed_iff t x := by
    simp only [Std.ExtTreeMap.getElem?_empty, reduceCtorEq, false_iff]
    rintro ⟨-, e, -, he, -⟩
    exact absurd he.1.2 (Nat.not_lt_zero e)

/-- A step that stays in a state neither opens nor closes. -/
lemma Ledger.stay (h : Ledger m i symbols k opened closed) (hstay : ∀ d, ¬ m.LeavesAt symbols k d) :
    Ledger m i symbols (k + 1) opened closed := by
  have hopen : ∀ t, k ∉ m.openings symbols t := fun t ⟨d, hd, _⟩ => hstay d hd
  have hclose : ∀ t, k ∉ m.closings symbols t := fun t ⟨d, hd, _⟩ => hstay d hd
  refine ⟨fun t p => ?_, fun t x => ?_⟩
  · rw [before_succ (hopen t)]
    exact h.opened_iff t p
  · rw [before_succ (hclose t)]
    exact h.closed_iff t x

/-- What is closed where a state is left. -/
lemma Ledger.closeTags_iff (h : Ledger m i symbols k opened closed) (hd : m.LeavesAt symbols k d)
    (t : T) (x : Span) :
    (m.closeTags d (i + k) opened closed)[t]? = some x ↔
      ∃ s e, x = ⟨i + s, i + e⟩ ∧ IsGreatest (before (m.closings symbols t) (k + 1)) e ∧
        IsGreatest (before (m.openings symbols t) e) s := by
  rw [getElem?_closeTags]
  by_cases hend : t ∈ m.tagsEnding d
  · rw [if_pos hend]
    simp only [isGreatest_before_succ (hd.mem_closings.2 hend)]
    cases ho : opened[t]? with
    | some p =>
        obtain ⟨s, rfl, hs⟩ := (h.opened_iff t p).1 ho
        rw [Option.map_some, Option.some_or, Option.some.injEq]
        constructor
        · rintro rfl
          exact ⟨s, k, rfl, rfl, hs⟩
        · rintro ⟨s', e, rfl, rfl, hs'⟩
          rw [hs'.unique hs]
    | none =>
        -- a tag that was closed before would still be open
        have hnone : ∀ s e, e ≤ k → ¬ IsGreatest (before (m.openings symbols t) e) s := by
          intro s e he hs
          have hbdd : BddAbove (before (m.openings symbols t) k) := ⟨k, fun j hj => hj.2.le⟩
          have hmem : s ∈ before (m.openings symbols t) k := ⟨hs.1.1, hs.1.2.trans_le he⟩
          have hlast := (h.opened_iff t _).2
            ⟨_, rfl, Nat.sSup_mem ⟨s, hmem⟩ hbdd, fun j hj => le_csSup hbdd hj⟩
          rw [ho] at hlast
          cases hlast
        rw [Option.map_none, Option.none_or, h.closed_iff]
        constructor
        · rintro ⟨s, e, -, he, hs⟩
          exact absurd hs (hnone s e he.1.2.le)
        · rintro ⟨s, e, -, rfl, hs⟩
          exact absurd hs (hnone s e le_rfl)
  · rw [if_neg hend, before_succ fun hk => hend (hd.mem_closings.1 hk)]
    exact h.closed_iff t x

/-- Where a state is left, its tags are closed and opened. -/
lemma Ledger.leave (h : Ledger m i symbols k opened closed) (hd : m.LeavesAt symbols k d) :
    Ledger m i symbols (k + 1) (m.openTags d (i + k) opened) (m.closeTags d (i + k) opened closed) where
  opened_iff t p := by
    rw [getElem?_openTags]
    by_cases hstart : t ∈ m.tagsStarting d
    · rw [if_pos hstart, Option.some.injEq]
      simp only [isGreatest_before_succ (hd.mem_openings.2 hstart), exists_eq_right]
      exact eq_comm
    · rw [if_neg hstart, before_succ fun hk => hstart (hd.mem_openings.1 hk)]
      exact h.opened_iff t p
  closed_iff := h.closeTags_iff hd

/-- What a run has closed at its end, if the ledger is right where it goes on. -/
lemma Ledger.runFrom {w : List A} (h : Ledger m i symbols k opened closed)
    (hd : m.after? m.initial (symbols.take k) = some d) (hw : symbols.drop k = w) (t : T) (x : Span) :
    (m.runFrom d (i + k) opened closed w).1[t]? = some x ↔
      ∃ s e, x = ⟨i + s, i + e⟩ ∧ IsGreatest (m.closings symbols t) e ∧
        IsGreatest (before (m.openings symbols t) e) s := by
  induction w generalizing k d opened closed with
  | nil =>
      have hall : ∀ j ∈ m.closings symbols t, j < k := by
        rintro j ⟨d', hd', -⟩
        have := hd'.lt_length
        rw [List.drop_eq_nil_iff] at hw
        omega
      rw [Dfa.runFrom, h.closed_iff, before_eq_self hall]
  | cons a w ih =>
      have ha : symbols[k]? = some a := by
        rw [← List.head?_drop, hw]
        rfl
      have hrest : symbols.drop (k + 1) = w := by
        rw [← List.tail_drop, hw]
        rfl
      have hnext := after?_take_succ ha hd
      cases hn : m.next? d a with
      | none =>
          have hleaves : m.LeavesAt symbols k d := ⟨hd, a, ha, by simp [hn]⟩
          have hall : ∀ j ∈ m.closings symbols t, j < k + 1 := by
            rintro j ⟨d', hd', -⟩
            have := hd'.le_of_dead ha hd hn
            omega
          rw [runFrom_dead hn, h.closeTags_iff hleaves, before_eq_self hall]
      | some d' =>
          rw [hn] at hnext
          by_cases hstay : d' = d
          · subst hstay
            rw [runFrom_stay hn, Nat.add_assoc]
            exact ih (h.stay fun _ => not_leavesAt_of_stay ha hd hn) hnext hrest
          · have hleaves : m.LeavesAt symbols k d := ⟨hd, a, ha, by simp [hn, hstay]⟩
            rw [runFrom_leave hn hstay, Nat.add_assoc]
            exact ih (h.leave hleaves) hnext hrest

/-- A run closes a tag over the span from the last opening before the last closing to that closing. -/
theorem run_getElem?_iff (i : Nat) (symbols : List A) (t : T) (x : Span) :
    (m.run i symbols).1.bind (·[t]?) = some x ↔
      ∃ s e, x = ⟨i + s, i + e⟩ ∧ IsGreatest (m.closings symbols t) e ∧
        IsGreatest (before (m.openings symbols t) e) s := by
  rw [run_bind]
  exact ledger_zero.runFrom rfl rfl t x

end Dfa

end CaptureAutomata
