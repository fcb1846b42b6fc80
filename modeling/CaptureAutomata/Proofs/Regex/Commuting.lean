/-
The branches of two patterns in either order:

* `Pattern.either`: a pattern whose branches are those of one pattern and then those of another, and
  what is written down for it;
* `swapBlocks`: the states of the branches of two patterns in the other order;
* `Pattern.mirrors_either`: in this order the states stand for each other;
* `Regex.spans_matchesIn_either`: so the same is matched in either order.
-/
import CaptureAutomata.Proofs.Pattern.Moving
import CaptureAutomata.Proofs.Regex.Lockstep

namespace CaptureAutomata

/-! ### Branches of two patterns -/

namespace Pattern

/-- The pattern with the branches of one pattern and then those of another. -/
def either (p : Pattern) : Pattern → Pattern
  | .single branch => .alternative p branch
  | .alternative branches branch => .alternative (p.either branches) branch

@[simp] lemma text_either (p q : Pattern) : (p.either q).text = p.text ++ '|' :: q.text := by
  cases q with
  | single branch => rfl
  | alternative branches branch =>
      rw [either, text, p.text_either branches, text, List.append_assoc, List.cons_append]

lemma wellFormed_either {p q : Pattern} (hp : p.WellFormed) (hq : q.WellFormed) :
    (p.either q).WellFormed := by
  cases q with
  | single branch => exact ⟨hp, hq⟩
  | alternative branches branch => exact ⟨wellFormed_either hp hq.1, hq.2⟩

/-- Its branches take up the states of both. -/
lemma branchStates_either (p q : Pattern) :
    (p.either q).branchStates = p.branchStates + q.branchStates := by
  cases q with
  | single branch => rfl
  | alternative branches branch =>
      rw [either, branchStates, p.branchStates_either branches, branchStates, Nat.add_assoc]

@[simp] lemma states_either (p q : Pattern) :
    (p.either q).states = p.branchStates + q.branchStates + 1 := by
  rw [states, branchStates_either]
  cases q <;> rfl

@[simp] lemma stop_either (p q : Pattern) (n s : Nat) :
    (p.either q).stop n s = n + (p.branchStates + q.branchStates) := by
  rw [← branchStates_either]
  cases q <;> rfl

/-- Its branches end where those of the patterns do. -/
lemma stops_either (p q : Pattern) (n s : Nat) :
    (p.either q).stops n s = p.stops n s ++ q.stops (n + p.branchStates) s := by
  cases q with
  | single branch => rfl
  | alternative branches branch =>
      rw [either, stops, p.stops_either branches, stops, branchStates_either, List.append_assoc,
        Nat.add_assoc]

/-- Its branches have the transitions of those of the patterns. -/
lemma branchEdges_either (p q : Pattern) (n s : Nat) :
    (p.either q).branchEdges n s = p.branchEdges n s ++ q.branchEdges (n + p.branchStates) s := by
  cases q with
  | single branch => rfl
  | alternative branches branch =>
      rw [either, branchEdges, p.branchEdges_either branches, branchEdges, branchStates_either,
        List.append_assoc, Nat.add_assoc]

/-- The branches are led together. -/
lemma joinEdges_either (p q : Pattern) (n s : Nat) :
    (p.either q).joinEdges n s =
      ((p.either q).stops n s).map fun e => ⟨e, none, (p.either q).stop n s⟩ := by
  cases q <;> rfl

/-- It has the transitions of the branches of both patterns, and those that lead all of them together.
-/
lemma mem_edges_either {p q : Pattern} {n s : Nat} {e : Edge Nat (Option Char)} :
    e ∈ (p.either q).edges n s ↔
      e ∈ p.branchEdges n s ∨ e ∈ q.branchEdges (n + p.branchStates) s ∨
        ∃ x, (x ∈ p.stops n s ∨ x ∈ q.stops (n + p.branchStates) s) ∧
          e = ⟨x, none, n + (p.branchStates + q.branchStates)⟩ := by
  rw [edges, branchEdges_either, joinEdges_either, stops_either, stop_either, List.append_assoc]
  simp only [List.mem_append, List.mem_map, eq_comm]

end Pattern

/-! ### The other order -/

/-- The states with the `j` and `k` states behind the first two of them in the other order. -/
def swapBlocks (j k s : Nat) : Nat :=
  if s < 2 then s else if s < 2 + j then s + k else if s < 2 + j + k then s - j else s

section Swap

variable (j k : Nat)

@[simp] lemma swapBlocks_swapBlocks (s : Nat) : swapBlocks k j (swapBlocks j k s) = s := by
  simp only [swapBlocks]
  split_ifs <;> omega

/-- The first of them come last. -/
lemma moves_swapBlocks_left : Moves (swapBlocks j k) 2 (2 + k) j := fun i hi => by
  rw [swapBlocks, if_neg (by omega), if_pos (by omega)]
  omega

/-- The last of them come first. -/
lemma moves_swapBlocks_right : Moves (swapBlocks j k) (2 + j) 2 k := fun i hi => by
  rw [swapBlocks, if_neg (by omega), if_neg (by omega), if_pos (by omega)]
  omega

/-- The state behind them stays behind them. -/
lemma swapBlocks_behind : swapBlocks j k (2 + (j + k)) = 2 + (k + j) := by
  rw [swapBlocks, if_neg (by omega), if_neg (by omega), if_neg (by omega), Nat.add_comm j k]

/-- No other states are added. -/
lemma swapBlocks_lt {s : Nat} (hs : s < 2 + (j + k + 1)) : swapBlocks j k s < 2 + (k + j + 1) := by
  rw [swapBlocks]
  split_ifs <;> omega

end Swap

namespace Pattern

variable {p q : Pattern} {m m' : PatternNfa}

/-- In the other order, a pattern has its transitions between the states in the other order. -/
lemma map_mem_edges_either {e : Edge Nat (Option Char)} (he : e ∈ (p.either q).edges 2 1) :
    e.map (swapBlocks p.branchStates q.branchStates) ∈ (q.either p).edges 2 1 := by
  have hp := moves_swapBlocks_left p.branchStates q.branchStates
  have hq := moves_swapBlocks_right p.branchStates q.branchStates
  -- all branches start in state 1, in either order
  have hone : swapBlocks p.branchStates q.branchStates 1 = 1 := rfl
  rw [mem_edges_either] at he ⊢
  rcases he with he | he | ⟨x, hx, rfl⟩
  · rw [p.branchEdges_map hone hp]
    exact Or.inr (Or.inl (List.mem_map_of_mem he))
  · rw [q.branchEdges_map hone hq]
    exact Or.inl (List.mem_map_of_mem he)
  · refine Or.inr (Or.inr ⟨swapBlocks p.branchStates q.branchStates x, ?_, ?_⟩)
    · rw [stops_map hone hq, stops_map hone hp]
      exact hx.symm.imp List.mem_map_of_mem List.mem_map_of_mem
    · rw [Edge.map, swapBlocks_behind]

/-- So do the automata. -/
lemma run_swapBlocks (hm : m.IsLaidOutAs (p.either q)) (hm' : m'.IsLaidOutAs (q.either p)) {s t : Nat}
    {l : Option Char} (ht : t ∈ m.graph.targets s l) :
    m'.Run (swapBlocks p.branchStates q.branchStates s) l.toList
      (swapBlocks p.branchStates q.branchStates t) := by
  refine Nfa.Run.of_mem_targets ((hm'.mem_targets _ l _).2 ?_)
  rcases List.mem_cons.1 ((hm.mem_targets s l t).1 ht) with heq | he
  · cases heq
    exact .head _
  · exact .tail _ (map_mem_edges_either he)

/-- In the automata of two patterns in either order the states stand for each other. -/
lemma mirrors_either (hm : m.IsLaidOutAs (p.either q)) (hm' : m'.IsLaidOutAs (q.either p)) :
    m'.Mirrors m (swapBlocks q.branchStates p.branchStates) := by
  refine hm.mirrors hm' rfl rfl (fun _ _ _ => run_swapBlocks hm hm')
    (fun _ _ _ => run_swapBlocks hm' hm) (fun t => ?_) fun s hs => ⟨?_, swapBlocks_swapBlocks _ _ s⟩
  · rw [swapBlocks_swapBlocks]
    exact .nil t
  · rw [states_either] at hs ⊢
    exact swapBlocks_lt _ _ hs

/-- It is read from the two patterns with a bar between them. -/
lemma parse_either {text text' : String} (hp : Pattern.parse text = .ok p)
    (hq : Pattern.parse text' = .ok q) :
    Pattern.parse (text ++ "|" ++ text') = .ok (p.either q) := by
  have hwf := wellFormed_either (wellFormed_of_parse hp) (wellFormed_of_parse hq)
  refine parse_of_wellFormed hwf ?_ fun hempty => ?_
  · rw [text_either, text_of_parse hp, text_of_parse hq]
    simp
  · simpa using congrArg String.toList hempty

end Pattern

/-! ### Matches -/

namespace Regex

/-- Two patterns with a bar between them are a pattern, in either order, and in any text the same is
matched in either order. -/
theorem spans_matchesIn_either {pattern pattern' : String} {m m' : PatternNfa}
    (h : Nfa.ofPattern pattern = .ok m) (h' : Nfa.ofPattern pattern' = .ok m') :
    (∃ n, Nfa.ofPattern (pattern ++ "|" ++ pattern') = .ok n) ∧
      (∃ n', Nfa.ofPattern (pattern' ++ "|" ++ pattern) = .ok n') ∧
      ∀ sentinel, ∃ r r', compile (pattern ++ "|" ++ pattern') sentinel = .ok r ∧
        compile (pattern' ++ "|" ++ pattern) sentinel = .ok r' ∧
        ∀ text, (r.matchesIn text).map (·.span) = (r'.matchesIn text).map (·.span) := by
  obtain ⟨p, hp, -⟩ := Pattern.exists_of_ofPattern h
  obtain ⟨q, hq, -⟩ := Pattern.exists_of_ofPattern h'
  have hpq := Pattern.parse_either hp hq
  have hqp := Pattern.parse_either hq hp
  refine ⟨Pattern.exists_nfa_of_parse ⟨_, hpq⟩, Pattern.exists_nfa_of_parse ⟨_, hqp⟩,
    fun sentinel => ?_⟩
  have hstop : swapBlocks q.branchStates p.branchStates ((q.either p).stop 2 1) =
      (p.either q).stop 2 1 := by
    rw [Pattern.stop_either, Pattern.stop_either, swapBlocks_behind]
  obtain ⟨r, r', hr, hr', hspans⟩ := exists_forall₂_matchesIn hpq hqp Pattern.mirrors_either rfl hstop
    (Q := fun x y => x.span = y.span) (fun _ _ _ i w k x y hx hy => hx.span_eq.trans hy.span_eq.symm)
    sentinel
  refine ⟨r, r', hr, hr', fun text => ?_⟩
  rw [← List.forall₂_eq_eq_eq, List.forall₂_map_left_iff, List.forall₂_map_right_iff]
  exact hspans text

/-- Because `a+` leads back to where all branches start, `cd` can be read behind it: in `xaacd` all of
`aacd` is a match of `a+|(b|cd)`, and so it is one of `(b|cd)|a+`. -/
theorem spans_matchesIn_either_of_loop :
    ∃ m m', Nfa.ofPattern "a+" = .ok m ∧ Nfa.ofPattern "(b|cd)" = .ok m' ∧
      ∃ r', compile "(b|cd)|a+" = .ok r' ∧ (r'.matchesIn "xaacd").map (·.span) = [⟨1, 5⟩] := by
  have hloop : ∃ p, Pattern.parse "a+" = .ok p := ⟨_, rfl⟩
  have hgroup : ∃ p, Pattern.parse "(b|cd)" = .ok p := ⟨_, rfl⟩
  obtain ⟨m, hm⟩ := Pattern.exists_nfa_of_parse hloop
  obtain ⟨m', hm'⟩ := Pattern.exists_nfa_of_parse hgroup
  obtain ⟨r, hr, hfound⟩ := exists_ok_of_decide (x := compile "a+|(b|cd)")
    (P := fun r => (r.matchesIn "xaacd").map (·.span) = [⟨1, 5⟩]) (by decide +kernel)
  obtain ⟨-, -, hall⟩ := spans_matchesIn_either hm hm'
  obtain ⟨r₁, r', hr₁, hr', hspans⟩ := hall defaultSentinel
  obtain rfl := Except.ok.inj (hr.symm.trans hr₁)
  exact ⟨m, m', hm, hm', r', hr', (hspans "xaacd").symm.trans hfound⟩

end Regex

end CaptureAutomata
