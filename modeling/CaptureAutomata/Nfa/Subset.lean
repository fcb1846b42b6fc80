/-
The subset construction, which turns a nondeterministic automaton into a deterministic one whose
states are sets of states:

* `Nfa.moves`: the sets reached from a set of states, by symbol;
* `Nfa.rowsFrom`: the rows of the table of sets and moves. It stops because `n` states have no more
  than `2 ^ n` sets (`size_le_two_pow`), and moves lead to such sets (`mem_stateSets_of_moves`);
* `Nfa.toDfa`: the deterministic automaton. A tag starts, or ends, in a set that contains the state
  it starts, or ends, in;
* `Nfa.Worklist`, `Nfa.round`: the construction as a loop over a queue of sets. The first of them is taken
  off, and unless it has been constructed it is, and all sets that its moves lead to join the queue, the
  same set as often as a move leads to it;
* `Nfa.rounds`, `Nfa.beginWorklist`: some rounds, and where they begin.
-/
import CaptureAutomata.Nfa.Basic
import CaptureAutomata.Dfa.Basic

namespace CaptureAutomata.Nfa

variable {S A T : Type} [Key S] [Key A]

/-- What can go wrong in the subset construction. -/
inductive SubsetError (S A : Type) [Key S]
  /-- A state is missing from the given automaton. -/
  | state (cause : Undefined S (Option A))
  /-- A set of states is missing from the constructed automaton. -/
  | states (cause : Undefined (KeySet S) A)

/-- The text of the error. -/
def SubsetError.message [Quoted S] [Quoted A] : SubsetError S A → String
  | state cause => cause.message
  | states cause => cause.message

/-! ### One set of states -/

/-- Adds the target of a transition on a symbol to the targets of this symbol. -/
def addTarget (targets : KeyMap A (KeySet S)) (e : Edge S (Option A)) : KeyMap A (KeySet S) :=
  match e.label with
  | none => targets
  | some a => targets.insert a ((targets.getD a ∅).insert e.target)

/-- The sets of states reached from `states` by reading one symbol, and then none, by symbol. -/
def moves (m : Nfa S A T) (states : KeySet S) :
    Except (Undefined S (Option A)) (List (A × KeySet S)) := do
  let edges ← reading.paths m.graph.toDigraph states.toList
  let targets := edges.foldl addTarget ∅
  targets.toList.mapM fun p => do
    let closed ← m.epsilonClosure p.2.toList
    return (p.1, closed)

/-! ### All sets of states -/

/-- All sublists of a list. -/
def sublistsOf : List S → List (List S)
  | [] => [[]]
  | s :: l => sublistsOf l ++ (sublistsOf l).map (s :: ·)

omit [Key S] in
/-- A filtered list is a sublist. -/
theorem filter_mem_sublistsOf (p : S → Bool) (l : List S) : l.filter p ∈ sublistsOf l := by
  induction l with
  | nil => simp [sublistsOf]
  | cons s l ih =>
    simp only [sublistsOf, List.mem_append, List.mem_map, List.filter_cons]
    split
    · exact Or.inr ⟨_, ih, rfl⟩
    · exact Or.inl ih

omit [Key S] in
/-- Every further member doubles the number of sublists. -/
theorem length_sublistsOf (l : List S) : (sublistsOf l).length = Nat.pow 2 l.length := by
  induction l with
  | nil => rfl
  | cons s l ih =>
    rw [sublistsOf, List.length_append, List.length_map, ih]
    exact (Nat.mul_two _).symm

/-- All sets of states. -/
def stateSets (m : Nfa S A T) : List (KeySet S) :=
  (sublistsOf m.states).map fun l => .ofList l

/-- A set that holds only states is one of the sets of states. -/
theorem mem_stateSets {m : Nfa S A T} {states : KeySet S} (h : ∀ s ∈ states, s ∈ m.states) :
    states ∈ m.stateSets := by
  refine List.mem_map.2 ⟨_, filter_mem_sublistsOf (· ∈ states) m.states, ?_⟩
  apply Std.ExtTreeSet.ext_mem
  intro s
  simp only [Std.ExtTreeSet.mem_ofList, List.contains_iff_mem, List.mem_filter,
    decide_eq_true_eq]
  exact ⟨fun hs => hs.2, fun hs => ⟨h s hs, hs⟩⟩

/-- `n` states have no more than `2 ^ n` different sets. -/
theorem size_le_two_pow {m : Nfa S A T} {seen : KeySet (KeySet S)}
    (h : ∀ states ∈ seen, states ∈ m.stateSets) : seen.size ≤ Nat.pow 2 m.states.length := by
  have := KeySet.size_le_length h
  rwa [stateSets, List.length_map, length_sublistsOf] at this

/-- What is reached without reading is a set of states. -/
theorem mem_stateSets_of_epsilonClosure {m : Nfa S A T} {states : List S} {closed : KeySet S}
    (h : m.epsilonClosure states = .ok closed) : closed ∈ m.stateSets :=
  mem_stateSets (Traversal.mem_vertices_of_mem_closure h)

/-- All that a list is mapped to comes from its members. -/
theorem exists_of_mem_mapM {α β ε : Type} {f : α → Except ε β} {l : List α} {l' : List β}
    (h : l.mapM f = .ok l') : ∀ b ∈ l', ∃ a ∈ l, f a = .ok b := by
  induction l generalizing l' with
  | nil =>
    cases h
    simp
  | cons a l ih =>
    rw [List.mapM_cons] at h
    cases ha : f a with
    | error e => simp [ha, bind, Except.bind] at h
    | ok b =>
      cases hl : l.mapM f with
      | error e => simp [ha, hl, bind, Except.bind] at h
      | ok bs =>
        simp only [ha, hl, bind, Except.bind, pure, Except.pure, Except.ok.injEq] at h
        subst h
        intro c hc
        rcases List.mem_cons.1 hc with rfl | hc
        · exact ⟨a, .head _, ha⟩
        · obtain ⟨a', ha', hc⟩ := ih hl c hc
          exact ⟨a', .tail _ ha', hc⟩

/-- Moves lead to sets of states. -/
theorem mem_stateSets_of_moves {m : Nfa S A T} {states : KeySet S} {l : List (A × KeySet S)}
    (h : m.moves states = .ok l) : ∀ p ∈ l, p.2 ∈ m.stateSets := by
  rw [moves] at h
  cases hp : reading.paths m.graph.toDigraph states.toList with
  | error u => simp [hp, bind, Except.bind] at h
  | ok edges =>
    simp only [hp, bind, Except.bind] at h
    intro p hmem
    obtain ⟨q, -, hq⟩ := exists_of_mem_mapM h p hmem
    cases hc : m.epsilonClosure q.2.toList with
    | error u => simp [hc] at hq
    | ok closed =>
      simp only [hc, pure, Except.pure, Except.ok.injEq] at hq
      subst hq
      exact mem_stateSets_of_epsilonClosure hc

/-! ### The table -/

/-- A set of states, and the sets reached from it by symbol. -/
structure Row (S A : Type) [Key S] where
  /-- The states. -/
  states : KeySet S
  /-- The sets reached, by symbol. -/
  moves : List (A × KeySet S)

/-- The sets reached by the moves that are not in `seen`, each once. -/
def freshSets (seen : KeySet (KeySet S)) (moves : List (A × KeySet S)) : List (KeySet S) :=
  (seen.newcomers (·.2) moves).map (·.2)

omit [Key A] in
/-- Each fresh set adds one to the number of sets seen. -/
theorem size_insertMany_freshSets (seen : KeySet (KeySet S)) (moves : List (A × KeySet S)) :
    (seen.insertMany (freshSets seen moves)).size = seen.size + (freshSets seen moves).length := by
  rw [freshSets, List.length_map]
  exact KeySet.size_insertMany_newcomers seen moves

/-- The sets seen after a round are sets of states. -/
theorem mem_stateSets_of_seen {m : Nfa S A T} {states : KeySet S} {seen : KeySet (KeySet S)}
    {moves : List (A × KeySet S)} (hs : ∀ t ∈ seen, t ∈ m.stateSets)
    (h : m.moves states = .ok moves) :
    ∀ t ∈ seen.insertMany (freshSets seen moves), t ∈ m.stateSets := by
  intro t ht
  rcases KeySet.mem_insertMany_newcomers.1 ht with ht | ht
  · exact hs t ht
  · obtain ⟨p, hp, rfl⟩ := List.mem_map.1 ht
    exact mem_stateSets_of_moves h p hp

/-- The rows for the sets in `queue` and for all further ones that are reached from them, those in
`seen` being in the queue or done. -/
def rowsFrom (m : Nfa S A T) (seen : KeySet (KeySet S)) (hs : ∀ t ∈ seen, t ∈ m.stateSets) :
    (queue : List (KeySet S)) → Except (Undefined S (Option A)) (List (Row S A))
  | [] => .ok []
  | states :: queue =>
    match h : m.moves states with
    | .error u => .error u
    | .ok moves =>
      let found := freshSets seen moves
      (⟨states, moves⟩ :: ·) <$>
        m.rowsFrom (seen.insertMany found) (mem_stateSets_of_seen hs h) (queue ++ found)
termination_by queue => Nat.pow 2 m.states.length - seen.size + queue.length
decreasing_by
  have hle := size_le_two_pow (mem_stateSets_of_seen hs h)
  rw [size_insertMany_freshSets] at hle ⊢
  rw [List.length_append, List.length_cons]
  omega

/-- The rows for a set of states and for all further ones that are reached from it. -/
def rows (m : Nfa S A T) (initial : KeySet S) (h : initial ∈ m.stateSets) :
    Except (Undefined S (Option A)) (List (Row S A)) :=
  m.rowsFrom (.ofList [initial]) (fun t ht => by simp_all) [initial]

variable [Key T]

/-- Adds the transitions of a row, and the tags that start or end in its set. -/
def addRow (tags : List (Tag T S)) (b : Dfa.Builder (KeySet S) A T) (row : Row S A) :
    Dfa.Builder (KeySet S) A T :=
  let b := row.moves.foldl (fun b p => b.transition row.states p.1 p.2) b
  tags.foldl
    (fun b t =>
      let b := if t.start ∈ row.states then b.tagStart row.states t.name else b
      if t.stop ∈ row.states then b.tagEnd row.states t.name else b)
    b

/-- The deterministic automaton whose states are the sets of states reached by reading. -/
def toDfa (m : Nfa S A T) : Except (SubsetError S A) (Dfa (KeySet S) A T) :=
  match h : m.epsilonClosure [m.initial] with
  | .error u => .error (.state u)
  | .ok initial => do
    let rows ← (m.rows initial (mem_stateSets_of_epsilonClosure h)).mapError .state
    (rows.foldl (addRow m.tags) (.ofInitial initial)).build.mapError .states

/-! ### The same as a loop -/

/-- A subset construction that is going on. -/
structure Worklist (S A T : Type) [Key S] [Key A] [Key T] where
  /-- The sets that have been reached, in this order. A set may be among them many times, and when it
  has been constructed too. -/
  queue : List (KeySet S)
  /-- The sets that have been constructed. -/
  constructed : KeySet (KeySet S)
  /-- What has been collected for the deterministic automaton. -/
  dfa : Dfa.Builder (KeySet S) A T

namespace Worklist

/-- The worklist without the first set of its queue. -/
def skip (w : Worklist S A T) (queue : List (KeySet S)) : Worklist S A T :=
  { w with queue }

/-- The worklist when the first set of its queue has been constructed: the targets of the moves have
joined the queue, the moves are transitions, and tags start and end in the set. -/
def construct (w : Worklist S A T) (tags : List (Tag T S)) (states : KeySet S)
    (queue : List (KeySet S)) (moves : List (A × KeySet S)) : Worklist S A T where
  queue := queue ++ moves.map (·.2)
  constructed := w.constructed.insert states
  dfa := addRow tags w.dfa ⟨states, moves⟩

end Worklist

/-- The worklist after the first set of its queue has been dealt with. -/
def round (m : Nfa S A T) (w : Worklist S A T) :
    Except (Undefined S (Option A)) (Worklist S A T) :=
  match w.queue with
  | [] => .ok w
  | states :: queue =>
    if states ∈ w.constructed then .ok (w.skip queue)
    else w.construct m.tags states queue <$> m.moves states

/-- The worklist after `n` rounds. -/
def rounds (m : Nfa S A T) : (n : Nat) → Worklist S A T →
    Except (Undefined S (Option A)) (Worklist S A T)
  | 0, w => .ok w
  | n + 1, w => m.round w >>= m.rounds n

/-- The worklist before the first round: the states that are reached without reading are the only set of
the queue. -/
def beginWorklist (m : Nfa S A T) : Except (Undefined S (Option A)) (Worklist S A T) :=
  (fun initial => { queue := [initial], constructed := ∅, dfa := .ofInitial initial }) <$>
    m.epsilonClosure [m.initial]

end CaptureAutomata.Nfa
