/-
Automata of either kind, collected by one call after the other:

* `Nfa.Call`, `Nfa.Builder.ofCalls` and `Dfa.Call`, `Dfa.Builder.ofCalls`: what can be added to a builder, and
  what is collected by some calls;
* `DefinedBy`, and `Nfa.Defined`, `Dfa.Defined` for either kind: the states that there are: the initial one,
  those that were added, and the ends of all transitions that were, even if others have taken their place
  since;
* `Nfa.tagsOf`, `Dfa.Marked`: the tags that were added, in their order, or by their states;
* `Dfa.Takes`: of the transitions from one state on one symbol the last one counts;
* `Nfa.Collects`, `Dfa.Collects`: an automaton has the transitions and the tags that were added, and certain
  states;
* `Nfa.FirstUndefined`, `Dfa.FirstUndefined`: the error for the tags of which a state is not defined. It is
  about the tag that was added first, or about the least state.
-/
import CaptureAutomata.Dfa.Basic
import CaptureAutomata.Nfa.Basic

namespace CaptureAutomata

/-- The state is the initial one, or one of the calls makes it a state. -/
def DefinedBy {C S : Type} (defines : C → S → Prop) (initial : S) (calls : List C) (s : S) : Prop :=
  s = initial ∨ ∃ c ∈ calls, defines c s

/-! ### Nondeterministic automata -/

namespace Nfa

variable {S A T : Type}

/-- A call on a builder. -/
inductive Call (S A T : Type)
  /-- Adds a state. -/
  | state (s : S)
  /-- Adds a transition and both its ends. -/
  | transition (e : Edge S (Option A))
  /-- Adds a tag, without adding its states. -/
  | tag (t : Tag T S)
deriving DecidableEq, Repr

/-- The call makes `s` a state. -/
def Call.Defines : Call S A T → S → Prop
  | state s', s => s = s'
  | transition e, s => s = e.source ∨ s = e.target
  | tag _, _ => False

/-- The tag that the call adds, if it adds one. -/
def Call.tag? : Call S A T → Option (Tag T S)
  | tag t => some t
  | _ => none

/-- The state is the initial one, or one of the calls makes it a state. -/
abbrev Defined : S → List (Call S A T) → S → Prop :=
  DefinedBy Call.Defines

/-- The tags that the calls add, in their order. -/
def tagsOf (calls : List (Call S A T)) : List (Tag T S) :=
  calls.filterMap Call.tag?

/-- Of the tags that the calls add, the first one with an undefined state is at fault; its start is looked
at before its end. -/
def FirstUndefined (initial : S) (calls : List (Call S A T)) (u : Undefined S (Option A)) : Prop :=
  ∃ before t after, tagsOf calls = before ++ t :: after ∧
    (∀ t' ∈ before, Defined initial calls t'.start ∧ Defined initial calls t'.stop) ∧
    (¬ Defined initial calls t.start ∧ u = .tagStart t.start ∨
      Defined initial calls t.start ∧ ¬ Defined initial calls t.stop ∧ u = .tagEnd t.stop)

variable [Key S] [Key A]

/-- The automaton has the given states, and the transitions and the tags that the calls add. -/
structure Collects (m : Nfa S A T) (initial : S) (states : S → Prop) (calls : List (Call S A T)) :
    Prop where
  /-- A run starts where it should. -/
  initial_eq : m.initial = initial
  /-- The given states are there. -/
  contains_iff : ∀ s, m.graph.contains s = true ↔ states s
  /-- A transition is there if it has been added. -/
  mem_targets_iff : ∀ s a s', s' ∈ m.graph.targets s a ↔ .transition ⟨s, a, s'⟩ ∈ calls
  /-- The tags are there in the order in which they have been added. -/
  tags_eq : m.tags = tagsOf calls

namespace Builder

/-- Carries out a call. -/
def call (b : Builder S A T) : Call S A T → Builder S A T
  | .state s => b.state s
  | .transition e => b.transition e.source e.label e.target
  | .tag t => b.tag t.name t.start t.stop

/-- What has been collected after some calls. -/
def ofCalls (initial : S) (calls : List (Call S A T)) : Builder S A T :=
  calls.foldl call (ofInitial initial)

end Builder

end Nfa

/-! ### Deterministic automata -/

namespace Dfa

variable {D A T : Type}

/-- The two ends of a tag. -/
inductive Side
  /-- Where the tag starts. -/
  | start
  /-- Where the tag ends. -/
  | stop
deriving DecidableEq, Repr

/-- A call on a builder. -/
inductive Call (D A T : Type)
  /-- Adds a state. -/
  | state (d : D)
  /-- Adds a transition and both its ends, in place of one from the same state on the same symbol. -/
  | transition (e : Edge D A)
  /-- Lets a tag start in a state. -/
  | tagStart (d : D) (name : T)
  /-- Lets a tag end in a state. -/
  | tagEnd (d : D) (name : T)
  /-- Lets a tag start in one state and end in another. -/
  | tag (t : Tag T D)
deriving DecidableEq, Repr

namespace Call

/-- The call makes `d` a state. -/
def Defines : Call D A T → D → Prop
  | state d', d => d = d'
  | transition e, d => d = e.source ∨ d = e.target
  | _, _ => False

/-- The call takes the place of the transition from `d` on `a`, or makes it. -/
def Redirects : Call D A T → D → A → Prop
  | transition e, d, a => d = e.source ∧ a = e.label
  | _, _, _ => False

/-- The call lets a tag start or end in a state. -/
def Marks : Call D A T → Side → D → T → Prop
  | tagStart d name, .start, d', name' => d' = d ∧ name' = name
  | tagEnd d name, .stop, d', name' => d' = d ∧ name' = name
  | tag t, .start, d, name => d = t.start ∧ name = t.name
  | tag t, .stop, d, name => d = t.stop ∧ name = t.name
  | _, _, _, _ => False

end Call

/-- The state is the initial one, or one of the calls makes it a state. -/
abbrev Defined : D → List (Call D A T) → D → Prop :=
  DefinedBy Call.Defines

/-- One of the calls adds the transition, and none behind it takes its place. -/
def Takes (calls : List (Call D A T)) (e : Edge D A) : Prop :=
  ∃ before after, calls = before ++ .transition e :: after ∧
    ∀ c ∈ after, ¬ c.Redirects e.source e.label

/-- One of the calls lets a tag start or end in a state. -/
def Marked (calls : List (Call D A T)) (side : Side) (d : D) (name : T) : Prop :=
  ∃ c ∈ calls, c.Marks side d name

/-- A tag starts or ends in the state, which is not defined. -/
def Unfounded (initial : D) (calls : List (Call D A T)) (side : Side) (d : D) : Prop :=
  (∃ name, Marked calls side d name) ∧ ¬ Defined initial calls d

variable [Key D] [Key A] [Key T]

/-- The least undefined state in which a tag starts is at fault; if there is none, the least one in which a
tag ends. -/
def FirstUndefined (initial : D) (calls : List (Call D A T)) : Undefined D A → Prop
  | .tagStart d =>
    Unfounded initial calls .start d ∧ ∀ d', Unfounded initial calls .start d' → (compare d d').isLE
  | .tagEnd d =>
    (∀ d', ¬ Unfounded initial calls .start d') ∧ Unfounded initial calls .stop d ∧
      ∀ d', Unfounded initial calls .stop d' → (compare d d').isLE
  | _ => False

/-- The names of the tags that start or end in a state. -/
def tagsAt (m : Dfa D A T) : Side → D → KeySet T
  | .start => m.tagsStarting
  | .stop => m.tagsEnding

/-- The automaton has the given states, and the transitions and the tags that the calls come to. -/
structure Collects (m : Dfa D A T) (initial : D) (states : D → Prop) (calls : List (Call D A T)) :
    Prop where
  /-- A run starts where it should. -/
  initial_eq : m.initial = initial
  /-- The given states are there. -/
  contains_iff : ∀ d, m.graph.contains d = true ↔ states d
  /-- A transition is there if it has been the last one from its state on its symbol. -/
  next?_eq_some_iff : ∀ d a d', m.next? d a = some d' ↔ Takes calls ⟨d, a, d'⟩
  /-- The tags are there in which states they have been put. -/
  mem_tagsAt_iff : ∀ side d name, name ∈ m.tagsAt side d ↔ Marked calls side d name

namespace Builder

/-- Carries out a call. -/
def call (b : Builder D A T) : Call D A T → Builder D A T
  | .state d => b.state d
  | .transition e => b.transition e.source e.label e.target
  | .tagStart d name => b.tagStart d name
  | .tagEnd d name => b.tagEnd d name
  | .tag t => b.tag t.name t.start t.stop

/-- What has been collected after some calls. -/
def ofCalls (initial : D) (calls : List (Call D A T)) : Builder D A T :=
  calls.foldl call (ofInitial initial)

end Builder

end Dfa

end CaptureAutomata
