/-
The automaton of a pattern, written down part by part:

* `Pattern.states`, `Pattern.groups`: how many states and groups a pattern takes up;
* `Pattern.stop`: the state that a pattern ends in;
* `Pattern.edges`: its transitions;
* `Pattern.tags`: its tags, one for each group;
* `Nfa.IsLaidOutAs`: an automaton that has what is written down for a whole pattern, and nothing else.

States and groups are numbered in the order of their parts. A part is told the number `n` of states and
the number `g` of groups before it, and the state `source` that it starts in, and its transitions and
tags are those of its own parts, besides few of its own.
-/
import CaptureAutomata.Pattern.Assembly
import Mathlib.Algebra.GroupWithZero.Nat

namespace CaptureAutomata

/-! ### States and groups -/

/-- The number of states that a literal with this meaning takes up between its ends. -/
def Meaning.states : Meaning → Nat
  | lineBreak => 1
  | _ => 0

/-- The number of states that a member of a class takes up between its ends. -/
def Member.states : Member → Nat
  | literal l => l.meaning.states
  | range _ _ => 0

/-- The number of states that a quantifier takes up. -/
def Quantifier.states : Quantifier → Nat
  | zeroOrMore => 1
  | _ => 0

namespace Pattern

/-- The number of states in which several branches are led together. -/
def joinStates : Pattern → Nat
  | .single _ => 0
  | .alternative _ _ => 1

mutual

/-- The number of states that the branches of a pattern take up. -/
def branchStates : Pattern → Nat
  | .single branch => branch.states
  | .alternative branches branch => branches.branchStates + branch.states

/-- The number of states that a branch takes up. -/
def Sequence.states : Sequence → Nat
  | .empty => 0
  | .append items atom q => items.states + atom.states + q.states

/-- The number of states that an atom takes up. A group has one before its body and one behind it. -/
def Atom.states : Atom → Nat
  | .literal l => 1 + l.meaning.states
  | .charClass members => 1 + (members.map Member.states).sum
  | .group _ body => 1 + (body.branchStates + body.joinStates) + 1

end

/-- The number of states that a pattern takes up. -/
def states (p : Pattern) : Nat :=
  p.branchStates + p.joinStates

mutual

/-- The number of groups in a pattern. -/
def groups : Pattern → Nat
  | .single branch => branch.groups
  | .alternative branches branch => branches.groups + branch.groups

/-- The number of groups in a branch. -/
def Sequence.groups : Sequence → Nat
  | .empty => 0
  | .append items atom _ => items.groups + atom.groups

/-- The number of groups in an atom. -/
def Atom.groups : Atom → Nat
  | .literal _ => 0
  | .charClass _ => 0
  | .group _ body => 1 + body.groups

end

end Pattern

/-! ### Stops -/

/-- The state that an item ends in whose atom ends in `stop`. -/
def Quantifier.stop (n stop : Nat) : Quantifier → Nat
  | zeroOrMore => n
  | _ => stop

namespace Pattern

/-- The state that an atom ends in: the first that it takes up, and behind a group the last. -/
def Atom.stop (n : Nat) : Atom → Nat
  | .literal _ => n
  | .charClass _ => n
  | .group _ body => n + 1 + body.states

/-- The state that a branch ends in. -/
def Sequence.stop (n source : Nat) : Sequence → Nat
  | .empty => source
  | .append items atom q => q.stop (n + items.states + atom.states) (atom.stop (n + items.states))

/-- The states that the branches of a pattern end in. -/
def stops (n source : Nat) : Pattern → List Nat
  | .single branch => [branch.stop n source]
  | .alternative branches branch =>
    branches.stops n source ++ [branch.stop (n + branches.branchStates) source]

/-- The state that a pattern ends in: the stop of its only branch, or one for all branches. -/
def stop (n source : Nat) : Pattern → Nat
  | .single branch => branch.stop n source
  | .alternative branches branch => n + (branches.branchStates + branch.states)

end Pattern

/-! ### Transitions -/

/-- The transitions on some symbols from one state to another. -/
def fan (source target : Nat) (symbols : List Char) : List (Edge Nat (Option Char)) :=
  symbols.map fun c => ⟨source, some c, target⟩

/-- The transitions of a literal with this meaning. -/
def Meaning.edges (n source target : Nat) : Meaning → List (Edge Nat (Option Char))
  | single c => fan source target [c]
  | oneOf cs => fan source target cs
  | lineBreak =>
    fan source target ['\r', '\n'] ++ [⟨source, some '\r', n⟩, ⟨n, some '\n', target⟩]

/-- The transitions of a member of a class. -/
def Member.edges (n source target : Nat) : Member → List (Edge Nat (Option Char))
  | literal l => l.meaning.edges n source target
  | range first last => fan source target (rangeChars first last)

/-- The transitions of the members of a class, all of which lead from one state to another. -/
def Member.edgesOf (n source target : Nat) : List Member → List (Edge Nat (Option Char))
  | [] => []
  | m :: members => m.edges n source target ++ edgesOf (n + m.states) source target members

/-- The transitions that let what leads from `start` to `stop` be repeated. -/
def Quantifier.edges (n start stop : Nat) : Quantifier → List (Edge Nat (Option Char))
  | once => []
  | optional => [⟨start, none, stop⟩]
  | oneOrMore => [⟨stop, none, start⟩]
  | zeroOrMore => [⟨stop, none, start⟩, ⟨start, none, n⟩, ⟨stop, none, n⟩]

namespace Pattern

/-- The transitions that lead several branches together. -/
def joinEdges (n source : Nat) : Pattern → List (Edge Nat (Option Char))
  | .single _ => []
  | p@(.alternative _ _) => (p.stops n source).map fun s => ⟨s, none, p.stop n source⟩

mutual

/-- The transitions of the branches of a pattern, all of which start in the same state. -/
def branchEdges (n source : Nat) : Pattern → List (Edge Nat (Option Char))
  | .single branch => branch.edges n source
  | .alternative branches branch =>
    branches.branchEdges n source ++ branch.edges (n + branches.branchStates) source

/-- The transitions of a branch: each item starts where the one before it ends. -/
def Sequence.edges (n source : Nat) : Sequence → List (Edge Nat (Option Char))
  | .empty => []
  | .append items atom q =>
    items.edges n source ++ atom.edges (n + items.states) (items.stop n source) ++
      q.edges (n + items.states + atom.states) (items.stop n source) (atom.stop (n + items.states))

/-- The transitions of an atom. -/
def Atom.edges (n source : Nat) : Atom → List (Edge Nat (Option Char))
  | .literal l => l.meaning.edges (n + 1) source n
  | .charClass members => Member.edgesOf (n + 1) source n members
  | .group _ body =>
    ⟨source, none, n⟩ :: (body.branchEdges (n + 1) n ++ body.joinEdges (n + 1) n) ++
      [⟨body.stop (n + 1) n, none, n + 1 + body.states⟩]

end

/-- The transitions of a pattern. -/
def edges (n source : Nat) (p : Pattern) : List (Edge Nat (Option Char)) :=
  p.branchEdges n source ++ p.joinEdges n source

/-! ### Tags -/

mutual

/-- The tags of the groups in a pattern. -/
def tags (n g source : Nat) : Pattern → List (Tag String Nat)
  | .single branch => branch.tags n g source
  | .alternative branches branch =>
    branches.tags n g source ++
      branch.tags (n + branches.branchStates) (g + branches.groups) source

/-- The tags of the groups in a branch. -/
def Sequence.tags (n g source : Nat) : Sequence → List (Tag String Nat)
  | .empty => []
  | .append items atom _ =>
    items.tags n g source ++
      atom.tags (n + items.states) (g + items.groups) (items.stop n source)

/-- The tags of the groups in an atom: those inside of a group, and the one around its body. -/
def Atom.tags (n g source : Nat) : Atom → List (Tag String Nat)
  | .literal _ => []
  | .charClass _ => []
  | .group header body =>
    body.tags (n + 1) (g + 1) n ++ [⟨header.name (g + 1), source, body.stop (n + 1) n⟩]

end

end Pattern

/-! ### Whole automata -/

/-- The automaton has the states, transitions and tags that are written down for a whole pattern, and no
others: the pattern starts in state 1, behind the initial state 0, and the main tag is the last. -/
structure Nfa.IsLaidOutAs (m : PatternNfa) (p : Pattern) : Prop where
  /-- Runs start in state 0. -/
  initial_eq : m.initial = 0
  /-- The states are those of the pattern behind the first two. -/
  states_eq : m.states = List.range (2 + p.states)
  /-- The transitions are the one to the pattern and those of the pattern. -/
  mem_targets : ∀ s l t, t ∈ m.graph.targets s l ↔ ⟨s, l, t⟩ ∈ ⟨0, none, 1⟩ :: p.edges 2 1
  /-- The tags are those of the pattern and the one around it. -/
  tags_eq : m.tags = p.tags 2 0 1 ++ [⟨mainGroup, 0, p.stop 2 1⟩]

end CaptureAutomata
