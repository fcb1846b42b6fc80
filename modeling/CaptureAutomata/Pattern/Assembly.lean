/-
The automaton of a pattern:

* `Assembly`: an automaton under construction, whose states are numbered in the order they are made,
  and the number of groups met so far;
* `Pattern.Sequence.assemble`, `Pattern.assemble`: build the transitions of a branch, or of a
  pattern, from a given state on, and return the state they end in;
* `Pattern.toNfa`: the automaton of a whole pattern. The tag `mainGroup` covers all of it, and every
  group has a tag of its own name;
* `Nfa.ofPattern`: the automaton of a pattern given as text.
-/
import CaptureAutomata.Pattern.Error
import CaptureAutomata.Pattern.Reader

namespace CaptureAutomata

/-- The name of the tag that covers a whole match. -/
def mainGroup : String := "0"

/-- The automaton that a pattern is turned into. -/
abbrev PatternNfa : Type := Nfa Nat Char String

/-- An automaton under construction. -/
structure Assembly where
  /-- The states, transitions and tags so far. -/
  builder : Nfa.Builder Nat Char String
  /-- The number of groups opened so far. -/
  groups : Nat

namespace Assembly

/-- The automaton that has nothing but its initial state 0. -/
def start : Assembly :=
  ⟨.ofInitial 0, 0⟩

/-- Makes a state, numbered by how many there were. -/
def newState : StateM Assembly Nat := do
  let a ← get
  let state := a.builder.stateCount
  set { a with builder := a.builder.state state }
  return state

/-- Adds a transition. -/
def connect (source : Nat) (symbol : Option Char) (target : Nat) : StateM Assembly Unit :=
  modify fun a => { a with builder := a.builder.transition source symbol target }

/-- Adds a transition for each of some symbols. -/
def connectAll (source : Nat) (symbols : List Char) (target : Nat) : StateM Assembly Unit :=
  symbols.forM fun c => connect source (some c) target

/-- Opens another group, and returns its number. -/
def newGroup : StateM Assembly Nat := do
  let a ← get
  let number := a.groups + 1
  set { a with groups := number }
  return number

/-- Adds a tag. -/
def tag (name : String) (start stop : Nat) : StateM Assembly Unit :=
  modify fun a => { a with builder := a.builder.tag name start stop }

/-- Leads several branches to one state: their own if there is one branch, and else a new one. -/
def join : List Nat → StateM Assembly Nat
  | [stop] => return stop
  | stops => do
    let stop ← newState
    stops.forM fun s => connect s none stop
    return stop

end Assembly

open Assembly

/-- Adds the transitions of a literal. -/
def Literal.assemble (l : Literal) (source target : Nat) : StateM Assembly Unit :=
  match l.meaning with
  | .single c => connect source (some c) target
  | .oneOf cs => connectAll source cs target
  | .lineBreak => do
    connectAll source ['\r', '\n'] target
    let between ← newState
    connect source (some '\r') between
    connect between (some '\n') target

/-- Adds the transitions of a member of a class. Those of the ends of a range are added when these are read,
and once more with those of all that is between them. -/
def Member.assemble (m : Member) (source target : Nat) : StateM Assembly Unit :=
  match m with
  | literal l => l.assemble source target
  | range first last => connectAll source (rangeEnds first last ++ rangeChars first last) target

/-- Lets what leads from `start` to `stop` be repeated, and returns the state it then ends in. -/
def Quantifier.assemble (q : Quantifier) (start stop : Nat) : StateM Assembly Nat :=
  match q with
  | once => return stop
  | optional => do
    connect start none stop
    return stop
  | oneOrMore => do
    connect stop none start
    return stop
  | zeroOrMore => do
    let skip ← newState
    connect stop none start
    connect start none skip
    connect stop none skip
    return skip

namespace Pattern

mutual

/-- Builds all branches from the same state on, and returns the states they end in. -/
def assembleBranches (source : Nat) : Pattern → StateM Assembly (List Nat)
  | .single branch => do
    let stop ← branch.assemble source
    return [stop]
  | .alternative branches branch => do
    let stops ← branches.assembleBranches source
    let stop ← branch.assemble source
    return stops ++ [stop]

/-- Builds the items of a branch one after the other, each from the state where the one before it
ends, and returns the state where the last one ends. -/
def Sequence.assemble (source : Nat) : Sequence → StateM Assembly Nat
  | .empty => return source
  | .append items atom quantifier => do
    let start ← items.assemble source
    let stop ← atom.assemble start
    quantifier.assemble start stop

/-- Builds an atom, and returns the state where it ends. -/
def Atom.assemble (source : Nat) : Atom → StateM Assembly Nat
  | .literal l => do
    let stop ← newState
    l.assemble source stop
    return stop
  | .charClass members => do
    let stop ← newState
    members.forM fun m => m.assemble source stop
    return stop
  | .group header body => do
    let number ← newGroup
    let inner ← newState
    connect source none inner
    let stops ← body.assembleBranches inner
    let innerStop ← join stops
    let stop ← newState
    connect innerStop none stop
    tag (header.name number) source innerStop
    return stop

end

/-- Builds a pattern, and returns the state where it ends. -/
def assemble (source : Nat) (p : Pattern) : StateM Assembly Nat := do
  let stops ← p.assembleBranches source
  join stops

/-- Builds a pattern behind a transition from the initial state, to which nothing leads back. -/
def assembleMain (p : Pattern) : StateM Assembly Unit := do
  let entry ← newState
  connect 0 none entry
  let stop ← p.assemble entry
  tag mainGroup 0 stop

/-- The automaton of a pattern. -/
def toNfa (p : Pattern) : Except (Undefined Nat (Option Char)) PatternNfa :=
  (p.assembleMain.run Assembly.start).2.builder.build

end Pattern

/-- The automaton of the pattern with the given text. -/
def Nfa.ofPattern (text : String) : Except PatternError PatternNfa := do
  let pattern ← (Pattern.parse text).mapError .malformed
  pattern.toNfa.mapError .undefined

end CaptureAutomata
