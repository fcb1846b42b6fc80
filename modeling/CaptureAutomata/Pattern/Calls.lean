/-
The calls that build the automaton of a pattern, one after the other:

* `Nfa.InOrder`: whenever a state is added it is the next number, and transitions and tags only ever mention
  states that are already there;
* `Assembly.Performs`: the calls that a computation makes on its builder;
* `Pattern.branchCalls`, `Pattern.calls`: the calls for a pattern, in the order in which its automaton is
  assembled;
* `Reader.calls`: the calls for what a reader has read, up to the place where it stands in an open group, a
  class or an item;
* `Reader.callsBefore`: these and the ones for what comes next, up to the mistake that it is. A state may be
  made and a group left before the mistake is seen;
* `Pattern.callsFor`: all calls that are made while a text is read, whether it is a pattern or not.

As in the layout of a pattern, a part is told the number `n` of states and the number `g` of groups before it,
and the state `source` that it starts in.
-/
import CaptureAutomata.Calls
import CaptureAutomata.Pattern.Layout

namespace CaptureAutomata

/-! ### Order -/

/-- A builder for automata with numbered states is called so that its states stay numbered without gaps. -/
structure Nfa.InOrder {A T : Type} [Key A] (calls : List (Nfa.Call Nat A T)) : Prop where
  /-- After any number of calls, the states are the numbers below their count. -/
  mem_iff : ∀ done rest, calls = done ++ rest → ∀ s,
    s ∈ (Builder.ofCalls 0 done).graph.adjacency ↔ s < (Builder.ofCalls 0 done).stateCount
  /-- A state that is added has not been one before. It is numbered by how many there were. -/
  state : ∀ done s rest, calls = done ++ .state s :: rest →
    s ∉ (Builder.ofCalls 0 done).graph.adjacency ∧ s = (Builder.ofCalls 0 done).stateCount
  /-- The ends of a transition are states before it is added. -/
  transition : ∀ done e rest, calls = done ++ .transition e :: rest →
    e.source ∈ (Builder.ofCalls 0 done).graph.adjacency ∧
      e.target ∈ (Builder.ofCalls 0 done).graph.adjacency
  /-- The ends of a tag are states before it is added. -/
  tag : ∀ done t rest, calls = done ++ .tag t :: rest →
    t.start ∈ (Builder.ofCalls 0 done).graph.adjacency ∧
      t.stop ∈ (Builder.ofCalls 0 done).graph.adjacency

/-- A call on the builder of a pattern's automaton. -/
abbrev PatternCall : Type := Nfa.Call Nat Char String

/-- From the assembly `a` the computation returns `r` and leaves `b` behind, and makes the calls `cs` on the
builder. -/
inductive Assembly.Performs : {α : Type} → (f : StateM Assembly α) → (a : Assembly) →
    (cs : List PatternCall) → (r : α) → (b : Assembly) → Prop
  /-- Returning a value makes no call. -/
  | pure {α : Type} (r : α) (a : Assembly) : Performs (pure r) a [] r a
  /-- One computation makes its calls behind those of the one before it. -/
  | bind {α β : Type} {f : StateM Assembly α} {k : α → StateM Assembly β} {a b c : Assembly}
      {cs ds : List PatternCall} {x : α} {r : β} (hf : Performs f a cs x b) (hk : Performs (k x) b ds r c) :
      Performs (f >>= k) a (cs ++ ds) r c
  /-- A state is made by adding the number of states there are. -/
  | newState (a : Assembly) :
      Performs newState a [.state a.builder.stateCount] a.builder.stateCount
        { a with builder := a.builder.call (.state a.builder.stateCount) }
  /-- A transition is added as it is given. -/
  | connect (a : Assembly) (s : Nat) (l : Option Char) (t : Nat) :
      Performs (connect s l t) a [.transition ⟨s, l, t⟩] ()
        { a with builder := a.builder.call (.transition ⟨s, l, t⟩) }
  /-- A group is counted without a call. -/
  | newGroup (a : Assembly) : Performs newGroup a [] (a.groups + 1) { a with groups := a.groups + 1 }
  /-- A tag is added as it is given. -/
  | tag (a : Assembly) (name : String) (s t : Nat) :
      Performs (tag name s t) a [.tag ⟨name, s, t⟩] ()
        { a with builder := a.builder.call (.tag ⟨name, s, t⟩) }

/-! ### Literals, classes and quantifiers -/

/-- The calls for a literal with this meaning. -/
def Meaning.calls (n source target : Nat) : Meaning → List PatternCall
  | single c => (fan source target [c]).map .transition
  | oneOf cs => (fan source target cs).map .transition
  | lineBreak =>
    (fan source target ['\r', '\n']).map .transition ++
      [.state n, .transition ⟨source, some '\r', n⟩, .transition ⟨n, some '\n', target⟩]

/-- The calls for a member of a class. -/
def Member.calls (n source target : Nat) : Member → List PatternCall
  | literal l => l.meaning.calls n source target
  | range first last => (fan source target (rangeEnds first last ++ rangeChars first last)).map .transition

/-- The calls for the members of a class. -/
def Member.callsOf (n source target : Nat) : List Member → List PatternCall
  | [] => []
  | m :: members => m.calls n source target ++ callsOf (n + m.states) source target members

/-- The calls that let what leads from `start` to `stop` be repeated. -/
def Quantifier.calls (n start stop : Nat) (q : Quantifier) : List PatternCall :=
  (List.range' n q.states).map .state ++ (q.edges n start stop).map .transition

/-! ### Patterns -/

namespace Pattern

/-- The calls that lead several branches together. -/
def joinCalls (n source : Nat) (p : Pattern) : List PatternCall :=
  (List.range' (n + p.branchStates) p.joinStates).map .state ++ (p.joinEdges n source).map .transition

mutual

/-- The calls for the branches of a pattern. -/
def branchCalls (n g source : Nat) : Pattern → List PatternCall
  | .single branch => branch.calls n g source
  | .alternative branches branch =>
    branches.branchCalls n g source ++
      branch.calls (n + branches.branchStates) (g + branches.groups) source

/-- The calls for a branch. -/
def Sequence.calls (n g source : Nat) : Sequence → List PatternCall
  | .empty => []
  | .append items atom q =>
    items.calls n g source ++
      (atom.calls (n + items.states) (g + items.groups) (items.stop n source) ++
        q.calls (n + items.states + atom.states) (items.stop n source) (atom.stop (n + items.states)))

/-- The calls for an atom. A group is tagged behind all of its body. -/
def Atom.calls (n g source : Nat) : Atom → List PatternCall
  | .literal l => .state n :: l.meaning.calls (n + 1) source n
  | .charClass members => .state n :: Member.callsOf (n + 1) source n members
  | .group header body =>
    [.state n, .transition ⟨source, none, n⟩] ++
      (body.branchCalls (n + 1) (g + 1) n ++ (body.joinCalls (n + 1) n ++
        [.state (n + 1 + body.states), .transition ⟨body.stop (n + 1) n, none, n + 1 + body.states⟩,
          .tag ⟨header.name (g + 1), source, body.stop (n + 1) n⟩]))

end

/-- The calls for a whole pattern, behind the initial state. -/
def calls (p : Pattern) : List PatternCall :=
  [.state 1, .transition ⟨0, none, 1⟩] ++
    (p.branchCalls 2 0 1 ++ (p.joinCalls 2 1 ++ [.tag ⟨mainGroup, 0, p.stop 2 1⟩]))

/-- The state that the last branch of a pattern ends in. -/
def lastStop (n source : Nat) : Pattern → Nat
  | .single branch => branch.stop n source
  | .alternative branches branch => branch.stop (n + branches.branchStates) source

end Pattern

/-! ### Readers -/

/-- Where the next part of a pattern stands. -/
structure Front where
  /-- The number of states before it. -/
  states : Nat
  /-- The number of groups before it. -/
  groups : Nat
  /-- The state it starts in. -/
  source : Nat

/-- Where the next item of a pattern stands whose branches are read so far. -/
def Front.after (f : Front) (p : Pattern) : Front :=
  ⟨f.states + p.branchStates, f.groups + p.groups, p.lastStop f.states f.source⟩

/-- Where the body of a group stands. -/
def Front.inside (f : Front) : Front :=
  ⟨f.states + 1, f.groups + 1, f.states⟩

section Front

variable (f : Front) (p : Pattern)

@[simp] lemma Front.states_after : (f.after p).states = f.states + p.branchStates := rfl

@[simp] lemma Front.groups_after : (f.after p).groups = f.groups + p.groups := rfl

@[simp] lemma Front.source_after : (f.after p).source = p.lastStop f.states f.source := rfl

@[simp] lemma Front.states_inside : f.inside.states = f.states + 1 := rfl

@[simp] lemma Front.groups_inside : f.inside.groups = f.groups + 1 := rfl

@[simp] lemma Front.source_inside : f.inside.source = f.states := rfl

end Front

namespace OpenGroup

/-- Where the branches of the innermost open group stand. -/
def front : List OpenGroup → Front
  | [] => ⟨2, 0, 1⟩
  | g :: groups => ((front groups).after g.outside.toPattern).inside

/-- The calls before the branches of the innermost open group. -/
def calls : List OpenGroup → List PatternCall
  | [] => [.state 1, .transition ⟨0, none, 1⟩]
  | g :: groups =>
    let f := front groups
    let next := f.after g.outside.toPattern
    calls groups ++ (g.outside.toPattern.branchCalls f.states f.groups f.source ++
      [.state next.states, .transition ⟨next.source, none, next.states⟩])

/-- The calls behind the branches of the innermost open group, which are `body`. -/
def leaveCalls (body : Pattern) : List OpenGroup → List PatternCall
  | [] => []
  | g :: groups =>
    let outer := (front groups).after g.outside.toPattern
    let f := outer.inside
    [.state (f.states + body.states), .transition ⟨body.stop f.states f.source, none, f.states + body.states⟩,
      .tag ⟨g.header.name f.groups, outer.source, body.stop f.states f.source⟩]

end OpenGroup

/-- The members of a class that the place in it stands for: a single character that may still become the
start of a range. -/
def ClassPlace.pending : ClassPlace → List Member
  | member => []
  | backslash _ => []
  | character first => [.literal first.literal]
  | dash first => [.literal first.literal]
  | dashBackslash first _ => [.literal first.literal]

/-- The calls for what has been read of an item. -/
def Place.calls (f : Front) : Place → List PatternCall
  | item => []
  | quantifier atom => atom.calls f.states f.groups f.source
  | backslash _ => [.state f.states]
  | parenthesis _ => []
  | questionMark _ => []
  | groupName _ _ _ => []
  | charClass _ members place =>
    (Pattern.Atom.charClass (members ++ place.pending)).calls f.states f.groups f.source

namespace Reader

/-- The calls for all that has been read before the item. -/
def settledCalls (r : Reader) : List PatternCall :=
  let f := OpenGroup.front r.groups
  OpenGroup.calls r.groups ++ r.level.toPattern.branchCalls f.states f.groups f.source

/-- Where the item stands that is being read. -/
def front (r : Reader) : Front :=
  (OpenGroup.front r.groups).after r.level.toPattern

/-- The calls for all that has been read of a text with at least one character, before what comes next is looked
at. -/
def calls (r : Reader) : List PatternCall :=
  r.settledCalls ++ r.place.calls r.front

/-! ### Mistakes -/

/-- The calls at the end of the innermost open group, or of the pattern if no group is open: the branches are
led together, and the group is left and tagged. -/
def endCalls (r : Reader) : List PatternCall :=
  let f := OpenGroup.front r.groups
  r.level.toPattern.joinCalls f.states f.source ++ OpenGroup.leaveCalls r.level.toPattern r.groups

/-- How far the reader gets before it sees that `next` is a mistake, which is a character or the end of the
text. An atom has no quantifier, a group is entered without a name, and the character after a dash becomes a
member of the class before it is compared with the one before the dash. At the end of the text the dash is a
member itself. -/
def beforeMistake (r : Reader) (next : Option Char) : Reader :=
  match r.place, next with
  | .quantifier atom, _ => r.append atom .once
  | .parenthesis column, _ => r.enter column .anonymous
  | .charClass opened members (.dash first), _ =>
    { r with
      place := .charClass opened
        (members ++ [.literal first.literal, .literal (.plain (next.getD '-'))]) .member }
  | .charClass opened members (.dashBackslash first _), some c =>
    { r with
      place := .charClass opened (members ++ [.literal first.literal, .literal (.escaped c)]) .member }
  | _, _ => r

/-- The calls for all that has been read and for what comes next, up to the mistake in it. The end of the text
and closing parentheses and brackets end the group before they are found to be out of place. -/
def callsBefore (r : Reader) (next : Option Char) : List PatternCall :=
  let r' := r.beforeMistake next
  r'.calls ++ match r'.place with
    | .item => if next ∈ [none, some ')', some ']'] then r'.endCalls else []
    | _ => []

/-- All calls that are made when this text follows, up to the first mistake in it or to its end. -/
def callsFor (r : Reader) : List Char → List PatternCall
  | [] =>
    match r.finish with
    | .ok p => p.calls
    | .error _ => r.callsBefore none
  | c :: cs =>
    match r.step c with
    | .ok r' => r'.callsFor cs
    | .error _ => r.callsBefore (some c)

end Reader

/-- All calls that are made while a text is read, whether it turns out to be a pattern or not. For the empty
text there are none. -/
def Pattern.callsFor (text : String) : List PatternCall :=
  if text.toList.isEmpty then [] else ({} : Reader).callsFor text.toList

end CaptureAutomata
