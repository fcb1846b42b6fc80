/-
The states of a pattern are numbered as they are made:

* `Nfa.Numbers`: calls that add the states from one number to another in their order, and mention only those
  that are there by then. A builder that is called like this has no gaps (`Nfa.Numbers.dense`), so the calls
  are in order (`Nfa.Numbers.inOrder`);
* `Assembly.Proceeds`: a computation that makes such calls. There is one lemma for each step, and
  `Pattern.proceeds_assemble`, `Pattern.Sequence.proceeds_assemble` and `Pattern.Atom.proceeds_assemble` put
  them together for each part of a pattern;
* `Reader.numbers_calls`, `Reader.numbers_callsBefore`, `Reader.numbers_callsFor`: the calls for what has been
  read are such calls, also up to a mistake, and so are all calls for a text;
* `Reader.calls_step`, `Reader.calls_callsFor`: reading another character adds to the calls before it;
* `Pattern.states_in_order`: all of this for every text, so the automaton of a pattern is never refused for an
  undefined state.
-/
import CaptureAutomata.Pattern.Calls
import CaptureAutomata.Proofs.Pattern.Layout
import CaptureAutomata.Proofs.Pattern.Sites
import CaptureAutomata.Proofs.UndefinedTags

namespace CaptureAutomata

/-! ### Numbered states -/

namespace Nfa

variable {A T : Type} {n m k : Nat} {cs ds : List (Call Nat A T)}

/-- With `n` states at first, the calls add the states from `n` on in their order, until there are `m`. The
transitions and tags lie between states that are there. -/
inductive Numbers : Nat → List (Call Nat A T) → Nat → Prop
  /-- No call is made. -/
  | nil (n : Nat) : Numbers n [] n
  /-- The next state is added. -/
  | state {n m : Nat} {cs : List (Call Nat A T)} (h : Numbers (n + 1) cs m) : Numbers n (.state n :: cs) m
  /-- A transition is added between states. -/
  | transition {n m : Nat} {cs : List (Call Nat A T)} {e : Edge Nat (Option A)} (hs : e.source < n)
      (ht : e.target < n) (h : Numbers n cs m) : Numbers n (.transition e :: cs) m
  /-- A tag is added between states. -/
  | tag {n m : Nat} {cs : List (Call Nat A T)} {t : Tag T Nat} (hs : t.start < n) (ht : t.stop < n)
      (h : Numbers n cs m) : Numbers n (.tag t :: cs) m

lemma Numbers.append (h : Numbers n cs m) (h' : Numbers m ds k) : Numbers n (cs ++ ds) k := by
  induction h with
  | nil => exact h'
  | state _ ih => exact .state (ih h')
  | transition hs ht _ ih => exact .transition hs ht (ih h')
  | tag hs ht _ ih => exact .tag hs ht (ih h')

/-- Calls may be interrupted. -/
lemma Numbers.of_append (h : Numbers n (cs ++ ds) k) : ∃ m, Numbers n cs m ∧ Numbers m ds k := by
  induction cs generalizing n with
  | nil => exact ⟨n, .nil n, h⟩
  | cons c cs ih =>
      cases h with
      | state h =>
          obtain ⟨m, hcs, hds⟩ := ih h
          exact ⟨m, .state hcs, hds⟩
      | transition hs ht h =>
          obtain ⟨m, hcs, hds⟩ := ih h
          exact ⟨m, .transition hs ht hcs, hds⟩
      | tag hs ht h =>
          obtain ⟨m, hcs, hds⟩ := ih h
          exact ⟨m, .tag hs ht hcs, hds⟩

variable [Key A]

/-- The states are the first `n` numbers. -/
structure Builder.Dense (b : Builder Nat A T) (n : Nat) : Prop where
  /-- These are states, and no others. -/
  mem_iff : ∀ s, s ∈ b.graph.adjacency ↔ s < n
  /-- There are `n` of them. -/
  count_eq : b.stateCount = n

/-- At first there is the initial state. -/
lemma Builder.dense_ofInitial : (ofInitial 0 : Builder Nat A T).Dense 1 where
  mem_iff s := by
    refine NondeterministicGraph.Builder.mem_vertex.trans ?_
    simp
  count_eq := by
    have hfresh : 0 ∉ ({} : NondeterministicGraph.Builder Nat (Option A)).adjacency := by simp
    exact (NondeterministicGraph.Builder.size_vertex hfresh).trans
      (by simp [NondeterministicGraph.Builder.size])

/-- Calls that number the states leave no gaps. -/
lemma Numbers.dense (h : Numbers n cs m) {b : Builder Nat A T} (hb : b.Dense n) :
    (cs.foldl Builder.call b).Dense m := by
  induction h generalizing b with
  | nil => exact hb
  | @state n m cs _ ih =>
      refine ih ⟨fun s => ?_, ?_⟩
      · refine NondeterministicGraph.Builder.mem_vertex.trans ?_
        rw [hb.mem_iff]
        omega
      · have hfresh : n ∉ b.graph.adjacency := fun hn => absurd ((hb.mem_iff n).1 hn) (lt_irrefl n)
        exact (NondeterministicGraph.Builder.size_vertex hfresh).trans (congrArg (· + 1) hb.count_eq)
  | @transition n m cs e hs ht _ ih =>
      have hsource := (hb.mem_iff _).2 hs
      have htarget := (hb.mem_iff _).2 ht
      refine ih ⟨fun s => ?_, (NondeterministicGraph.Builder.size_path hsource htarget).trans hb.count_eq⟩
      refine NondeterministicGraph.Builder.mem_path.trans ?_
      rw [hb.mem_iff]
      omega
  | tag _ _ _ ih => exact ih ⟨hb.mem_iff, hb.count_eq⟩

/-- Calls that number the states behind the initial one are in order. -/
lemma Numbers.inOrder (h : Numbers 1 cs m) : InOrder cs := by
  -- what is done before some of the calls leaves no gaps, and so the rest finds its states
  have hdone : ∀ done rest, cs = done ++ rest →
      ∃ k, (Builder.ofCalls 0 done : Builder Nat A T).Dense k ∧ Numbers k rest m := by
    rintro done rest rfl
    obtain ⟨k, hk, hrest⟩ := h.of_append
    exact ⟨k, hk.dense Builder.dense_ofInitial, hrest⟩
  refine ⟨fun done rest hcs s => ?_, fun done s rest hcs => ?_, fun done e rest hcs => ?_,
    fun done t rest hcs => ?_⟩
  · obtain ⟨k, hk, -⟩ := hdone done rest hcs
    rw [hk.mem_iff, hk.count_eq]
  · obtain ⟨k, hk, hrest⟩ := hdone done _ hcs
    cases hrest
    rw [hk.mem_iff, hk.count_eq]
    exact ⟨lt_irrefl _, rfl⟩
  · obtain ⟨k, hk, hrest⟩ := hdone done _ hcs
    cases hrest with
    | transition hs ht _ => exact ⟨(hk.mem_iff _).2 hs, (hk.mem_iff _).2 ht⟩
  · obtain ⟨k, hk, hrest⟩ := hdone done _ hcs
    cases hrest with
    | tag hs ht _ => exact ⟨(hk.mem_iff _).2 hs, (hk.mem_iff _).2 ht⟩

end Nfa

/-! ### Computations -/

namespace Assembly

open Nfa

variable {α β : Type} {f : StateM Assembly α} {h : α → StateM Assembly β} {a b : Assembly}
  {cs ds : List PatternCall} {x : α} {r : β} {n n' n'' g g' g'' : Nat} {s t : Nat}

/-- What a computation performs is what it makes. -/
lemma Performs.makes (hf : Performs f a cs x b) : Makes f a x b := by
  induction hf with
  | pure => exact makes_pure.2 ⟨rfl, rfl⟩
  | bind _ _ ihf ihk => exact makes_bind.2 ⟨_, _, ihf, ihk⟩
  | newState => exact makes_newState.2 ⟨rfl, rfl⟩
  | connect => exact makes_connect.2 rfl
  | newGroup => exact makes_newGroup.2 ⟨rfl, rfl⟩
  | tag => exact makes_tag.2 rfl

/-- The builder is left as the calls leave it. -/
lemma Performs.builder_eq (hf : Performs f a cs x b) : b.builder = cs.foldl Builder.call a.builder := by
  induction hf with
  | bind _ _ ihf ihk => rw [ihk, ihf, List.foldl_append]
  | pure | newState | connect | newGroup | tag => rfl

/-- With `n` states and `g` groups at first, the computation makes calls that number the states, and returns
`x`. In the end there are `n'` states and `g'` groups. -/
structure Proceeds (f : StateM Assembly α) (n g : Nat) (cs : List PatternCall) (x : α) (n' g' : Nat) :
    Prop where
  /-- The calls number the states. -/
  numbers : Numbers n cs n'
  /-- These are the calls that are made. -/
  performs : ∀ a : Assembly, a.builder.Dense n → a.groups = g →
    ∃ b, Performs f a cs x b ∧ b.groups = g'

lemma proceeds_pure (x : α) : Proceeds (pure x) n g [] x n g :=
  ⟨.nil n, fun a _ hg => ⟨a, .pure x a, hg⟩⟩

/-- One computation goes on where the one before it has stopped. -/
lemma Proceeds.bind (hf : Proceeds f n g cs x n' g') (hh : Proceeds (h x) n' g' ds r n'' g'') :
    Proceeds (f >>= h) n g (cs ++ ds) r n'' g'' := by
  refine ⟨hf.numbers.append hh.numbers, fun a ha hg => ?_⟩
  obtain ⟨b, hb, hgb⟩ := hf.performs a ha hg
  obtain ⟨c, hc, hgc⟩ := hh.performs b (hb.builder_eq ▸ hf.numbers.dense ha) hgb
  exact ⟨c, hb.bind hc, hgc⟩

/-- Returning another value makes no further call. -/
lemma Proceeds.bind_pure {k : α → β} (hf : Proceeds f n g cs x n' g') :
    Proceeds (f >>= fun y => pure (k y)) n g cs (k x) n' g' := by
  have hall := hf.bind (h := fun y => pure (k y)) (proceeds_pure (k x))
  rwa [List.append_nil] at hall

lemma proceeds_newState : Proceeds newState n g [.state n] n (n + 1) g := by
  refine ⟨.state (.nil _), fun a ha hg => ?_⟩
  obtain rfl := ha.count_eq
  exact ⟨_, .newState a, hg⟩

lemma proceeds_connect {l : Option Char} (hs : s < n) (ht : t < n) :
    Proceeds (connect s l t) n g [.transition ⟨s, l, t⟩] () n g :=
  ⟨.transition hs ht (.nil n), fun a _ hg => ⟨_, .connect a s l t, hg⟩⟩

lemma proceeds_newGroup : Proceeds newGroup n g [] (g + 1) n (g + 1) := by
  refine ⟨.nil n, fun a _ hg => ?_⟩
  obtain rfl := hg
  exact ⟨_, .newGroup a, rfl⟩

lemma proceeds_tag (name : String) (hs : s < n) (ht : t < n) :
    Proceeds (tag name s t) n g [.tag ⟨name, s, t⟩] () n g :=
  ⟨.tag hs ht (.nil n), fun a _ hg => ⟨_, .tag a name s t, hg⟩⟩

/-- Transitions are added for the members of a list. -/
lemma proceeds_forM {γ : Type} {source target : γ → Nat} {label : γ → Option Char} {xs : List γ}
    (hxs : ∀ y ∈ xs, source y < n ∧ target y < n) :
    Proceeds (xs.forM fun y => connect (source y) (label y) (target y)) n g
      ((xs.map fun y => (⟨source y, label y, target y⟩ : Edge Nat (Option Char))).map .transition) () n
      g := by
  induction xs with
  | nil => exact proceeds_pure ()
  | cons y xs ih =>
      obtain ⟨hs, ht⟩ := hxs y (.head _)
      exact (proceeds_connect hs ht).bind (ih fun z hz => hxs z (.tail _ hz))

/-- Transitions are added for some symbols. -/
lemma proceeds_connectAll {symbols : List Char} (hs : s < n) (ht : t < n) :
    Proceeds (connectAll s symbols t) n g ((fan s t symbols).map .transition) () n g :=
  proceeds_forM fun _ _ => ⟨hs, ht⟩

/-- The transitions of a literal are added, with the state it takes up. -/
lemma proceeds_literal (l : Literal) (hs : s < n) (ht : t < n) :
    Proceeds (l.assemble s t) n g (l.meaning.calls n s t) () (n + l.meaning.states) g := by
  rw [Literal.assemble]
  cases l.meaning with
  | single c => exact proceeds_connect hs ht
  | oneOf cs => exact proceeds_connectAll hs ht
  | lineBreak =>
      have hs' := hs.trans (Nat.lt_succ_self n)
      have ht' := ht.trans (Nat.lt_succ_self n)
      exact (proceeds_connectAll hs ht).bind (proceeds_newState.bind
        ((proceeds_connect hs' (Nat.lt_succ_self n)).bind (proceeds_connect (Nat.lt_succ_self n) ht')))

/-- The transitions of the members of a class are added, with the states they take up. -/
lemma proceeds_members (members : List Member) (hs : s < n) (ht : t < n) :
    Proceeds (members.forM fun m => m.assemble s t) n g (Member.callsOf n s t members) ()
      (n + (members.map Member.states).sum) g := by
  induction members generalizing n with
  | nil => exact proceeds_pure ()
  | cons m members ih =>
      have hfirst : Proceeds (m.assemble s t) n g (m.calls n s t) () (n + m.states) g := by
        cases m with
        | literal l => exact proceeds_literal l hs ht
        | range first last => exact proceeds_connectAll hs ht
      have hrest := ih (hs.trans_le (Nat.le_add_right n m.states)) (ht.trans_le (Nat.le_add_right n _))
      rw [Nat.add_assoc, ← List.sum_cons, ← List.map_cons] at hrest
      exact hfirst.bind hrest

/-- A quantifier adds its transitions, with the state it takes up, and tells where the item ends. -/
lemma proceeds_quantifier (q : Quantifier) (hs : s < n) (ht : t < n) :
    Proceeds (q.assemble s t) n g (q.calls n s t) (q.stop n t) (n + q.states) g := by
  cases q with
  | once => exact proceeds_pure t
  | optional => exact (proceeds_connect hs ht).bind_pure
  | oneOrMore => exact (proceeds_connect ht hs).bind_pure
  | zeroOrMore =>
      have hs' := hs.trans (Nat.lt_succ_self n)
      have ht' := ht.trans (Nat.lt_succ_self n)
      exact proceeds_newState.bind ((proceeds_connect ht' hs').bind
        ((proceeds_connect hs' (Nat.lt_succ_self n)).bind
          (proceeds_connect ht' (Nat.lt_succ_self n)).bind_pure))

/-- Several branches are led to a new state, if there are several. -/
lemma proceeds_join (p : Pattern) {source : Nat} (hs : source < n) :
    Proceeds (join (p.stops n source)) (n + p.branchStates) g (p.joinCalls n source) (p.stop n source)
      (n + p.states) g := by
  cases p with
  | single branch => exact proceeds_pure _
  | alternative branches branch =>
      obtain ⟨e, stops, hfirst⟩ := branches.exists_stops_eq_cons n source
      have htwo : (Pattern.alternative branches branch).stops n source =
          e :: stops ++ [branch.stop (n + branches.branchStates) source] := by
        rw [Pattern.stops, hfirst]
      have hstops : ∀ e ∈ (Pattern.alternative branches branch).stops n source,
          e < n + (Pattern.alternative branches branch).branchStates + 1 := by
        intro e he
        have hreserved := (Pattern.alternative branches branch).stops_reserved n source e he
        rw [Pattern.Reserved] at hreserved
        omega
      rw [htwo, join_of_two, ← htwo]
      exact proceeds_newState.bind
        (proceeds_forM (g := g) fun e he => ⟨hstops e he, Nat.lt_succ_self _⟩).bind_pure

end Assembly

/-! ### Patterns -/

namespace Pattern

open Assembly

mutual

/-- The branches of a pattern are assembled by their calls. -/
theorem proceeds_assemble : ∀ (p : Pattern) {n g source : Nat}, source < n →
    Proceeds (p.assembleBranches source) n g (p.branchCalls n g source) (p.stops n source)
      (n + p.branchStates) (g + p.groups)
  | .single branch, _, _, _, hs => (branch.proceeds_assemble hs).bind_pure
  | .alternative branches branch, n, g, source, hs => by
      have hlast := branch.proceeds_assemble (g := g + branches.groups)
        (hs.trans_le (Nat.le_add_right n branches.branchStates))
      rw [branchStates, groups, ← Nat.add_assoc, ← Nat.add_assoc]
      exact (branches.proceeds_assemble hs).bind hlast.bind_pure

/-- A branch is assembled by its calls. -/
lemma Sequence.proceeds_assemble : ∀ (x : Sequence) {n g source : Nat}, source < n →
    Proceeds (x.assemble source) n g (x.calls n g source) (x.stop n source) (n + x.states)
      (g + x.groups)
  | .empty, _, _, source, _ => proceeds_pure source
  | .append items atom q, n, g, source, hs => by
      have hstart := items.stop_reserved n source
      have hstop := (atom.stop_range (n + items.states)).2
      rw [Reserved] at hstart
      have hsource : items.stop n source < n + items.states := by omega
      have hatom := atom.proceeds_assemble (g := g + items.groups) hsource
      have hq := proceeds_quantifier q (g := g + items.groups + atom.groups)
        (n := n + items.states + atom.states) (s := items.stop n source)
        (t := atom.stop (n + items.states)) (by omega) hstop
      rw [Sequence.states, Sequence.groups, ← Nat.add_assoc, ← Nat.add_assoc, ← Nat.add_assoc]
      exact (items.proceeds_assemble hs).bind (hatom.bind hq)

/-- An atom is assembled by its calls. -/
lemma Atom.proceeds_assemble : ∀ (x : Atom) {n g source : Nat}, source < n →
    Proceeds (x.assemble source) n g (x.calls n g source) (x.stop n) (n + x.states) (g + x.groups)
  | .literal l, n, g, source, hs => by
      rw [Atom.states, ← Nat.add_assoc]
      exact proceeds_newState.bind
        (proceeds_literal l (hs.trans (Nat.lt_succ_self n)) (Nat.lt_succ_self n)).bind_pure
  | .charClass members, n, g, source, hs => by
      rw [Atom.states, ← Nat.add_assoc]
      exact proceeds_newState.bind
        (proceeds_members members (hs.trans (Nat.lt_succ_self n)) (Nat.lt_succ_self n)).bind_pure
  | .group header body, n, g, source, hs => by
      have hstop := body.stop_reserved (n + 1) n
      rw [Reserved] at hstop
      have hbody := body.proceeds_assemble (g := g + 1) (Nat.lt_succ_self n)
      have hjoin := proceeds_join body (g := g + 1 + body.groups) (Nat.lt_succ_self n)
      have hleave := proceeds_connect (g := g + 1 + body.groups) (l := none)
        (s := body.stop (n + 1) n) (t := n + 1 + body.states) (n := n + 1 + body.states + 1) (by omega)
        (Nat.lt_succ_self _)
      have htag := proceeds_tag (header.name (g + 1)) (g := g + 1 + body.groups) (s := source)
        (t := body.stop (n + 1) n) (n := n + 1 + body.states + 1) (by omega) (by omega)
      have hstates : n + Atom.states (.group header body) = n + 1 + body.states + 1 := by
        rw [Atom.states, Pattern.states]
        omega
      rw [hstates, Atom.groups, ← Nat.add_assoc]
      exact proceeds_newGroup.bind (proceeds_newState.bind
        ((proceeds_connect (hs.trans (Nat.lt_succ_self n)) (Nat.lt_succ_self n)).bind
          (hbody.bind (hjoin.bind (proceeds_newState.bind (hleave.bind htag.bind_pure))))))

end

/-- A whole pattern is assembled by its calls. -/
lemma proceeds_assembleMain (p : Pattern) :
    Proceeds p.assembleMain 1 0 p.calls () (2 + p.states) (0 + p.groups) := by
  have hstop := p.stop_reserved 2 1
  rw [Reserved] at hstop
  have hbranches := p.proceeds_assemble (g := 0) Nat.one_lt_two
  have hjoin := proceeds_join p (g := 0 + p.groups) Nat.one_lt_two
  have htag := proceeds_tag mainGroup (g := 0 + p.groups) (s := 0) (t := p.stop 2 1)
    (n := 2 + p.states) (by omega) (by omega)
  rw [calls, ← List.append_assoc (p.branchCalls 2 0 1)]
  exact proceeds_newState.bind ((proceeds_connect Nat.zero_lt_two Nat.one_lt_two).bind
    ((hbranches.bind hjoin).bind htag))

/-- The last branch ends in a state that is reserved for the branches. -/
lemma lastStop_reserved (p : Pattern) (n source : Nat) :
    Reserved source n p.branchStates (p.lastStop n source) := by
  refine p.stops_reserved n source _ ?_
  cases p with
  | single branch => exact .head _
  | alternative branches branch => exact List.mem_append.2 (Or.inr (.head _))

end Pattern

/-! ### Open groups -/

open Nfa

/-- The state that the next part starts in is there. -/
def Front.Valid (f : Front) : Prop :=
  f.source < f.states

/-- The branches of a pattern are called for, and leave a state for the next item. -/
lemma Front.Valid.after {f : Front} (hf : f.Valid) (p : Pattern) :
    (f.after p).Valid ∧ Numbers f.states (p.branchCalls f.states f.groups f.source) (f.after p).states := by
  have hstop := p.lastStop_reserved f.states f.source
  refine ⟨?_, (p.proceeds_assemble hf).numbers⟩
  rw [Pattern.Reserved] at hstop
  rw [Valid] at hf
  show p.lastStop f.states f.source < f.states + p.branchStates
  omega

/-- The calls before the innermost open group number the states, and leave one for its branches. -/
lemma OpenGroup.numbers_calls (groups : List OpenGroup) :
    (front groups).Valid ∧ Numbers 1 (calls groups) (front groups).states := by
  induction groups with
  | nil => exact ⟨Nat.one_lt_two, .state (.transition Nat.zero_lt_two Nat.one_lt_two (.nil 2))⟩
  | cons g groups ih =>
      obtain ⟨hvalid, hcalls⟩ := ih
      obtain ⟨hnext, hbranches⟩ := hvalid.after g.outside.toPattern
      refine ⟨Nat.lt_succ_self _, hcalls.append (hbranches.append ?_)⟩
      exact .state (.transition (hnext.trans (Nat.lt_succ_self _)) (Nat.lt_succ_self _) (.nil _))

/-- The calls behind the body of a group number the states. -/
lemma Front.Valid.leave {f : Front} (hf : f.Valid) (body : Pattern) (name : String) {n e : Nat}
    (hn : n = f.inside.states + body.states) (he : e = body.stop f.inside.states f.inside.source) :
    Numbers n ([.state n, .transition ⟨e, none, n⟩, .tag ⟨name, f.source, e⟩] : List PatternCall)
      (n + 1) := by
  have hreserved := body.stop_reserved f.inside.states f.inside.source
  rw [Pattern.Reserved, ← he] at hreserved
  rw [Valid] at hf
  simp only [states_inside, source_inside] at hn hreserved
  have hstart : f.source < n + 1 := by omega
  have hstop : e < n + 1 := by omega
  exact .state (.transition hstop (Nat.lt_succ_self n) (.tag hstart hstop (.nil _)))

/-- The calls behind the branches of the innermost open group number the states. -/
lemma OpenGroup.numbers_leaveCalls (groups : List OpenGroup) (body : Pattern) :
    ∃ m, Numbers ((front groups).states + body.states) (leaveCalls body groups) m := by
  cases groups with
  | nil => exact ⟨_, .nil _⟩
  | cons g groups =>
      obtain ⟨hvalid, -⟩ := numbers_calls groups
      exact ⟨_, (hvalid.after g.outside.toPattern).1.leave body _ rfl rfl⟩

/-- The calls for what has been read of an item number the states. -/
lemma Place.numbers_calls {f : Front} (hf : f.Valid) (place : Place) :
    ∃ m, Numbers f.states (place.calls f) m := by
  cases place with
  | item => exact ⟨_, .nil _⟩
  | quantifier atom => exact ⟨_, (atom.proceeds_assemble hf).numbers⟩
  | backslash column => exact ⟨_, .state (.nil _)⟩
  | parenthesis column => exact ⟨_, .nil _⟩
  | questionMark column => exact ⟨_, .nil _⟩
  | groupName column marks name => exact ⟨_, .nil _⟩
  | charClass column members place =>
      let atom := Pattern.Atom.charClass (members ++ place.pending)
      exact ⟨_, (atom.proceeds_assemble (g := f.groups) hf).numbers⟩

/-! ### Readers -/

/-- The calls for some members of a class are those for more of them, as far as they go. -/
lemma Member.callsOf_append (n source target : Nat) (xs ys : List Member) :
    callsOf n source target (xs ++ ys) =
      callsOf n source target xs ++ callsOf (n + (xs.map Member.states).sum) source target ys := by
  induction xs generalizing n with
  | nil => rfl
  | cons x xs ih =>
      rw [List.cons_append, callsOf, callsOf, ih, List.append_assoc, List.map_cons, List.sum_cons,
        Nat.add_assoc]

/-- The calls for a class only go on when it gets further members. -/
lemma Pattern.Atom.calls_charClass_prefix (n g source : Nat) (xs ys : List Member) :
    (Atom.charClass xs).calls n g source <+: (Atom.charClass (xs ++ ys)).calls n g source := by
  rw [Atom.calls, Atom.calls, Member.callsOf_append, ← List.cons_append]
  exact List.prefix_append _ _

/-- A character may become the start of a range, whose calls start with the one for the character. -/
lemma Pattern.Atom.calls_range_prefix (n g source : Nat) (xs : List Member) {first last : Literal}
    {a b : Char} (hfirst : first.meaning = .single a) (hlast : last.meaning = .single b) (hlt : a < b) :
    (Atom.charClass (xs ++ [.literal first])).calls n g source <+:
      (Atom.charClass (xs ++ [.range first last])).calls n g source := by
  rw [Atom.calls, Atom.calls, Member.callsOf_append, Member.callsOf_append]
  refine List.cons_prefix_cons.2 ⟨rfl, (List.prefix_append_right_inj _).2 ?_⟩
  simp [Member.callsOf, Member.calls, Meaning.calls, rangeEnds, fan, hfirst, hlast, hlt]

namespace Level

@[simp] lemma calls_bar (l : Level) (n g source : Nat) :
    l.bar.toPattern.branchCalls n g source = l.toPattern.branchCalls n g source :=
  List.append_nil _

/-- An item is called for behind all that there was before it, and its quantifier behind it. -/
lemma calls_append_prefix (l : Level) (f : Front) (atom : Pattern.Atom) (q : Quantifier) :
    l.toPattern.branchCalls f.states f.groups f.source ++
        atom.calls (f.after l.toPattern).states (f.after l.toPattern).groups (f.after l.toPattern).source <+:
      (l.append atom q).toPattern.branchCalls f.states f.groups f.source := by
  obtain ⟨finished, current⟩ := l
  cases finished with
  | none => simp [append, toPattern, Pattern.branchCalls, Pattern.Sequence.calls, Front.after,
      Pattern.branchStates, Pattern.groups, Pattern.lastStop]
  | some branches => simp [append, toPattern, Pattern.branchCalls, Pattern.Sequence.calls, Front.after,
      Pattern.branchStates, Pattern.groups, Pattern.lastStop, Nat.add_assoc]

end Level

namespace Reader

variable {r r' : Reader} {c : Char}

/-- The calls before the item number the states, and leave one for it to start in. -/
lemma numbers_settledCalls (r : Reader) : r.front.Valid ∧ Numbers 1 r.settledCalls r.front.states := by
  obtain ⟨hvalid, hgroups⟩ := OpenGroup.numbers_calls r.groups
  obtain ⟨hfront, hlevel⟩ := hvalid.after r.level.toPattern
  exact ⟨hfront, hgroups.append hlevel⟩

/-- The calls for what has been read number the states. -/
lemma numbers_calls (r : Reader) : ∃ m, Numbers 1 r.calls m := by
  obtain ⟨hfront, hsettled⟩ := r.numbers_settledCalls
  obtain ⟨m, hplace⟩ := r.place.numbers_calls hfront
  exact ⟨m, hsettled.append hplace⟩

/-- The calls at the end of a group number the states behind those for its branches. -/
lemma numbers_endCalls (r : Reader) : ∃ m, Numbers r.front.states r.endCalls m := by
  obtain ⟨hvalid, -⟩ := OpenGroup.numbers_calls r.groups
  have hjoin := (Assembly.proceeds_join (g := 0) r.level.toPattern hvalid).numbers
  obtain ⟨m, hleave⟩ := OpenGroup.numbers_leaveCalls r.groups r.level.toPattern
  exact ⟨m, hjoin.append hleave⟩

/-- The calls up to a mistake number the states. -/
lemma numbers_callsBefore (r : Reader) (next : Option Char) : ∃ m, Numbers 1 (r.callsBefore next) m := by
  rw [callsBefore]
  split
  next hplace =>
    obtain ⟨-, hsettled⟩ := (r.beforeMistake next).numbers_settledCalls
    rw [calls, hplace, Place.calls, List.append_nil]
    split
    next =>
      obtain ⟨m, hend⟩ := (r.beforeMistake next).numbers_endCalls
      exact ⟨m, hsettled.append hend⟩
    next => exact ⟨_, hsettled.append (.nil _)⟩
  next =>
    obtain ⟨m, hcalls⟩ := (r.beforeMistake next).numbers_calls
    exact ⟨m, hcalls.append (.nil m)⟩

/-- The calls for a text number the states, whether it is a pattern or not. -/
lemma numbers_callsFor (r : Reader) (cs : List Char) : ∃ m, Numbers 1 (r.callsFor cs) m := by
  induction cs generalizing r with
  | nil =>
      rw [callsFor]
      split
      next p _ => exact ⟨_, p.proceeds_assembleMain.numbers⟩
      next => exact r.numbers_callsBefore none
  | cons c cs ih =>
      rw [callsFor]
      split
      next r' _ => exact ih r'
      next => exact r.numbers_callsBefore (some c)

lemma calls_of_place {place : Place} (h : r.place = place) :
    r.calls = r.settledCalls ++ place.calls r.front := by
  rw [calls, h]

@[simp] lemma calls_move (r : Reader) (place : Place) :
    (r.move place).calls = r.settledCalls ++ place.calls r.front :=
  rfl

/-! #### Classes -/

/-- A literal in a class is called for, even while it may become the start of a range. -/
@[simp] lemma calls_classLiteral (r : Reader) (opened : Nat) (members : List Member) (l : Literal)
    (column : Nat) : (r.classLiteral opened members l column).calls = r.settledCalls ++
      (Place.charClass opened (members ++ [.literal l]) .member).calls r.front := by
  rw [classLiteral]
  split <;> simp [Place.calls, ClassPlace.pending]

/-- The end of a range adds calls to those for its start. -/
lemma calls_classRange {opened column : Nat} {members : List Member} {first : RangeStart} {last : Literal}
    (hfirst : first.literal.meaning = .single first.char)
    (h : r.classRange opened members first last column = .ok r') :
    r.settledCalls ++ (Pattern.Atom.charClass (members ++ [.literal first.literal])).calls
      r.front.states r.front.groups r.front.source <+: r'.calls := by
  rw [classRange] at h
  split at h
  next d hd =>
    split at h
    next hlt =>
      cases h
      rw [calls_move, Place.calls, ClassPlace.pending, List.append_nil]
      exact (List.prefix_append_right_inj _).2 (Pattern.Atom.calls_range_prefix _ _ _ _ hfirst hd hlt)
    next => cases h
  next => cases h

/-- A character in a class adds its calls to those for the members before it. -/
lemma calls_classMember (r : Reader) (opened : Nat) (members : List Member) (c : Char) :
    r.settledCalls ++ (Place.charClass opened members .member).calls r.front <+:
      (r.classMember opened members c).calls := by
  rw [classMember, Place.calls, ClassPlace.pending, List.append_nil]
  split
  next => exact List.prefix_rfl
  next =>
    split
    next => simp [Place.calls, ClassPlace.pending]
    next =>
      rw [calls_classLiteral, Place.calls, ClassPlace.pending, List.append_nil]
      exact (List.prefix_append_right_inj _).2 (Pattern.Atom.calls_charClass_prefix _ _ _ _ _)

/-- What follows a dash in a class adds its calls to those for the character before the dash. -/
lemma calls_classDash (r : Reader) (opened : Nat) (members : List Member) (first : RangeStart)
    (last : Literal) :
    r.settledCalls ++ (Place.charClass opened members (.dash first)).calls r.front <+: r.settledCalls ++
      (Place.charClass opened (members ++ [.literal first.literal, .literal last]) .member).calls r.front := by
  rw [Place.calls, Place.calls, ClassPlace.pending, ClassPlace.pending, List.append_nil,
    List.append_cons members (.literal first.literal) [.literal last]]
  exact (List.prefix_append_right_inj _).2 (Pattern.Atom.calls_charClass_prefix _ _ _ _ _)

/-- A character in a class adds its calls, wherever it stands. -/
lemma calls_classStep {opened : Nat} {members : List Member} {place : ClassPlace}
    (hp : place.WellFormed members) (h : r.classStep opened members c place = .ok r') :
    r.settledCalls ++ (Place.charClass opened members place).calls r.front <+: r'.calls := by
  cases place with
  | member =>
      cases h
      exact r.calls_classMember opened members c
  | backslash column =>
      cases h
      rw [calls_classLiteral, Place.calls, Place.calls, ClassPlace.pending, ClassPlace.pending,
        List.append_nil, List.append_nil]
      exact (List.prefix_append_right_inj _).2 (Pattern.Atom.calls_charClass_prefix _ _ _ _ _)
  | character first =>
      rw [classStep] at h
      split at h
      next =>
        cases h
        rw [calls_move, Place.calls, Place.calls, ClassPlace.pending, ClassPlace.pending]
      next =>
        cases h
        refine List.IsPrefix.trans ?_ (r.calls_classMember opened _ c)
        rw [Place.calls, Place.calls, ClassPlace.pending, ClassPlace.pending, List.append_nil]
  | dash first =>
      rw [classStep] at h
      split at h
      next =>
        cases h
        exact (r.calls_classDash opened members first (.plain '-')).trans (r.calls_classMember opened _ c)
      next =>
        split at h
        next =>
          cases h
          rw [calls_move, Place.calls, Place.calls, ClassPlace.pending, ClassPlace.pending]
        next =>
          rw [Place.calls, ClassPlace.pending]
          exact calls_classRange hp.2.1 h
  | dashBackslash first column =>
      rw [Place.calls, ClassPlace.pending]
      exact calls_classRange hp.2.1 h

/-! #### Groups -/

/-- Opening a group adds the calls for its entry. -/
lemma calls_enter (r : Reader) (column : Nat) (header : Header) :
    r.settledCalls <+: (r.enter column header).settledCalls := by
  rw [settledCalls, settledCalls, enter]
  dsimp only [OpenGroup.calls]
  rw [← List.append_assoc, List.append_assoc]
  exact List.prefix_append _ _

/-- Closing a group adds the calls behind its body. -/
lemma calls_leave (h : r.leave = .ok r') : r.settledCalls <+: r'.calls := by
  rw [leave] at h
  split at h
  next => cases h
  next g groups hg =>
    cases h
    rw [calls_move, settledCalls, settledCalls, hg]
    simp [OpenGroup.calls, OpenGroup.front, Place.calls, Pattern.Atom.calls, Reader.front, Front.inside]

/-- A character in the name of a group adds calls only if it closes the name. -/
lemma calls_nameStep {column : Nat} {marks : NameMarks} {name : List Char}
    (h : r.nameStep column marks name c = .ok r') : r.settledCalls <+: r'.calls := by
  rw [nameStep] at h
  split at h
  next =>
    split at h
    next =>
      cases h
      exact List.prefix_append _ _
    next => cases h
  next =>
    split at h
    next =>
      cases h
      exact (r.calls_enter _ _).trans (List.prefix_append _ _)
    next =>
      split at h
      next => cases h
      next =>
        split at h
        next =>
          cases h
          exact List.prefix_append _ _
        next => cases h

/-- The character after a question mark adds no call. -/
lemma calls_headerStep {column : Nat} (h : r.headerStep column c = .ok r') :
    r.settledCalls <+: r'.calls := by
  rw [headerStep] at h
  split at h
  next =>
    cases h
    exact List.prefix_append _ _
  next =>
    split at h
    next =>
      cases h
      exact List.prefix_append _ _
    next => cases h

/-! #### Items -/

/-- The first character of an item adds calls to those for the items before it. -/
lemma calls_itemStep (h : r.itemStep c = .ok r') : r.settledCalls <+: r'.calls := by
  rw [itemStep.eq_def] at h
  split at h
  case h_4 =>
    cases h
    have hbar : ({ r with level := r.level.bar } : Reader).settledCalls = r.settledCalls :=
      congrArg (OpenGroup.calls r.groups ++ ·) (r.level.calls_bar _ _ _)
    rw [calls_move, hbar]
    exact List.prefix_append _ _
  case h_5 => exact calls_leave h
  case h_6 =>
    rw [strayBracket] at h
    split at h <;> cases h
  all_goals cases h
  all_goals exact List.prefix_append _ _

/-- An atom adds its calls to those for the items before it. -/
lemma calls_append (r : Reader) (atom : Pattern.Atom) (q : Quantifier) :
    r.settledCalls ++ (Place.quantifier atom).calls r.front <+: (r.append atom q).settledCalls := by
  rw [settledCalls, List.append_assoc]
  exact (List.prefix_append_right_inj _).2 (r.level.calls_append_prefix _ atom q)

/-- The character after an atom adds its calls. -/
lemma calls_quantifierStep {atom : Pattern.Atom} (h : r.quantifierStep atom c = .ok r') :
    r.settledCalls ++ (Place.quantifier atom).calls r.front <+: r'.calls := by
  rw [quantifierStep] at h
  split at h
  next q hq =>
    cases h
    exact (r.calls_append atom q).trans (List.prefix_append _ _)
  next => exact (r.calls_append atom .once).trans (calls_itemStep h)

/-! #### Whole patterns -/

/-- Reading a character adds its calls to those for all that has been read. -/
lemma calls_step (hr : r.WellFormed) (h : r.step c = .ok r') : r.calls <+: r'.calls := by
  have hplace := hr.place
  rw [step] at h
  split at h
  next hp =>
    rw [calls_of_place hp, Place.calls, List.append_nil]
    exact calls_itemStep h
  next hp =>
    rw [calls_of_place hp]
    exact calls_quantifierStep h
  next hp =>
    cases h
    rw [calls_of_place hp, calls_move]
    exact (List.prefix_append_right_inj _).2 (List.prefix_append [Call.state r.front.states] _)
  next column hp =>
    rw [calls_of_place hp, Place.calls, List.append_nil]
    split at h
    next =>
      cases h
      exact List.prefix_append _ _
    next => exact (r.calls_enter column .anonymous).trans (calls_itemStep h)
  next hp =>
    rw [calls_of_place hp, Place.calls, List.append_nil]
    exact calls_headerStep h
  next hp =>
    rw [calls_of_place hp, Place.calls, List.append_nil]
    exact calls_nameStep h
  next hp =>
    rw [hp] at hplace
    rw [calls_of_place hp]
    exact calls_classStep hplace.2.2 h

/-- Between two items and outside of all groups, the calls for the pattern only go on. -/
lemma calls_close {p : Pattern} (h : r.close = .ok p) : r.settledCalls <+: p.calls := by
  rw [close] at h
  split at h
  next hg =>
    cases h
    rw [settledCalls, hg, Pattern.calls]
    exact (List.prefix_append_right_inj _).2 (List.prefix_append _ _)
  next => cases h

/-- The calls for a pattern that may end only go on. -/
lemma calls_finish {p : Pattern} (h : r.finish = .ok p) : r.calls <+: p.calls := by
  rw [finish] at h
  split at h
  next hp =>
    rw [calls_of_place hp, Place.calls, List.append_nil]
    exact calls_close h
  next atom hp =>
    rw [calls_of_place hp]
    exact (r.calls_append atom .once).trans (calls_close h)
  all_goals cases h

/-- Nothing that a reader has read is ill-formed. -/
lemma wellFormed_of_read {cs : List Char} (h : ({} : Reader).read cs = .ok r) : r.WellFormed := by
  have hstart : ({} : Reader).WellFormed := ⟨by simp, trivial, trivial⟩
  exact hstart.read h

/-! #### Mistakes -/

/-- Up to a mistake the calls only go on. -/
lemma calls_beforeMistake (r : Reader) (next : Option Char) : r.calls <+: (r.beforeMistake next).calls := by
  rw [beforeMistake.eq_def]
  split
  next _ atom hp =>
    rw [calls_of_place hp]
    exact (r.calls_append atom .once).trans (List.prefix_append _ _)
  next _ column hp =>
    rw [calls_of_place hp, Place.calls, List.append_nil]
    exact (r.calls_enter column .anonymous).trans (List.prefix_append _ _)
  next _ opened members first hp =>
    rw [calls_of_place hp]
    exact r.calls_classDash opened members first _
  next opened members first column c hp =>
    rw [calls_of_place hp]
    exact r.calls_classDash opened members first _
  next => exact List.prefix_rfl

/-- The calls for what has been read are the first ones up to a mistake. -/
lemma calls_callsBefore (r : Reader) (next : Option Char) : r.calls <+: r.callsBefore next :=
  (r.calls_beforeMistake next).trans (List.prefix_append _ _)

/-! #### Whole texts -/

/-- The calls for what has been read are the first ones, whatever follows. -/
lemma calls_callsFor (hr : r.WellFormed) (cs : List Char) : r.calls <+: r.callsFor cs := by
  induction cs generalizing r with
  | nil =>
      rw [callsFor]
      split
      next hp => exact calls_finish hp
      next => exact r.calls_callsBefore none
  | cons c cs ih =>
      rw [callsFor]
      split
      next hstep => exact (calls_step hr hstep).trans (ih (hr.step hstep))
      next => exact r.calls_callsBefore (some c)

/-- What has been read can be left out of the text. -/
lemma callsFor_append {cs : List Char} (h : r.read cs = .ok r') (ds : List Char) :
    r.callsFor (cs ++ ds) = r'.callsFor ds := by
  induction cs generalizing r with
  | nil =>
      cases h
      rfl
  | cons c cs ih =>
      rw [read, List.foldlM_cons] at h
      obtain ⟨r₁, h₁, h⟩ := bind_eq_ok.1 h
      rw [List.cons_append, callsFor, h₁]
      exact ih h

/-- For a pattern, these are the calls for its tree. -/
lemma callsFor_of_readPattern {cs : List Char} {p : Pattern} (h : readPattern cs = .ok p) :
    cs.isEmpty = false ∧ ({} : Reader).callsFor cs = p.calls := by
  rw [readPattern] at h
  split at h
  next => cases h
  next hne =>
    split at h
    next => cases h
    next r hr =>
      have hfinish : r.callsFor [] = p.calls := by rw [callsFor, h]
      rw [← List.append_nil cs, callsFor_append hr, hfinish, List.append_nil]
      exact ⟨Bool.eq_false_iff.2 hne, rfl⟩

end Reader

namespace Pattern

/-- The calls for a text number the states, whether it is a pattern or not. -/
lemma inOrder_callsFor (text : String) : InOrder (callsFor text) := by
  rw [callsFor]
  split
  next => exact (Numbers.nil 1).inOrder
  next =>
    obtain ⟨m, hcalls⟩ := ({} : Reader).numbers_callsFor text.toList
    exact hcalls.inOrder

-- A line break does not end a range, but its state is made before this is seen.
example : callsFor "[a-\\R]" =
    [.state 1, .transition ⟨0, none, 1⟩, .state 2, .transition ⟨1, some 'a', 2⟩,
      .transition ⟨1, some '\r', 2⟩, .transition ⟨1, some '\n', 2⟩, .state 3,
      .transition ⟨1, some '\r', 3⟩, .transition ⟨3, some '\n', 2⟩] :=
  rfl

/-- The calls for the first characters of a text are the first calls for all of it. -/
lemma calls_prefix_callsFor {text : String} {cs rest : List Char} {r : Reader} (hne : text ≠ "")
    (htext : text.toList = cs ++ rest) (hr : ({} : Reader).read cs = .ok r) : r.calls <+: callsFor text := by
  have hempty : text.toList.isEmpty = false := by simpa using hne
  rw [callsFor, hempty, if_neg Bool.false_ne_true, htext, Reader.callsFor_append hr]
  exact Reader.calls_callsFor (Reader.wellFormed_of_read hr) rest

/-- For a pattern, the calls for the text are those for its tree. -/
lemma callsFor_of_parse {text : String} {p : Pattern} (hp : parse text = .ok p) : callsFor text = p.calls := by
  rw [parse, mapError_eq_ok] at hp
  obtain ⟨hempty, hcalls⟩ := Reader.callsFor_of_readPattern hp
  rw [callsFor, hempty, if_neg Bool.false_ne_true, hcalls]

end Pattern

/-! ### All texts -/

/-- While a text is read, the states of its automaton are numbered as they are made, whether the text turns out
to be a pattern or not: all calls up to its end, or up to the first mistake in it, are in order. What a reader
has called for when it has read the first characters is where they begin. For a pattern, they are the calls by
which its automaton is assembled. So a text is only ever refused as malformed, and an automaton has the states
from 0 on without a gap. -/
theorem Pattern.states_in_order (text : String) :
    Nfa.InOrder (Pattern.callsFor text) ∧
      (∀ cs rest r, text ≠ "" → text.toList = cs ++ rest → ({} : Reader).read cs = .ok r →
        r.calls <+: Pattern.callsFor text) ∧
      (∀ p, Pattern.parse text = .ok p → Pattern.callsFor text = p.calls ∧
        ∃ b, Assembly.Performs p.assembleMain Assembly.start p.calls () b ∧
          b.builder = Nfa.Builder.ofCalls 0 p.calls ∧
          Nfa.ofPattern text = b.builder.build.mapError .undefined) ∧
      (∀ e, Nfa.ofPattern text = .error e → ∃ m, e = .malformed m) ∧
      ∀ m, Nfa.ofPattern text = .ok m → m.states = List.range m.states.length := by
  refine ⟨inOrder_callsFor text, fun cs rest r hne htext hr => calls_prefix_callsFor hne htext hr,
    fun p hp => ?_, fun e he => ?_, fun m hm => ?_⟩
  · obtain ⟨b, hb, -⟩ := p.proceeds_assembleMain.performs Assembly.start Builder.dense_ofInitial rfl
    refine ⟨callsFor_of_parse hp, b, hb, hb.builder_eq, ?_⟩
    have hrun : p.assembleMain.run Assembly.start = ((), b) := hb.makes
    rw [Nfa.ofPattern, hp]
    show p.toNfa.mapError PatternError.undefined = _
    rw [toNfa, hrun]
  · rcases bind_eq_error.1 he with hparse | ⟨p, hparse, hbuild⟩
    · obtain ⟨m, -, rfl⟩ := mapError_eq_error.1 hparse
      exact ⟨m, rfl⟩
    · obtain ⟨m, -, hm, -⟩ := exists_ofPattern (mapError_eq_ok.1 hparse)
      rw [hm] at he
      cases he
  · obtain ⟨p, hp, hbuild⟩ := exists_of_ofPattern hm
    rw [(isLaidOutAs_of_toNfa (wellFormed_of_parse hp) hbuild).states_eq, List.length_range]

end CaptureAutomata
