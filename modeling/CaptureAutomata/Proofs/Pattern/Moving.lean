/-
The same pattern in another place:

* `Moves`: a map leads consecutive states to consecutive states, from another one on;
* `Pattern.stops_map`, `Pattern.edges_map`: what is written down for a pattern in another place are its
  stops and transitions, led there by such a map;
* `Renumbers`: a map of names that counts more groups before those without a name;
* `Pattern.tags_map`: the tags are led there as well, with other numbers.
-/
import CaptureAutomata.Pattern.Grammar
import CaptureAutomata.Pattern.Layout

namespace CaptureAutomata

/-- The edge between the vertices that `f` leads to. -/
def Edge.map {V W E : Type} (f : V → W) (e : Edge V E) : Edge W E :=
  ⟨f e.source, e.label, f e.target⟩

/-- The tag between the states that `f` leads to, named by what `ρ` makes of its name. -/
def Tag.map {T U S R : Type} (ρ : T → U) (f : S → R) (t : Tag T S) : Tag U R :=
  ⟨ρ t.name, f t.start, f t.stop⟩

/-! ### Consecutive states -/

/-- `f` leads the `k` states from `n` on to those from `n'` on, in their order. -/
def Moves (f : Nat → Nat) (n n' k : Nat) : Prop :=
  ∀ i < k, f (n + i) = n' + i

section Moves

variable {f : Nat → Nat} {n n' k l s s' : Nat}

/-- It leads the first of them there. -/
lemma Moves.left (h : Moves f n n' (k + l)) : Moves f n n' k :=
  fun i hi => h i (by omega)

/-- It leads the last of them there. -/
lemma Moves.right (h : Moves f n n' (k + l)) : Moves f (n + k) (n' + k) l := fun i hi => by
  rw [Nat.add_assoc, Nat.add_assoc]
  exact h (k + i) (by omega)

lemma Moves.last {j : Nat} (h : Moves f n n' (k + l + j)) : Moves f (n + k + l) (n' + k + l) j := by
  rw [Nat.add_assoc, Nat.add_assoc]
  exact h.right

lemma Moves.one (h : Moves f n n' 1) : f n = n' := h 0 Nat.one_pos

/-! ### Literals, members and quantifiers -/

lemma fan_map (f : Nat → Nat) (s t : Nat) (symbols : List Char) :
    fan (f s) (f t) symbols = (fan s t symbols).map (Edge.map f) := by
  rw [fan, fan, List.map_map]
  rfl

/-- A literal has its transitions in another place. -/
lemma Meaning.edges_map {x : Meaning} (h : Moves f n n' x.states) (s t : Nat) :
    x.edges n' (f s) (f t) = (x.edges n s t).map (Edge.map f) := by
  cases x with
  | single c => exact fan_map f s t [c]
  | oneOf cs => exact fan_map f s t cs
  | lineBreak =>
      rw [edges, edges, List.map_append, ← fan_map, ← Moves.one h]
      rfl

/-- A member of a class has its transitions in another place. -/
lemma Member.edges_map {x : Member} (h : Moves f n n' x.states) (s t : Nat) :
    x.edges n' (f s) (f t) = (x.edges n s t).map (Edge.map f) := by
  cases x with
  | literal x => exact Meaning.edges_map h s t
  | range first last => exact fan_map f s t _

/-- The members of a class have their transitions in another place. -/
lemma Member.edgesOf_map {members : List Member} (h : Moves f n n' (members.map states).sum)
    (s t : Nat) : edgesOf n' (f s) (f t) members = (edgesOf n s t members).map (Edge.map f) := by
  induction members generalizing n n' with
  | nil => rfl
  | cons x members ih =>
      rw [List.map_cons, List.sum_cons] at h
      rw [edgesOf, edgesOf, List.map_append, edges_map h.left, ih h.right]

/-- A quantifier has its transitions in another place. -/
lemma Quantifier.edges_map {q : Quantifier} (h : Moves f n n' q.states) (s e : Nat) :
    q.edges n' (f s) (f e) = (q.edges n s e).map (Edge.map f) := by
  cases q with
  | once => rfl
  | optional => rfl
  | oneOrMore => rfl
  | zeroOrMore =>
      rw [edges, edges, ← Moves.one h]
      rfl

/-- An item ends in another place. -/
lemma Quantifier.stop_map {q : Quantifier} (h : Moves f n n' q.states) (e : Nat) :
    q.stop n' (f e) = f (q.stop n e) := by
  cases q with
  | once => rfl
  | optional => rfl
  | oneOrMore => rfl
  | zeroOrMore => exact (Moves.one h).symm

end Moves

namespace Pattern

/-! ### Stops -/

section Stops

variable {f : Nat → Nat} {n n' s s' : Nat}

/-- An atom ends in another place. -/
lemma Atom.stop_map : ∀ {x : Atom}, Moves f n n' x.states → x.stop n' = f (x.stop n)
  | .literal _, h => h.left.one.symm
  | .charClass _, h => h.left.one.symm
  | .group _ body, h => by
      have hlast := h (1 + body.states) (Nat.lt_succ_self _)
      rw [← Nat.add_assoc, ← Nat.add_assoc] at hlast
      exact hlast.symm

/-- A branch ends in another place. -/
lemma Sequence.stop_map : ∀ {x : Sequence}, f s = s' → Moves f n n' x.states →
    x.stop n' s' = f (x.stop n s)
  | .empty, hs, _ => hs.symm
  | .append items atom q, _, h => by
      rw [Sequence.stop, Sequence.stop, Atom.stop_map h.left.right]
      exact Quantifier.stop_map h.last _

/-- The branches of a pattern end in other places. -/
lemma stops_map : ∀ {p : Pattern}, f s = s' → Moves f n n' p.branchStates →
    p.stops n' s' = (p.stops n s).map f
  | .single branch, hs, h => by
      rw [stops, stops, Sequence.stop_map hs h]
      rfl
  | .alternative branches branch, hs, h => by
      rw [stops, stops, stops_map hs h.left, Sequence.stop_map hs h.right, List.map_append]
      rfl

/-- A pattern ends in another place. -/
lemma stop_map {p : Pattern} (hs : f s = s') (h : Moves f n n' p.states) :
    p.stop n' s' = f (p.stop n s) := by
  cases p with
  | single branch => exact Sequence.stop_map hs h.left
  | alternative branches branch => exact h.right.one.symm

/-- Branches are led together in another place. -/
lemma joinEdges_map {p : Pattern} (hs : f s = s') (h : Moves f n n' p.states) :
    p.joinEdges n' s' = (p.joinEdges n s).map (Edge.map f) := by
  cases p with
  | single branch => rfl
  | alternative branches branch =>
      rw [joinEdges, joinEdges, stop_map hs h, stops_map hs h.left, List.map_map, List.map_map]
      rfl

end Stops

/-! ### Transitions -/

mutual

/-- The branches of a pattern have their transitions in another place. -/
lemma branchEdges_map : ∀ (p : Pattern) {f : Nat → Nat} {n n' s s' : Nat}, f s = s' →
    Moves f n n' p.branchStates → p.branchEdges n' s' = (p.branchEdges n s).map (Edge.map f)
  | .single branch, _, _, _, _, _, hs, h => branch.edges_map hs h
  | .alternative branches branch, _, _, _, _, _, hs, h => by
      rw [branchEdges, branchEdges, branches.branchEdges_map hs h.left, branch.edges_map hs h.right,
        List.map_append]

/-- A branch has its transitions in another place. -/
lemma Sequence.edges_map : ∀ (x : Sequence) {f : Nat → Nat} {n n' s s' : Nat}, f s = s' →
    Moves f n n' x.states → x.edges n' s' = (x.edges n s).map (Edge.map f)
  | .empty, _, _, _, _, _, _, _ => rfl
  | .append items atom q, f, n, n', s, s', hs, h => by
      have hstop := Sequence.stop_map hs h.left.left
      rw [Sequence.edges, Sequence.edges, items.edges_map hs h.left.left,
        atom.edges_map hstop.symm h.left.right, Atom.stop_map h.left.right, hstop,
        Quantifier.edges_map h.last, List.map_append, List.map_append]

/-- An atom has its transitions in another place. -/
lemma Atom.edges_map : ∀ (x : Atom) {f : Nat → Nat} {n n' s s' : Nat}, f s = s' →
    Moves f n n' x.states → x.edges n' s' = (x.edges n s).map (Edge.map f)
  | .literal l, f, n, n', s, s', hs, h => by
      have hstop : f n = n' := h.left.one
      rw [Atom.edges, Atom.edges, ← hs, ← hstop]
      exact Meaning.edges_map (hstop ▸ h.right) s n
  | .charClass members, f, n, n', s, s', hs, h => by
      have hstop : f n = n' := h.left.one
      rw [Atom.edges, Atom.edges, ← hs, ← hstop]
      exact Member.edgesOf_map (hstop ▸ h.right) s n
  | .group header body, f, n, n', s, s', hs, h => by
      have hbody : Moves f (n + 1) (n' + 1) body.states := h.left.right
      have hentry : f n = n' := h.left.left.one
      have hlast := Atom.stop_map (x := .group header body) h
      rw [Atom.stop, Atom.stop] at hlast
      rw [Atom.edges, Atom.edges, body.branchEdges_map hentry hbody.left,
        joinEdges_map hentry hbody, stop_map hentry hbody, hlast, ← hs, ← hentry]
      simp [Edge.map]

end

/-- A pattern has its transitions in another place. -/
lemma edges_map (p : Pattern) {f : Nat → Nat} {n n' s s' : Nat} (hs : f s = s')
    (h : Moves f n n' p.states) : p.edges n' s' = (p.edges n s).map (Edge.map f) := by
  rw [edges, edges, p.branchEdges_map hs h.left, joinEdges_map hs h, List.map_append]

end Pattern

/-! ### Tags -/

/-- `ρ` names groups without a name as if there were `j` more groups before them, and keeps other
names. -/
def Renumbers (ρ : String → String) (j : Nat) : Prop :=
  ∀ x : Header, x.WellFormed → ∀ i, ρ (x.name i) = x.name (i + j)

namespace Pattern

variable {ρ : String → String} {j : Nat}

mutual

/-- A pattern has its tags in another place, with other numbers. -/
lemma tags_map (hρ : Renumbers ρ j) : ∀ (p : Pattern) {f : Nat → Nat} {n n' g s s' : Nat},
    p.WellFormed → f s = s' → Moves f n n' p.branchStates →
      p.tags n' (g + j) s' = (p.tags n g s).map (Tag.map ρ f)
  | .single branch, _, _, _, _, _, _, hp, hs, h => branch.tags_map hρ hp hs h
  | .alternative branches branch, _, _, _, _, _, _, hp, hs, h => by
      rw [tags, tags, branches.tags_map hρ hp.1 hs h.left, Nat.add_right_comm,
        branch.tags_map hρ hp.2 hs h.right, List.map_append]

/-- A branch has its tags in another place, with other numbers. -/
lemma Sequence.tags_map (hρ : Renumbers ρ j) :
    ∀ (x : Sequence) {f : Nat → Nat} {n n' g s s' : Nat}, x.WellFormed → f s = s' →
      Moves f n n' x.states → x.tags n' (g + j) s' = (x.tags n g s).map (Tag.map ρ f)
  | .empty, _, _, _, _, _, _, _, _, _ => rfl
  | .append items atom q, _, _, _, _, _, _, hp, hs, h => by
      have hstop := Sequence.stop_map hs h.left.left
      rw [Sequence.tags, Sequence.tags, items.tags_map hρ hp.1 hs h.left.left, Nat.add_right_comm,
        atom.tags_map hρ hp.2 hstop.symm h.left.right, List.map_append]

/-- An atom has its tags in another place, with other numbers. -/
lemma Atom.tags_map (hρ : Renumbers ρ j) :
    ∀ (x : Atom) {f : Nat → Nat} {n n' g s s' : Nat}, x.WellFormed → f s = s' →
      Moves f n n' x.states → x.tags n' (g + j) s' = (x.tags n g s).map (Tag.map ρ f)
  | .literal _, _, _, _, _, _, _, _, _, _ => rfl
  | .charClass _, _, _, _, _, _, _, _, _, _ => rfl
  | .group header body, f, n, n', g, s, s', hp, hs, h => by
      have hbody : Moves f (n + 1) (n' + 1) body.states := h.left.right
      have hentry : f n = n' := h.left.left.one
      rw [Atom.tags, Atom.tags, Nat.add_right_comm, body.tags_map hρ hp.2 hentry hbody.left,
        stop_map hentry hbody, ← hρ header hp.1, List.map_append, ← hs]
      rfl

end

end Pattern

end CaptureAutomata
