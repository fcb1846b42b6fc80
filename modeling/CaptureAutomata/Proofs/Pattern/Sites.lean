/-
The groups in the automaton of a pattern:

* `Pattern.Site`, `Pattern.sites`: where each group stands, in the order of the tags;
* `Pattern.Reserved`: the states that a part may lead to: the one that it starts in and those that it
  takes up;
* `Pattern.Site.Fits`: among some transitions, only those of a group lead into it; `Pattern.fits` and
  one lemma for each kind of part say that this holds of all groups;
* `Pattern.Site.reaches_stop_iff`: a group can end exactly where its body has been read from where the
  group can start.
-/
import CaptureAutomata.Proofs.Pattern.Layout

namespace CaptureAutomata

open scoped Computability

/-! ### Sites -/

/-- Where a group stands in the automaton of a pattern. -/
structure Pattern.Site where
  /-- The name of the group. -/
  name : String
  /-- The state that the group starts in, which other parts may start or end in, too. -/
  source : Nat
  /-- The state that the body starts in, the first that the group takes up. -/
  entry : Nat
  /-- What stands in the group. -/
  body : Pattern

namespace Pattern.Site

/-- The state that the body ends in. -/
def stop (x : Site) : Nat :=
  x.body.stop (x.entry + 1) x.entry

/-- The tag of the group. -/
def tag (x : Site) : Tag String Nat :=
  ⟨x.name, x.source, x.stop⟩

/-- The transition to the body, and those of the body. -/
def edges (x : Site) : List (Edge Nat (Option Char)) :=
  ⟨x.source, none, x.entry⟩ :: x.body.edges (x.entry + 1) x.entry

/-- The state is the first of the body or one that the body takes up. -/
def Inside (x : Site) (s : Nat) : Prop :=
  x.entry ≤ s ∧ s < x.entry + 1 + x.body.states

end Pattern.Site

namespace Pattern

mutual

/-- Where the groups in a pattern stand, if `n` states and `g` groups come before it and it starts in
`source`. -/
def sites (n g source : Nat) : Pattern → List Site
  | .single branch => branch.sites n g source
  | .alternative branches branch =>
    branches.sites n g source ++
      branch.sites (n + branches.branchStates) (g + branches.groups) source

/-- Where the groups in a branch stand. -/
def Sequence.sites (n g source : Nat) : Sequence → List Site
  | .empty => []
  | .append items atom _ =>
    items.sites n g source ++
      atom.sites (n + items.states) (g + items.groups) (items.stop n source)

/-- Where the groups in an atom stand: those inside of a group, and the group itself. -/
def Atom.sites (n g source : Nat) : Atom → List Site
  | .literal _ => []
  | .charClass _ => []
  | .group header body => body.sites (n + 1) (g + 1) n ++ [⟨header.name (g + 1), source, n, body⟩]

end

mutual

/-- The tags in a pattern are those of its groups. -/
lemma tags_eq_map : ∀ (p : Pattern) (n g source : Nat),
    p.tags n g source = (p.sites n g source).map Site.tag
  | .single branch, n, g, source => branch.tags_eq_map n g source
  | .alternative branches branch, n, g, source => by
      rw [tags, sites, List.map_append, branches.tags_eq_map, branch.tags_eq_map]

lemma Sequence.tags_eq_map : ∀ (x : Sequence) (n g source : Nat),
    x.tags n g source = (x.sites n g source).map Site.tag
  | .empty, _, _, _ => rfl
  | .append items atom _, n, g, source => by
      rw [Sequence.tags, Sequence.sites, List.map_append, items.tags_eq_map, atom.tags_eq_map]

/-- The tags in an atom are those of its groups. -/
lemma Atom.tags_eq_map : ∀ (x : Atom) (n g source : Nat),
    x.tags n g source = (x.sites n g source).map Site.tag
  | .literal _, _, _, _ => rfl
  | .charClass _, _, _, _ => rfl
  | .group header body, n, g, source => by
      rw [Atom.tags, Atom.sites, List.map_append, body.tags_eq_map]
      rfl

end

mutual

/-- The groups in a well-formed pattern have well-formed bodies. -/
lemma wellFormed_of_mem_sites : ∀ (p : Pattern) {n g source : Nat} {x : Site},
    p.WellFormed → x ∈ p.sites n g source → x.body.WellFormed
  | .single branch, _, _, _, _, hp, hx => branch.wellFormed_of_mem_sites hp hx
  | .alternative branches branch, _, _, _, _, hp, hx => by
      rcases List.mem_append.1 hx with hx | hx
      · exact branches.wellFormed_of_mem_sites hp.1 hx
      · exact branch.wellFormed_of_mem_sites hp.2 hx

/-- The groups in a well-formed branch have well-formed bodies. -/
lemma Sequence.wellFormed_of_mem_sites : ∀ (y : Sequence) {n g source : Nat} {x : Site},
    y.WellFormed → x ∈ y.sites n g source → x.body.WellFormed
  | .append items atom _, _, _, _, _, hp, hx => by
      rcases List.mem_append.1 hx with hx | hx
      · exact items.wellFormed_of_mem_sites hp.1 hx
      · exact atom.wellFormed_of_mem_sites hp.2 hx

/-- The groups in a well-formed atom have well-formed bodies. -/
lemma Atom.wellFormed_of_mem_sites : ∀ (y : Atom) {n g source : Nat} {x : Site},
    y.WellFormed → x ∈ y.sites n g source → x.body.WellFormed
  | .group _ body, _, _, _, _, hp, hx => by
      rcases List.mem_append.1 hx with hx | hx
      · exact body.wellFormed_of_mem_sites hp.2 hx
      · obtain rfl := List.mem_singleton.1 hx
        exact hp.2

end

end Pattern

/-! ### Reserved states -/

lemma target_eq_of_mem_fan {source target : Nat} {symbols : List Char} {e : Edge Nat (Option Char)}
    (he : e ∈ fan source target symbols) : e.target = target := by
  obtain ⟨c, -, rfl⟩ := List.mem_map.1 he
  rfl

/-- The transitions of a literal lead to its target, or to a state that it takes up. -/
lemma Meaning.target_range {l : Meaning} {n source target : Nat} {e : Edge Nat (Option Char)}
    (he : e ∈ l.edges n source target) :
    e.target = target ∨ n ≤ e.target ∧ e.target < n + l.states := by
  cases l with
  | single c => exact Or.inl (target_eq_of_mem_fan he)
  | oneOf cs => exact Or.inl (target_eq_of_mem_fan he)
  | lineBreak =>
      rcases List.mem_append.1 he with he | he
      · exact Or.inl (target_eq_of_mem_fan he)
      · simp only [List.mem_cons, List.not_mem_nil, or_false] at he
        rcases he with rfl | rfl
        · exact Or.inr ⟨le_rfl, Nat.lt_succ_self n⟩
        · exact Or.inl rfl

/-- The transitions of a class lead to its target, or to a state that one of its members takes up. -/
lemma Member.target_range : ∀ {members : List Member} {n source target : Nat}
    {e : Edge Nat (Option Char)}, e ∈ Member.edgesOf n source target members →
      e.target = target ∨ n ≤ e.target ∧ e.target < n + (members.map Member.states).sum
  | m :: members, n, source, target, e, he => by
      rw [List.map_cons, List.sum_cons]
      rcases List.mem_append.1 he with he | he
      · have hm : e.target = target ∨ n ≤ e.target ∧ e.target < n + m.states := by
          cases m with
          | literal l => exact l.meaning.target_range he
          | range first last => exact Or.inl (target_eq_of_mem_fan he)
        omega
      · have hrest := target_range he
        omega

/-- The transitions of a quantifier lead to an end of what is repeated, or to the state that it takes
up. -/
lemma Quantifier.target_range {q : Quantifier} {n start stop : Nat} {e : Edge Nat (Option Char)}
    (he : e ∈ q.edges n start stop) :
    e.target = start ∨ e.target = stop ∨ n ≤ e.target ∧ e.target < n + q.states := by
  cases q with
  | once => cases he
  | optional =>
      obtain rfl := List.mem_singleton.1 he
      exact Or.inr (Or.inl rfl)
  | oneOrMore =>
      obtain rfl := List.mem_singleton.1 he
      exact Or.inl rfl
  | zeroOrMore =>
      simp only [edges, List.mem_cons, List.not_mem_nil, or_false] at he
      rcases he with rfl | rfl | rfl
      · exact Or.inl rfl
      · exact Or.inr (Or.inr ⟨le_rfl, Nat.lt_succ_self n⟩)
      · exact Or.inr (Or.inr ⟨le_rfl, Nat.lt_succ_self n⟩)

/-- An item ends where its atom does, or in the state that the quantifier takes up. -/
lemma Quantifier.stop_eq_or (q : Quantifier) (n stop : Nat) :
    q.stop n stop = stop ∨ q.stop n stop = n := by
  cases q with
  | once => exact Or.inl rfl
  | optional => exact Or.inl rfl
  | oneOrMore => exact Or.inl rfl
  | zeroOrMore => exact Or.inr rfl

namespace Pattern

open Assembly

/-- The state is the one that a part starts in, or one of the `k` states from `n` on that it takes up.
-/
def Reserved (source n k s : Nat) : Prop :=
  s = source ∨ n ≤ s ∧ s < n + k

/-- The stop of an atom is one of its states. -/
lemma Atom.stop_range (x : Atom) (n : Nat) : n ≤ x.stop n ∧ x.stop n < n + x.states := by
  cases x with
  | literal l =>
      rw [Atom.stop, Atom.states]
      omega
  | charClass members =>
      rw [Atom.stop, Atom.states]
      omega
  | group header body =>
      rw [Atom.stop, Atom.states, Pattern.states]
      omega

/-- The stop of a branch is reserved for it. -/
lemma Sequence.stop_reserved (x : Sequence) (n source : Nat) :
    Reserved source n x.states (x.stop n source) := by
  cases x with
  | empty => exact Or.inl rfl
  | append items atom q =>
      obtain ⟨hle, hlt⟩ := atom.stop_range (n + items.states)
      rw [Reserved, Sequence.stop, Sequence.states]
      cases q <;> simp only [Quantifier.stop, Quantifier.states] <;> omega

/-- The stops of the branches of a pattern are reserved for it. -/
lemma stops_reserved : ∀ (p : Pattern) (n source : Nat), ∀ s ∈ p.stops n source,
    Reserved source n p.branchStates s
  | .single branch, n, source, s, hs => by
      obtain rfl := List.mem_singleton.1 hs
      exact branch.stop_reserved n source
  | .alternative branches branch, n, source, s, hs => by
      rw [Reserved, branchStates]
      rcases List.mem_append.1 hs with hs | hs
      · have hold := branches.stops_reserved n source s hs
        rw [Reserved] at hold
        omega
      · obtain rfl := List.mem_singleton.1 hs
        have hnew := branch.stop_reserved (n + branches.branchStates) source
        rw [Reserved] at hnew
        omega

/-- The stop of a pattern is reserved for it. -/
lemma stop_reserved (p : Pattern) (n source : Nat) : Reserved source n p.states (p.stop n source) := by
  cases p with
  | single branch => exact branch.stop_reserved n source
  | alternative branches branch =>
      exact Or.inr ⟨Nat.le_add_right _ _, Nat.lt_succ_self _⟩

/-- The transitions that lead several branches together lead to a state behind them. -/
lemma target_of_mem_joinEdges {p : Pattern} {n source : Nat} {e : Edge Nat (Option Char)}
    (he : e ∈ p.joinEdges n source) : e.target = n + p.branchStates ∧ p.joinStates = 1 := by
  cases p with
  | single branch => cases he
  | alternative branches branch =>
      obtain ⟨s, -, rfl⟩ := List.mem_map.1 he
      exact ⟨rfl, rfl⟩

mutual

/-- The transitions of the branches of a pattern lead to states that are reserved for it. -/
lemma target_reserved : ∀ (p : Pattern) {n source : Nat} {e : Edge Nat (Option Char)},
    e ∈ p.branchEdges n source → Reserved source n p.branchStates e.target
  | .single branch, _, _, _, he => branch.target_reserved he
  | .alternative branches branch, n, source, e, he => by
      rw [Reserved, branchStates]
      rcases List.mem_append.1 he with he | he
      · have hold := branches.target_reserved he
        rw [Reserved] at hold
        omega
      · have hnew := branch.target_reserved he
        rw [Reserved] at hnew
        omega

/-- The transitions of a branch lead to states that are reserved for it. -/
lemma Sequence.target_reserved : ∀ (x : Sequence) {n source : Nat} {e : Edge Nat (Option Char)},
    e ∈ x.edges n source → Reserved source n x.states e.target
  | .append items atom q, n, source, e, he => by
      have hstart := items.stop_reserved n source
      have hstop := atom.stop_range (n + items.states)
      rw [Reserved] at hstart
      rw [Reserved, Sequence.states]
      rcases List.mem_append.1 he with he | he
      · rcases List.mem_append.1 he with he | he
        · have hitems := items.target_reserved he
          rw [Reserved] at hitems
          omega
        · have hatom := atom.target_range he
          omega
      · have hq := q.target_range he
        omega

/-- The transitions of an atom lead to states that it takes up. -/
lemma Atom.target_range : ∀ (x : Atom) {n source : Nat} {e : Edge Nat (Option Char)},
    e ∈ x.edges n source → n ≤ e.target ∧ e.target < n + x.states
  | .literal l, n, source, e, he => by
      have hlit := l.meaning.target_range he
      rw [Atom.states]
      omega
  | .charClass members, n, source, e, he => by
      have hmembers := Member.target_range he
      rw [Atom.states]
      omega
  | .group header body, n, source, e, he => by
      rw [Atom.states]
      rcases List.mem_append.1 he with he | he
      · rcases List.mem_cons.1 he with rfl | he
        · exact ⟨le_rfl, by show n < _; omega⟩
        · rcases List.mem_append.1 he with he | he
          · have hbody := body.target_reserved he
            rw [Reserved] at hbody
            omega
          · obtain ⟨htarget, hjoin⟩ := target_of_mem_joinEdges he
            omega
      · obtain rfl := List.mem_singleton.1 he
        rw [Pattern.states]
        exact ⟨by show n ≤ n + 1 + _; omega, by show n + 1 + _ < _; omega⟩

end

/-! ### Ways into a group -/

/-- Among some transitions are those of a group, and no others lead into it. The group takes up some
of the `k` states from `n` on, and the last of these is behind its body. -/
structure Site.Fits (x : Site) (es : List (Edge Nat (Option Char))) (n k : Nat) : Prop where
  /-- The group starts in a state before its own. -/
  source_lt : x.source < x.entry
  /-- The first state of the group is one of the `k` states. -/
  le_entry : n ≤ x.entry
  /-- The state behind the body is one of them, too. -/
  exit_lt : x.entry + 1 + x.body.states < n + k
  /-- The transitions of the group are there. -/
  mem : ∀ e ∈ x.edges, e ∈ es
  /-- Only these lead into the group. -/
  entered : ∀ e ∈ es, x.Inside e.target → e ∈ x.edges

/-- A group has its place among more transitions, if the others do not lead into it. -/
lemma Site.Fits.mono {x : Site} {es es' : List (Edge Nat (Option Char))} {n k n' k' : Nat}
    (h : x.Fits es n k) (hn : n' ≤ n) (hk : n + k ≤ n' + k') (hmem : ∀ e ∈ es, e ∈ es')
    (hother : ∀ e ∈ es', e ∈ es ∨ ¬ x.Inside e.target) : x.Fits es' n' k' where
  source_lt := h.source_lt
  le_entry := hn.trans h.le_entry
  exit_lt := h.exit_lt.trans_le hk
  mem e he := hmem e (h.mem e he)
  entered e he hin := (hother e he).elim (fun hold => h.entered e hold hin) (absurd hin)

/-- States before or behind a group are not inside of it. -/
lemma Site.Fits.not_inside {x : Site} {es : List (Edge Nat (Option Char))} {n k s : Nat}
    (h : x.Fits es n k) (hs : s < n ∨ n + k ≤ s) : ¬ x.Inside s := by
  rintro ⟨hle, hlt⟩
  have := h.le_entry
  have := h.exit_lt
  omega

mutual

/-- The groups in a pattern have their places among the transitions of its branches, which do not end
inside of them. -/
lemma fits : ∀ (p : Pattern) {n g source : Nat} {x : Site},
    source < n → x ∈ p.sites n g source →
    x.Fits (p.branchEdges n source) n p.branchStates ∧ ∀ s ∈ p.stops n source, ¬ x.Inside s
  | .single branch, n, g, source, x, hs, hx => by
      obtain ⟨hfits, hstop⟩ := branch.fits hs hx
      exact ⟨hfits, fun s hs => List.mem_singleton.1 hs ▸ hstop⟩
  | .alternative branches branch, n, g, source, x, hs, hx => by
      rw [stops, branchEdges, branchStates]
      rcases List.mem_append.1 hx with hx | hx
      · obtain ⟨hfits, hstops⟩ := branches.fits hs hx
        have hlater : ∀ s, Reserved source (n + branches.branchStates) branch.states s →
            ¬ x.Inside s := fun s h => hfits.not_inside (by rw [Reserved] at h; omega)
        refine ⟨hfits.mono le_rfl (by omega) (fun e he => List.mem_append_left _ he) fun e he => ?_,
          fun s hs => ?_⟩
        · exact (List.mem_append.1 he).imp_right fun he => hlater _ (branch.target_reserved he)
        · rcases List.mem_append.1 hs with hs | hs
          · exact hstops s hs
          · obtain rfl := List.mem_singleton.1 hs
            exact hlater _ (branch.stop_reserved _ _)
      · obtain ⟨hfits, hstop⟩ := branch.fits (by omega) hx
        have hearlier : ∀ s, Reserved source n branches.branchStates s → ¬ x.Inside s :=
          fun s h => hfits.not_inside (by rw [Reserved] at h; omega)
        refine ⟨hfits.mono (by omega) (by omega) (fun e he => List.mem_append_right _ he)
          fun e he => ?_, fun s hs => ?_⟩
        · exact (List.mem_append.1 he).symm.imp_right fun he =>
            hearlier _ (branches.target_reserved he)
        · rcases List.mem_append.1 hs with hs | hs
          · exact hearlier s (branches.stops_reserved n source s hs)
          · exact List.mem_singleton.1 hs ▸ hstop

/-- The groups in a branch have their places among its transitions, and it does not end inside of
them. -/
lemma Sequence.fits : ∀ (y : Sequence) {n g source : Nat} {x : Site}, source < n →
    x ∈ y.sites n g source →
      x.Fits (y.edges n source) n y.states ∧ ¬ x.Inside (y.stop n source)
  | .append items atom q, n, g, source, x, hs, hx => by
      have hstart := items.stop_reserved n source
      have hstop := atom.stop_range (n + items.states)
      have hq := q.stop_eq_or (n + items.states + atom.states) (atom.stop (n + items.states))
      rw [Reserved] at hstart
      rw [Sequence.edges, Sequence.states, Sequence.stop]
      rcases List.mem_append.1 hx with hx | hx
      · obtain ⟨hfits, hnot⟩ := items.fits hs hx
        have hlater : ∀ s, n + items.states ≤ s → ¬ x.Inside s := fun s h =>
          hfits.not_inside (Or.inr h)
        refine ⟨hfits.mono le_rfl (by omega)
          (fun e he => List.mem_append_left _ (List.mem_append_left _ he)) fun e he => ?_,
          hlater _ (by omega)⟩
        rcases List.mem_append.1 he with he | he
        · exact (List.mem_append.1 he).imp_right fun he => hlater _ (atom.target_range he).1
        · rcases q.target_range he with heq | heq | hle
          · exact Or.inr (heq ▸ hnot)
          · exact Or.inr (hlater _ (by omega))
          · exact Or.inr (hlater _ (by omega))
      · obtain ⟨hfits, hnot⟩ := atom.fits (by omega) hx
        have hout : ∀ s, s < n + items.states ∨ n + items.states + atom.states ≤ s →
            ¬ x.Inside s := fun s h => hfits.not_inside h
        refine ⟨hfits.mono (by omega) (by omega)
          (fun e he => List.mem_append_left _ (List.mem_append_right _ he)) fun e he => ?_, ?_⟩
        · rcases List.mem_append.1 he with he | he
          · refine (List.mem_append.1 he).symm.imp_right fun he => hout _ ?_
            have hitems := items.target_reserved he
            rw [Reserved] at hitems
            omega
          · rcases q.target_range he with heq | heq | hle
            · exact Or.inr (hout _ (by omega))
            · exact Or.inr (heq ▸ hnot)
            · exact Or.inr (hout _ (by omega))
        · rcases hq with heq | heq
          · rwa [heq]
          · exact hout _ (by omega)

/-- The groups in an atom have their places among its transitions, and it does not end inside of them.
-/
lemma Atom.fits : ∀ (y : Atom) {n g source : Nat} {x : Site}, source < n →
    x ∈ y.sites n g source → x.Fits (y.edges n source) n y.states ∧ ¬ x.Inside (y.stop n)
  | .group header body, n, g, source, x, hs, hx => by
      have hsize : body.states = body.branchStates + body.joinStates := rfl
      rw [Atom.edges, Atom.states, Atom.stop]
      rcases List.mem_append.1 hx with hx | hx
      · obtain ⟨hfits, -⟩ := body.fits (Nat.lt_succ_self n) hx
        have hout : ∀ s, s < n + 1 ∨ n + 1 + body.branchStates ≤ s → ¬ x.Inside s := fun s h =>
          hfits.not_inside h
        refine ⟨hfits.mono (by omega) (by omega) (fun e he => List.mem_append_left _
          (.tail _ (List.mem_append_left _ he))) fun e he => ?_, hout _ (by omega)⟩
        rcases List.mem_append.1 he with he | he
        · rcases List.mem_cons.1 he with rfl | he
          · exact Or.inr (hout _ (Or.inl (Nat.lt_succ_self n)))
          · refine (List.mem_append.1 he).imp_right fun he => hout _ ?_
            have hjoin := target_of_mem_joinEdges he
            omega
        · obtain rfl := List.mem_singleton.1 he
          exact Or.inr (hout _ (Or.inr (by show _ ≤ n + 1 + body.states; omega)))
      · -- the group itself: only the transition behind its body is not its own
        obtain rfl := List.mem_singleton.1 hx
        have hexit : ¬ Site.Inside ⟨header.name (g + 1), source, n, body⟩ (n + 1 + body.states) :=
          fun h => lt_irrefl _ h.2
        refine ⟨⟨hs, le_rfl, ?_, fun e he => List.mem_append_left _ he, fun e he hin => ?_⟩,
          hexit⟩
        · show n + 1 + body.states < _
          omega
        · rcases List.mem_append.1 he with he | he
          · exact he
          · obtain rfl := List.mem_singleton.1 he
            exact absurd hin hexit

end

/-- The groups in a whole pattern have their places in its automaton. -/
lemma fits_of_isLaidOutAs {m : PatternNfa} {p : Pattern} (hm : m.IsLaidOutAs p) {x : Site}
    (hx : x ∈ p.sites 2 0 1) :
    x.source < x.entry ∧ (∀ e ∈ x.edges, e.target ∈ m.graph.targets e.source e.label) ∧
      ∀ s l t, t ∈ m.graph.targets s l → x.Inside t → ⟨s, l, t⟩ ∈ x.edges := by
  obtain ⟨hfits, -⟩ := p.fits (Nat.lt_succ_self 1) hx
  have hwhole : x.Fits (⟨0, none, 1⟩ :: p.edges 2 1) 2 p.states := by
    refine hfits.mono le_rfl (Nat.add_le_add_left (Nat.le_add_right _ _) 2)
      (fun e he => .tail _ (List.mem_append_left _ he)) fun e he => ?_
    rcases List.mem_cons.1 he with rfl | he
    · exact Or.inr (hfits.not_inside (Or.inl (Nat.lt_succ_self 1)))
    · refine (List.mem_append.1 he).imp_right fun he => hfits.not_inside ?_
      have hjoin := target_of_mem_joinEdges he
      omega
  exact ⟨hwhole.source_lt, fun e he => (hm.mem_targets _ _ _).2 (hwhole.mem e he),
    fun s l t ht hin => hwhole.entered _ ((hm.mem_targets s l t).1 ht) hin⟩

end Pattern

/-! ### Runs through a group -/

/-- The words that are read on the way to a state. -/
def Nfa.wordsTo (m : PatternNfa) (s : Nat) : Language Char :=
  {w | m.Reaches w s}

/-- A transition leads on from the words that are read on the way to its start. -/
lemma Nfa.wordsTo_mul_symbol_le {m : PatternNfa} {s t : Nat} {l : Option Char}
    (ht : t ∈ m.graph.targets s l) : m.wordsTo s * Assembly.symbol l ≤ m.wordsTo t := by
  intro w hw
  obtain ⟨u, hu, y, hy, rfl⟩ := Language.mem_mul.1 hw
  cases l with
  | none =>
      obtain rfl := (Language.mem_one y).1 hy
      exact Nfa.Run.append hu (.silent ht (.nil t))
  | some c =>
      obtain rfl := Set.mem_singleton_iff.1 hy
      exact Nfa.Run.append hu (.read ht (.nil t))

namespace Pattern

open Assembly

/-- There are assemblies with any number of states and no transitions. -/
lemma exists_assembly (n : Nat) :
    ∃ a : Assembly, a.Valid ∧ a.count = n + 1 ∧ ∀ s l t, ¬ a.HasEdge s l t := by
  induction n with
  | zero => exact ⟨start, valid_start, count_start, fun _ _ _ => not_hasEdge_start⟩
  | succ n ih =>
      obtain ⟨a, ha, hcount, hnone⟩ := ih
      exact ⟨a.withState, ha.withState, by rw [ha.count_withState, hcount],
        fun s l t he => hnone s l t (hasEdge_withState.1 he)⟩

/-- The transitions of a group are those of a passage, on which the words of its body are read, from
any state before to the states of the group. -/
lemma Site.exists_passage {x : Site} (hp : x.body.WellFormed) (hs : x.source < x.entry) :
    ∃ a b, Passage a b x.source x.stop x.body.threaded ∧ a.count = x.entry ∧
      (∀ s l t, ¬ a.HasEdge s l t) ∧ (∀ s l t, b.HasEdge s l t ↔ ⟨s, l, t⟩ ∈ x.edges) ∧
      ∀ s l t, b.HasEdge s l t → s < x.entry ∨ x.Inside s := by
  obtain ⟨a, ha, hcount, hnone⟩ := exists_assembly (x.entry - 1)
  have hentry : a.count = x.entry := by omega
  have hs' : x.source < a.count := by omega
  obtain ⟨hv, hinner⟩ := ha.entry hs'
  obtain ⟨stops, b, hstops⟩ := exists_makes (x.body.assembleBranches a.count)
    (a.withState.withEdge x.source none a.count)
  obtain ⟨r, c, hj⟩ := exists_makes (join stops) b
  have hbundle := x.body.bundle_assemble hp hv hinner hstops
  obtain ⟨hbranches, rfl⟩ := x.body.adds_assemble hp hv hinner hstops
  obtain ⟨hwhole, rfl, -⟩ := hbranches.join hbundle hv hj
  have hpassage := (hbundle.join hv hj).passage ha hs'
  have hin := adds_step ha hs'
  have hadds := hin.trans hwhole
  rw [hin.count_eq, hentry] at hpassage hadds
  refine ⟨a, c, hpassage, hentry, hnone, fun s l t => ?_, fun s l t he => ?_⟩
  · rw [hadds.hasEdge_iff, or_iff_right (hnone s l t)]
    rfl
  · have hlt := (hadds.grows.valid ha).source_lt he
    rw [hadds.count_eq, hentry] at hlt
    rw [Inside]
    omega

/-- The body of a group ends inside of the group. -/
lemma Site.inside_stop (x : Site) : x.Inside x.stop := by
  have hstop := x.body.stop_reserved (x.entry + 1) x.entry
  rw [Reserved] at hstop
  rw [Inside, stop]
  omega

/-- What is read on the way to a state, but inside of a group only what its labels allow for. -/
def Site.restrict (x : Site) (m : PatternNfa) (L : Nat → Language Char) (s : Nat) : Language Char :=
  {w | m.Reaches w s ∧ (x.Inside s → w ∈ L s)}

/-- If the labels before a group are what is read there, no transition breaks the restriction to the
labels inside of the group. -/
lemma Site.restrict_mul_symbol_le {m : PatternNfa} {x : Site} {b : Assembly} {L : Nat → Language Char}
    {s t : Nat} {l : Option Char} (hL : Labels b L) (hold : ∀ s < x.entry, L s = m.wordsTo s)
    (hedges : ∀ s l t, b.HasEdge s l t ↔ ⟨s, l, t⟩ ∈ x.edges)
    (hsources : ∀ s l t, b.HasEdge s l t → s < x.entry ∨ x.Inside s)
    (hentered : ∀ s l t, t ∈ m.graph.targets s l → x.Inside t → ⟨s, l, t⟩ ∈ x.edges)
    (ht : t ∈ m.graph.targets s l) : x.restrict m L s * symbol l ≤ x.restrict m L t := by
  intro w hw
  obtain ⟨u, ⟨hu, hin⟩, y, hy, rfl⟩ := Language.mem_mul.1 hw
  refine ⟨Nfa.wordsTo_mul_symbol_le ht (Language.append_mem_mul hu hy), fun htin => ?_⟩
  have he := (hedges s l t).2 (hentered s l t ht htin)
  refine hL s l t he (Language.append_mem_mul ?_ hy)
  rcases hsources s l t he with hlt | hsin
  · rw [hold s hlt]
    exact hu
  · exact hin hsin

/-- In the automaton of a pattern a group can end exactly where its body has been read from where the
group can start. -/
theorem Site.reaches_stop_iff {m : PatternNfa} {p : Pattern} {x : Site} (hp : p.WellFormed)
    (hm : m.IsLaidOutAs p) (hx : x ∈ p.sites 2 0 1) (w : List Char) :
    m.Reaches w x.stop ↔ ∃ u v, w = u ++ v ∧ m.Reaches u x.source ∧ v ∈ x.body.threaded := by
  obtain ⟨hs, hmem, hentered⟩ := fits_of_isLaidOutAs hm hx
  obtain ⟨a, b, hpassage, hcount, hnone, hedges, hsources⟩ :=
    exists_passage (p.wellFormed_of_mem_sites hp hx) hs
  constructor
  · intro hr
    -- before the group the labels are what is read, inside of it they go on from its source
    obtain ⟨L, hL, hstop⟩ := hpassage.labels m.wordsTo fun s l t he => absurd he (hnone s l t)
    have hold : ∀ s < x.entry, L s = m.wordsTo s := fun s h => hL.agree s (by omega)
    have hinitial : [] ∈ x.restrict m L m.initial := by
      refine ⟨.nil _, fun hin => ?_⟩
      have hle := hin.1
      rw [hm.initial_eq] at hle
      omega
    have hreads := append_mem_of_run
      (fun s l t ht => restrict_mul_symbol_le hL.labels hold hedges hsources hentered ht) hr hinitial
    obtain ⟨u, hu, v, hv, rfl⟩ := Language.mem_mul.1 (hstop (hreads.2 x.inside_stop))
    exact ⟨u, v, rfl, hu, hv⟩
  · rintro ⟨u, v, rfl, hu, hv⟩
    exact Nfa.Run.append hu (hpassage.reads m (fun s l t he => hmem _ ((hedges s l t).1 he)) v hv)

end Pattern

end CaptureAutomata
