/-
Assembling a pattern makes what is written down for it:

* `Assembly.Adds`: from one assembly to another some states, groups, transitions and tags were added;
  `Adds.trans` and one lemma for each step say what computations add;
* `Pattern.adds_assemble`, `Pattern.Sequence.adds_assemble`, `Pattern.Atom.adds_assemble`: a part of a
  pattern adds what is written down for it;
* `Pattern.isLaidOutAs_of_toNfa`: so the automaton of a pattern is the one that is written down;
* `Pattern.compiles_iff_wellFormed`: exactly the texts in the grammar have an automaton, each the one
  that is written down for its tree.
-/
import CaptureAutomata.Pattern.Layout
import CaptureAutomata.Proofs.Pattern.Acceptance
import CaptureAutomata.Proofs.Pattern.Reading

namespace CaptureAutomata

/-- A pattern has a branch, and so a stop. -/
lemma Pattern.exists_stops_eq_cons (p : Pattern) (n source : Nat) :
    ∃ e stops, p.stops n source = e :: stops := by
  cases p with
  | single branch => exact ⟨_, _, rfl⟩
  | alternative branches branch =>
      obtain ⟨e, stops, h⟩ := branches.exists_stops_eq_cons n source
      exact ⟨e, _, by rw [Pattern.stops, h]; rfl⟩

/-- The transitions on some symbols depend on these symbols only. -/
lemma mem_fan_congr {s t : Nat} {cs ds : List Char} (h : ∀ c, c ∈ cs ↔ c ∈ ds)
    {e : Edge Nat (Option Char)} : e ∈ fan s t cs ↔ e ∈ fan s t ds := by
  simp only [fan, List.mem_map, h]

namespace Assembly

/-! ### Additions -/

/-- From `a` to `b` there were added `k` states, `g` groups, some transitions and some tags. -/
structure Adds (a b : Assembly) (k g : Nat) (edges : List (Edge Nat (Option Char)))
    (tags : List (Tag String Nat)) : Prop where
  /-- The assembly has grown. -/
  grows : a.Grows b
  /-- So many states were added. -/
  count_eq : b.count = a.count + k
  /-- So many groups were opened. -/
  groups_eq : b.groups = a.groups + g
  /-- These transitions were added. -/
  hasEdge_iff : ∀ s l t, b.HasEdge s l t ↔ a.HasEdge s l t ∨ ⟨s, l, t⟩ ∈ edges
  /-- These tags were added. -/
  tags_eq : b.builder.tags = a.builder.tags ++ tags

variable {a b c : Assembly} {k k' g g' s t e : Nat} {l : Option Char}
  {es es' : List (Edge Nat (Option Char))} {ts ts' : List (Tag String Nat)}

lemma adds_refl : Adds a a 0 0 [] [] :=
  ⟨.refl, rfl, rfl, by simp, by simp⟩

/-- Additions follow each other. -/
lemma Adds.trans (h : Adds a b k g es ts) (h' : Adds b c k' g' es' ts') :
    Adds a c (k + k') (g + g') (es ++ es') (ts ++ ts') where
  grows := h.grows.trans h'.grows
  count_eq := by rw [h'.count_eq, h.count_eq, Nat.add_assoc]
  groups_eq := by rw [h'.groups_eq, h.groups_eq, Nat.add_assoc]
  hasEdge_iff s l t := by rw [h'.hasEdge_iff, h.hasEdge_iff, List.mem_append, or_assoc]
  tags_eq := by rw [h'.tags_eq, h.tags_eq, List.append_assoc]

/-- The order and the repetitions of the transitions do not matter. -/
lemma Adds.congr (h : Adds a b k g es ts) (hes : ∀ e, e ∈ es ↔ e ∈ es') : Adds a b k g es' ts :=
  ⟨h.grows, h.count_eq, h.groups_eq, fun s l t => by rw [h.hasEdge_iff, hes], h.tags_eq⟩

lemma adds_withState (ha : a.Valid) : Adds a a.withState 1 0 [] [] :=
  ⟨.state .refl, ha.count_withState, rfl, by simp, (List.append_nil _).symm⟩

/-- A transition between states is added. -/
lemma adds_withEdge (ha : a.Valid) (hs : s < a.count) (ht : a.Inner t) :
    Adds a (a.withEdge s l t) 0 0 [⟨s, l, t⟩] [] where
  grows := .edge .refl hs ht
  count_eq := ha.count_withEdge hs ht.2
  groups_eq := rfl
  hasEdge_iff u m v := by
    rw [hasEdge_withEdge, List.mem_singleton, Edge.mk.injEq]
    exact or_comm
  tags_eq := (List.append_nil _).symm

/-- A transition to a new state is added. -/
lemma adds_step (ha : a.Valid) (hs : s < a.count) :
    Adds a (a.withState.withEdge s none a.count) 1 0 [⟨s, none, a.count⟩] [] := by
  have hnew := adds_withState ha
  exact hnew.trans (adds_withEdge ha.withState (hs.trans_le (hnew.grows.count_le ha))
    ha.inner_withState)

lemma adds_withGroup : Adds a a.withGroup 0 1 [] [] :=
  ⟨.group .refl, rfl, rfl, fun _ _ _ => by simp [HasEdge, withGroup], (List.append_nil _).symm⟩

lemma adds_withTag {name : String} (hn : name ≠ mainGroup) (hs : s < a.count) (ht : t < a.count) :
    Adds a (a.withTag name s t) 0 0 [] [⟨name, s, t⟩] :=
  ⟨.tag .refl hn hs ht, rfl, rfl, fun _ _ _ => by simp [HasEdge, withTag, Nfa.Builder.tag], rfl⟩

/-- Transitions are added for the members of a list. -/
lemma adds_forM_connect {α : Type} {source target : α → Nat} {label : α → Option Char} {xs : List α}
    {u : Unit} (ha : a.Valid) (hxs : ∀ x ∈ xs, source x < a.count ∧ a.Inner (target x))
    (h : Makes (xs.forM fun x => connect (source x) (label x) (target x)) a u b) :
    Adds a b 0 0 (xs.map fun x => ⟨source x, label x, target x⟩) [] := by
  induction xs generalizing a with
  | nil =>
      obtain ⟨-, rfl⟩ := makes_pure.1 h
      exact adds_refl
  | cons x xs ih =>
      rw [List.forM_eq_forM, List.forM_cons, makes_bind] at h
      obtain ⟨_, c, hx, h⟩ := h
      obtain rfl := makes_connect.1 hx
      obtain ⟨hsource, htarget⟩ := hxs x (.head _)
      have hfirst := adds_withEdge (l := label x) ha hsource htarget
      refine hfirst.trans (ih (hfirst.grows.valid ha) (fun y hy => ?_) h)
      obtain ⟨hsource', htarget'⟩ := hxs y (.tail _ hy)
      exact ⟨hsource'.trans_le (hfirst.grows.count_le ha), htarget'.of_grows hfirst.grows ha⟩

/-- A literal adds its transitions. -/
lemma adds_literal {x : Literal} {u : Unit} (ha : a.Valid) (hs : a.Inner s) (ht : a.Inner t)
    (h : Makes (x.assemble s t) a u b) :
    Adds a b x.meaning.states 0 (x.meaning.edges a.count s t) [] := by
  cases hx : x.meaning with
  | single c =>
      rw [Literal.assemble, hx] at h
      obtain rfl := makes_connect.1 h
      exact adds_withEdge ha hs.2 ht
  | oneOf cs =>
      rw [Literal.assemble, hx] at h
      exact adds_forM_connect ha (fun _ _ => ⟨hs.2, ht⟩) h
  | lineBreak =>
      obtain ⟨c, hc, rfl⟩ := makes_lineBreak hx h
      have hfan := adds_forM_connect ha (fun _ _ => ⟨hs.2, ht⟩) hc
      have hv := hfan.grows.valid ha
      have hnew := adds_withState hv
      have hv' := hnew.grows.valid hv
      have hin := hfan.grows.trans hnew.grows
      have hinto := adds_withEdge (l := some '\r') hv' (hs.of_grows hin ha).2 hv.inner_withState
      have hout := adds_withEdge (l := some '\n') (hinto.grows.valid hv')
        (hv.inner_withState.of_grows hinto.grows hv').2
        ((ht.of_grows hin ha).of_grows hinto.grows hv')
      have hcount : c.count = a.count := hfan.count_eq
      rw [← hcount]
      exact ((hfan.trans hnew).trans hinto).trans hout

/-- The members of a class add their transitions. -/
lemma adds_members {members : List Member} {u : Unit} (ha : a.Valid) (hs : a.Inner s)
    (ht : a.Inner t) (h : Makes (members.forM fun x => x.assemble s t) a u b) :
    Adds a b (members.map Member.states).sum 0 (Member.edgesOf a.count s t members) [] := by
  induction members generalizing a with
  | nil =>
      obtain ⟨-, rfl⟩ := makes_pure.1 h
      exact adds_refl
  | cons m members ih =>
      rw [List.forM_eq_forM, List.forM_cons, makes_bind] at h
      obtain ⟨_, c, hm, h⟩ := h
      have hfirst : Adds a c m.states 0 (m.edges a.count s t) [] := by
        cases m with
        | literal x => exact adds_literal ha hs ht hm
        | range first last =>
            have hall := adds_forM_connect ha (fun _ _ => ⟨hs.2, ht⟩) hm
            exact hall.congr fun e => mem_fan_congr fun c => mem_rangeEnds_append
      have hrest := ih (hfirst.grows.valid ha) (hs.of_grows hfirst.grows ha)
        (ht.of_grows hfirst.grows ha) h
      rw [hfirst.count_eq] at hrest
      exact hfirst.trans hrest

/-- A quantifier adds its transitions, and tells where the item ends. -/
lemma adds_quantifier {q : Quantifier} {r : Nat} (ha : a.Valid) (hs : a.Inner s) (he : a.Inner e)
    (h : Makes (q.assemble s e) a r b) :
    Adds a b q.states 0 (q.edges a.count s e) [] ∧ r = q.stop a.count e := by
  cases q with
  | once =>
      obtain ⟨rfl, rfl⟩ := makes_pure.1 h
      exact ⟨adds_refl, rfl⟩
  | optional =>
      obtain ⟨_, d, h₁, h⟩ := makes_bind.1 h
      obtain rfl := makes_connect.1 h₁
      obtain ⟨rfl, rfl⟩ := makes_pure.1 h
      exact ⟨adds_withEdge ha hs.2 he, rfl⟩
  | oneOrMore =>
      obtain ⟨_, d, h₁, h⟩ := makes_bind.1 h
      obtain rfl := makes_connect.1 h₁
      obtain ⟨rfl, rfl⟩ := makes_pure.1 h
      exact ⟨adds_withEdge ha he.2 hs, rfl⟩
  | zeroOrMore =>
      obtain ⟨rfl, rfl⟩ := makes_zeroOrMore h
      have hnew := adds_withState ha
      have hv := hnew.grows.valid ha
      have hs' := hs.of_grows hnew.grows ha
      have he' := he.of_grows hnew.grows ha
      have hback := adds_withEdge (l := none) hv he'.2 hs'
      have hv' := hback.grows.valid hv
      have hr := ha.inner_withState.of_grows hback.grows hv
      have hpass := adds_withEdge (l := none) hv' (hs'.of_grows hback.grows hv).2 hr
      have hleave := adds_withEdge (l := none) (hpass.grows.valid hv')
        ((he'.of_grows hback.grows hv).of_grows hpass.grows hv').2 (hr.of_grows hpass.grows hv')
      exact ⟨((hnew.trans hback).trans hpass).trans hleave, rfl⟩

/-- Several branches are led to a new state. -/
lemma join_of_two {e e' : Nat} {stops : List Nat} :
    join (e :: stops ++ [e']) = (do
      let stop ← newState
      (e :: stops ++ [e']).forM fun s => connect s none stop
      return stop) := by
  cases stops with
  | nil => rfl
  | cons => rfl

/-- Branches that are led together add the transitions for it. -/
lemma adds_join {p : Pattern} {n source r : Nat} (hb : b.Valid)
    (hstops : ∀ e ∈ p.stops n source, b.Inner e) (hcount : b.count = n + p.branchStates)
    (h : Makes (join (p.stops n source)) b r c) :
    Adds b c p.joinStates 0 (p.joinEdges n source) [] ∧ r = p.stop n source := by
  cases p with
  | single branch =>
      obtain ⟨rfl, rfl⟩ := makes_pure.1 h
      exact ⟨adds_refl, rfl⟩
  | alternative branches branch =>
      obtain ⟨e, stops, hfirst⟩ := branches.exists_stops_eq_cons n source
      have htwo : (Pattern.alternative branches branch).stops n source =
          e :: stops ++ [branch.stop (n + branches.branchStates) source] := by
        rw [Pattern.stops, hfirst]
      rw [htwo, join_of_two, ← htwo] at h
      obtain ⟨_, d, h₁, h⟩ := makes_bind.1 h
      obtain ⟨rfl, rfl⟩ := makes_newState.1 h₁
      obtain ⟨_, d, h₂, h⟩ := makes_bind.1 h
      obtain ⟨rfl, rfl⟩ := makes_pure.1 h
      have hnew := adds_withState hb
      have hedges := adds_forM_connect hb.withState (fun e he =>
        ⟨((hstops e he).of_grows hnew.grows hb).2, hb.inner_withState⟩) h₂
      have hr : b.count = (Pattern.alternative branches branch).stop n source := hcount
      refine ⟨?_, hr⟩
      rw [Pattern.joinEdges, ← hr]
      exact hnew.trans hedges

/-- With the transitions that lead its branches together, a pattern has all of its own, and ends where it
is written down that it does. -/
lemma Adds.join {p : Pattern} {T W : Language Char} {r : Nat}
    (h : Adds a b p.branchStates p.groups (p.branchEdges a.count s) ts)
    (hways : Bundle a b s (p.stops a.count s) T W) (ha : a.Valid)
    (hj : Makes (Assembly.join (p.stops a.count s)) b r c) :
    Adds a c p.states p.groups (p.edges a.count s) ts ∧ r = p.stop a.count s ∧ c.Inner r := by
  obtain ⟨hjoin, hr⟩ := adds_join (h.grows.valid ha) hways.inner h.count_eq hj
  have hall := h.trans hjoin
  rw [List.append_nil] at hall
  exact ⟨hall, hr, (hways.join ha hj).inner r (.head _)⟩

end Assembly

/-! ### Parts -/

namespace Pattern

open Assembly

mutual

/-- The branches of a pattern add what is written down for them. -/
theorem adds_assemble : ∀ (p : Pattern) {a b : Assembly} {s : Nat} {ends : List Nat},
    p.WellFormed → a.Valid → a.Inner s → Makes (p.assembleBranches s) a ends b →
      Adds a b p.branchStates p.groups (p.branchEdges a.count s) (p.tags a.count a.groups s) ∧
        ends = p.stops a.count s
  | .single branch, a, b, s, ends, hp, ha, hs, h => by
      obtain ⟨e, c, he, h⟩ := makes_bind.1 h
      obtain ⟨rfl, rfl⟩ := makes_pure.1 h
      obtain ⟨hadds, rfl⟩ := branch.adds_assemble hp ha hs he
      exact ⟨hadds, rfl⟩
  | .alternative branches branch, a, b, s, ends, hp, ha, hs, h => by
      obtain ⟨first, c, hfirst, h⟩ := makes_bind.1 h
      obtain ⟨e, d, he, h⟩ := makes_bind.1 h
      obtain ⟨rfl, rfl⟩ := makes_pure.1 h
      obtain ⟨hbranches, rfl⟩ := branches.adds_assemble hp.1 ha hs hfirst
      obtain ⟨hbranch, rfl⟩ := branch.adds_assemble hp.2 (hbranches.grows.valid ha)
        (hs.of_grows hbranches.grows ha) he
      rw [hbranches.count_eq] at hbranch ⊢
      rw [hbranches.groups_eq] at hbranch
      exact ⟨hbranches.trans hbranch, rfl⟩

/-- A branch adds what is written down for it. -/
lemma Sequence.adds_assemble : ∀ (x : Sequence) {a b : Assembly} {s e : Nat},
    x.WellFormed → a.Valid → a.Inner s → Makes (x.assemble s) a e b →
      Adds a b x.states x.groups (x.edges a.count s) (x.tags a.count a.groups s) ∧
        e = x.stop a.count s
  | .empty, a, b, s, e, _, _, _, h => by
      obtain ⟨rfl, rfl⟩ := makes_pure.1 h
      exact ⟨adds_refl, rfl⟩
  | .append items atom q, a, b, s, e, hp, ha, hs, h => by
      obtain ⟨j, c, hj, h⟩ := makes_bind.1 h
      obtain ⟨k, d, hk, h⟩ := makes_bind.1 h
      have hstart := (items.chain_assemble hp.1 ha hs hj).inner
      obtain ⟨hitems, rfl⟩ := items.adds_assemble hp.1 ha hs hj
      have hc := hitems.grows.valid ha
      have hstop := (atom.fragment_assemble hp.2 hc hstart hk).inner
      obtain ⟨hatom, rfl⟩ := atom.adds_assemble hp.2 hc hstart hk
      obtain ⟨hq, rfl⟩ := adds_quantifier (hatom.grows.valid hc) (hstart.of_grows hatom.grows hc)
        hstop h
      rw [hatom.count_eq, hitems.count_eq] at hq ⊢
      rw [hitems.count_eq, hitems.groups_eq] at hatom
      have hall := (hitems.trans hatom).trans hq
      rw [List.append_nil] at hall
      exact ⟨hall, rfl⟩

/-- An atom adds what is written down for it. -/
lemma Atom.adds_assemble : ∀ (x : Atom) {a b : Assembly} {s e : Nat},
    x.WellFormed → a.Valid → a.Inner s → Makes (x.assemble s) a e b →
      Adds a b x.states x.groups (x.edges a.count s) (x.tags a.count a.groups s) ∧
        e = x.stop a.count
  | .literal l, a, b, s, e, _, ha, hs, h => by
      obtain ⟨_, c, h₁, h⟩ := makes_bind.1 h
      obtain ⟨rfl, rfl⟩ := makes_newState.1 h₁
      obtain ⟨_, c, h₂, h⟩ := makes_bind.1 h
      obtain ⟨rfl, rfl⟩ := makes_pure.1 h
      have hnew := adds_withState ha
      have hlit := adds_literal ha.withState (hs.of_grows hnew.grows ha) ha.inner_withState h₂
      rw [hnew.count_eq] at hlit
      exact ⟨hnew.trans hlit, rfl⟩
  | .charClass members, a, b, s, e, _, ha, hs, h => by
      obtain ⟨_, c, h₁, h⟩ := makes_bind.1 h
      obtain ⟨rfl, rfl⟩ := makes_newState.1 h₁
      obtain ⟨_, c, h₂, h⟩ := makes_bind.1 h
      obtain ⟨rfl, rfl⟩ := makes_pure.1 h
      have hnew := adds_withState ha
      have hmembers := adds_members ha.withState (hs.of_grows hnew.grows ha) ha.inner_withState h₂
      rw [hnew.count_eq] at hmembers
      exact ⟨hnew.trans hmembers, rfl⟩
  | .group header body, a, b, s, e, hp, ha, hs, h => by
      obtain ⟨stops, c, j, d, hstops, hj, rfl, rfl⟩ := Atom.makes_group h
      have hgroup : Adds a a.withGroup 0 1 [] [] := adds_withGroup
      have hg := hgroup.grows.valid ha
      obtain ⟨hv, hinner⟩ := hg.entry hs.2
      -- the entry, the body and the state behind it
      have hin := hgroup.trans (adds_step hg hs.2)
      have hbundle := body.bundle_assemble hp.2 hv hinner hstops
      obtain ⟨hbranches, rfl⟩ := body.adds_assemble hp.2 hv hinner hstops
      obtain ⟨hbody, rfl, hjstop⟩ := hbranches.join hbundle hv hj
      have hd := hbody.grows.valid hv
      have hout := adds_step hd hjstop.2
      have hbefore := (hin.trans hbody).trans hout
      have htag := adds_withTag (hp.1.name_ne_mainGroup (n := a.groups + 1) (Nat.succ_pos _))
        (hs.of_grows hbefore.grows ha).2 (hjstop.of_grows hout.grows hd).2
      have hcount : d.count = a.count + 1 + body.states := by
        rw [hbody.count_eq, hin.count_eq]
      have hall := hbefore.trans htag
      simp only [hcount, hin.count_eq, hin.groups_eq, List.append_nil] at hall ⊢
      exact ⟨hall, rfl⟩

end

/-! ### Whole patterns -/

/-- To the initial state, a whole pattern adds what is written down for it, and then the main tag. -/
lemma exists_adds_assembleMain {p : Pattern} (hp : p.WellFormed) :
    ∃ b, (p.assembleMain.run start).2 = b.withTag mainGroup 0 (p.stop 2 1) ∧
      b.Inner (p.stop 2 1) ∧
      Adds start b (1 + p.states) p.groups (⟨0, none, 1⟩ :: p.edges 2 1) (p.tags 2 0 1) := by
  obtain ⟨stops, c, stop, b, hstops, hj, ha⟩ := p.exists_makes_main
  obtain ⟨hv, hentry⟩ := valid_start.entry valid_start.pos
  have hin := adds_step valid_start valid_start.pos
  have hbundle := p.bundle_assemble hp hv hentry hstops
  obtain ⟨hbranches, rfl⟩ := p.adds_assemble hp hv hentry hstops
  obtain ⟨hwhole, rfl, hstop⟩ := hbranches.join hbundle hv hj
  have hcount : (start.withState.withEdge 0 none start.count).count = 2 := by
    rw [hin.count_eq, count_start]
  have hall := hin.trans hwhole
  rw [hcount, hin.groups_eq, count_start, Nat.zero_add] at hall
  rw [hcount, count_start] at ha hstop
  exact ⟨b, ha, hstop, hall⟩

/-- A text that has an automaton was read as a tree, which was built. -/
lemma exists_of_ofPattern {text : String} {m : PatternNfa} (h : Nfa.ofPattern text = .ok m) :
    ∃ p, Pattern.parse text = .ok p ∧ p.toNfa = .ok m := by
  obtain ⟨p, hp, hbuild⟩ := bind_eq_ok.1 h
  exact ⟨p, mapError_eq_ok.1 hp, mapError_eq_ok.1 hbuild⟩

/-- A text that can be read as a tree has an automaton. -/
lemma exists_nfa_of_parse {text : String} (h : ∃ p, Pattern.parse text = .ok p) :
    ∃ m, Nfa.ofPattern text = .ok m := by
  obtain ⟨p, hp⟩ := h
  obtain ⟨m, -, hm, -⟩ := exists_ofPattern hp
  exact ⟨m, hm⟩

/-- The automaton of a pattern is the one that is written down for its tree. -/
lemma isLaidOutAs_of_toNfa {p : Pattern} {m : PatternNfa} (hp : p.WellFormed)
    (h : p.toNfa = .ok m) : m.IsLaidOutAs p := by
  obtain ⟨b, hb, hstop, hadds⟩ := exists_adds_assembleMain hp
  have hv := hadds.grows.valid valid_start
  rw [toNfa, hb] at h
  obtain ⟨m', hm', hinitial, hadj, htags⟩ := (hv.withTag hv.pos hstop.2).exists_build
  obtain rfl : m' = m := Except.ok.inj (hm'.symm.trans h)
  refine ⟨hinitial, ?_, fun s l t => ?_, ?_⟩
  · refine List.Pairwise.eq_of_mem_iff (r := (· < ·)) ?_ List.pairwise_lt_range fun s => ?_
    · refine Std.ExtTreeMap.ordered_keys.imp fun hlt => ?_
      exact Nat.compare_eq_lt.1 hlt
    · rw [List.mem_range, Nfa.states, NondeterministicGraph.vertices, Std.ExtTreeMap.mem_keys, hadj]
      have hcount : b.count = 2 + p.states := by
        rw [hadds.count_eq, count_start]
        omega
      exact (hv.mem_iff s).trans (by rw [hcount])
  · rw [NondeterministicGraph.targets, hadj]
    refine (hadds.hasEdge_iff s l t).trans (or_iff_right not_hasEdge_start)
  · rw [htags]
    show b.builder.tags ++ _ = _
    rw [hadds.tags_eq]
    rfl

/-- A text with at least one character has an automaton exactly if it is written in the grammar of
patterns. It is then written as one tree only, and the automaton is the one that is written down, part
by part, for this tree. -/
theorem compiles_iff_wellFormed {text : String} (hne : text ≠ "") :
    ((∃ m, Nfa.ofPattern text = .ok m) ↔ ∃ p : Pattern, p.WellFormed ∧ p.text = text.toList) ∧
      ∀ m, Nfa.ofPattern text = .ok m → ∃ p : Pattern, p.WellFormed ∧ p.text = text.toList ∧
        (∀ q : Pattern, q.WellFormed → q.text = text.toList → q = p) ∧ m.IsLaidOutAs p := by
  refine ⟨⟨?_, ?_⟩, fun m hm => ?_⟩
  · rintro ⟨m, hm⟩
    obtain ⟨p, hp, -⟩ := exists_of_ofPattern hm
    exact ⟨p, (parse_eq_ok_iff hne).1 hp⟩
  · rintro ⟨p, hp⟩
    exact exists_nfa_of_parse ⟨p, (parse_eq_ok_iff hne).2 hp⟩
  · obtain ⟨p, hp, hbuild⟩ := exists_of_ofPattern hm
    obtain ⟨hwf, htext⟩ := (parse_eq_ok_iff hne).1 hp
    refine ⟨p, hwf, htext, fun q hq hqtext => ?_, isLaidOutAs_of_toNfa hwf hbuild⟩
    exact Except.ok.inj (((parse_eq_ok_iff hne).2 ⟨hq, hqtext⟩).symm.trans hp)

/-- A repeated group with a name and a class in which one dash ends a range and another stands for
itself: the automaton has the states and tags that are written down for it. -/
theorem compiles_of_named_group :
    ∃ m, Nfa.ofPattern "(?<x>a|[+---])*b" = .ok m ∧ m.states = List.range 9 ∧
      m.tags = [⟨"x", 1, 5⟩, ⟨"0", 0, 8⟩] := by
  let p : Pattern := .single ((Sequence.empty.append (.group (.angled "x")
    (.alternative (.single (Sequence.empty.append (.literal (.plain 'a')) .once))
      (Sequence.empty.append (.charClass [.range (.plain '+') (.plain '-'), .literal (.plain '-')])
        .once))) .zeroOrMore).append (.literal (.plain 'b')) .once)
  have hp : Pattern.parse "(?<x>a|[+---])*b" = .ok p := rfl
  have hwf : p.WellFormed := wellFormed_of_parse hp
  have hne : "(?<x>a|[+---])*b" ≠ "" := by decide
  obtain ⟨hiff, hlayout⟩ := compiles_iff_wellFormed hne
  obtain ⟨m, hm⟩ := hiff.2 ⟨p, hwf, rfl⟩
  obtain ⟨q, -, -, hq, hlaid⟩ := hlayout m hm
  obtain rfl : p = q := hq p hwf rfl
  exact ⟨m, hm, hlaid.states_eq, hlaid.tags_eq⟩

end Pattern

end CaptureAutomata
