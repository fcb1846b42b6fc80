/-
Graph builders accept exactly the graphs without dangling edges:

* `LabelledGraph.leaves_append_singleton`, `LabelledGraph.named_append_singleton`: what one more call
  changes in a replay of calls;
* `LabelledGraph.Builder.HasEdge`: the edges that a builder has. `hasEdge_call` and `contains_call` say that
  a call does to a builder what it does to the replay, `hasEdge_run` and `contains_run` that a builder has
  what the replay of its calls comes to;
* `LabelledGraph.Builder.pairwise_edges`: a builder goes over its edges in their order, so the edge that it
  names is the first of those that enter no vertex (`build_eq_error_iff`);
* `LabelledGraph.builds_unless_dangling`: whatever calls and attempts to build have come before, an attempt
  succeeds if and only if no edge that the calls leave is dangling, with what they leave, and fails with
  the first of the dangling edges otherwise; those behind it do not depend on it.
-/
import CaptureAutomata.Graph.Calls
import CaptureAutomata.Proofs.Dfa.Build
import CaptureAutomata.Proofs.Graph.Edges
import CaptureAutomata.Proofs.Nfa.Build

namespace CaptureAutomata

variable {V E : Type} [Key V] [Key E]

/-! ### Edges in order -/

namespace Edge

instance : Std.TransCmp (order : Edge V E → Edge V E → Ordering) :=
  inferInstanceAs (Std.TransCmp (compareLex (compareOn (source : Edge V E → V))
    (compareLex (compareOn (label : Edge V E → E)) (compareOn (target : Edge V E → V)))))

instance : Std.LawfulEqCmp (order : Edge V E → Edge V E → Ordering) where
  eq_of_compare {e f} h := by
    obtain ⟨hsource, h⟩ := Ordering.then_eq_eq.1 h
    obtain ⟨hlabel, htarget⟩ := Ordering.then_eq_eq.1 h
    cases e
    cases f
    obtain rfl := Key.compare_eq_iff.1 hsource
    obtain rfl := Key.compare_eq_iff.1 hlabel
    obtain rfl := Key.compare_eq_iff.1 htarget
    rfl

end Edge

/-- In a list in order the first member that passes a test is the least of those that pass it. -/
lemma find?_eq_some_iff_of_pairwise {α : Type} {cmp : α → α → Ordering} [Std.TransCmp cmp]
    [Std.LawfulEqCmp cmp] {l : List α} {p : α → Bool} {a : α} (h : l.Pairwise (cmp · · = .lt)) :
    l.find? p = some a ↔ (a ∈ l ∧ p a = true) ∧ ∀ b, b ∈ l ∧ p b = true → (cmp a b).isLE := by
  have hleast : ∀ {c}, l.find? p = some c → ∀ b, b ∈ l ∧ p b = true → (cmp c b).isLE := by
    rintro c hc b ⟨hb, hpb⟩
    obtain ⟨-, before, after, rfl, hbefore⟩ := List.find?_eq_some_iff_append.1 hc
    rcases List.mem_append.1 hb with hb | hb
    · exact absurd hpb (by simpa using hbefore b hb)
    · rcases List.mem_cons.1 hb with rfl | hb
      · have hself : cmp b b = .eq := Std.ReflCmp.compare_self
        simp [hself]
      · have hlt := (List.pairwise_cons.1 (List.pairwise_append.1 h).2.1).1 b hb
        simp [hlt]
  constructor
  · exact fun ha => ⟨⟨List.mem_of_find?_eq_some ha, List.find?_some ha⟩, hleast ha⟩
  · rintro ⟨⟨ha, hpa⟩, hle⟩
    obtain ⟨c, hc⟩ := Option.isSome_iff_exists.1 (List.find?_isSome.2 ⟨a, ha, hpa⟩)
    have hca := hleast hc a ⟨ha, hpa⟩
    have hac := hle c ⟨List.mem_of_find?_eq_some hc, List.find?_some hc⟩
    rw [hc, Std.LawfulEqCmp.eq_of_compare (Std.OrientedCmp.isLE_antisymm hca hac)]

/-- A member of a longer list is the last one, or one of those before it. -/
lemma exists_mem_append_singleton {α : Type} {P : α → Prop} {l : List α} {a : α} :
    (∃ b ∈ l ++ [a], P b) ↔ P a ∨ ∃ b ∈ l, P b := by
  simp only [List.mem_append, List.mem_singleton, or_and_right, exists_or, exists_eq_left]
  exact or_comm

/-- One more member of a list may be the one that counts, or may undo what has counted before. -/
lemma exists_last_append_singleton {α : Type} {P Q : α → Prop} {l : List α} {a : α} :
    (∃ before b after, l ++ [a] = before ++ b :: after ∧ P b ∧ ∀ c ∈ after, ¬ Q c) ↔
      P a ∨ (∃ before b after, l = before ++ b :: after ∧ P b ∧ ∀ c ∈ after, ¬ Q c) ∧ ¬ Q a := by
  constructor
  · rintro ⟨before, b, after, heq, hb, hafter⟩
    -- The new member is the one that counts, or the last of those behind it.
    rcases List.eq_nil_or_concat after with rfl | ⟨after, last, rfl⟩
    · obtain ⟨-, ha⟩ := List.append_inj' heq rfl
      exact Or.inl (by rwa [← List.singleton_inj.1 ha] at hb)
    · rw [List.concat_eq_append, ← List.cons_append, ← List.append_assoc] at heq
      obtain ⟨rfl, hlast⟩ := List.append_inj' heq rfl
      obtain rfl := List.singleton_inj.1 hlast
      exact Or.inr ⟨⟨before, b, after, rfl, hb, fun c hc => hafter c (by simp [hc])⟩, hafter a (by simp)⟩
  · rintro (ha | ⟨⟨before, b, after, rfl, hb, hafter⟩, ha⟩)
    · exact ⟨l, a, [], rfl, ha, by simp⟩
    · refine ⟨before, b, after ++ [a], by simp, hb, fun c hc => ?_⟩
      rcases List.mem_append.1 hc with hc | hc
      · exact hafter c hc
      · exact (List.mem_singleton.1 hc) ▸ ha

namespace DeterministicGraph

/-- The edges of an adjacency map are listed in their order. -/
lemma pairwise_edgesOf (adjacency : KeyMap V (KeyMap E V)) :
    (edgesOf adjacency).Pairwise (Edge.order · · = .lt) := by
  refine List.pairwise_flatMap.2 ⟨fun entry _ => ?_, ?_⟩
  · refine List.pairwise_map.2 (Std.ExtTreeMap.ordered_keys_toList.imp fun {p q} hpq => ?_)
    simp [Edge.order, hpq]
  · refine Std.ExtTreeMap.ordered_keys_toList.imp fun {a b} hab e he f hf => ?_
    obtain ⟨p, -, rfl⟩ := List.mem_map.1 he
    obtain ⟨q, -, rfl⟩ := List.mem_map.1 hf
    simp [Edge.order, hab]

end DeterministicGraph

namespace NondeterministicGraph

/-- The edges of a vertex are listed in their order. -/
lemma pairwise_map_successorsOf (v : V) (targets : KeyMap E (KeySet V)) :
    ((successorsOf targets).map fun p => (⟨v, p.1, p.2⟩ : Edge V E)).Pairwise
      (Edge.order · · = .lt) := by
  rw [List.pairwise_map, successorsOf, List.pairwise_flatMap]
  refine ⟨fun labelled _ => ?_, ?_⟩
  · refine List.pairwise_map.2 (Std.ExtTreeSet.ordered_toList.imp fun {u w} huw => ?_)
    simp [Edge.order, huw]
  · refine Std.ExtTreeMap.ordered_keys_toList.imp fun {a b} hab p hp q hq => ?_
    obtain ⟨u, -, rfl⟩ := List.mem_map.1 hp
    obtain ⟨w, -, rfl⟩ := List.mem_map.1 hq
    simp [Edge.order, hab]

/-- The edges of an adjacency map are listed in their order. -/
lemma pairwise_edgesOf (adjacency : KeyMap V (KeyMap E (KeySet V))) :
    (edgesOf adjacency).Pairwise (Edge.order · · = .lt) := by
  refine List.pairwise_flatMap.2 ⟨fun entry _ => pairwise_map_successorsOf entry.1 entry.2, ?_⟩
  refine Std.ExtTreeMap.ordered_keys_toList.imp fun {a b} hab e he f hf => ?_
  obtain ⟨p, -, rfl⟩ := List.mem_map.1 he
  obtain ⟨q, -, rfl⟩ := List.mem_map.1 hf
  simp [Edge.order, hab]

/-- The edges that leave a vertex are met in their order. -/
lemma pairwise_edgesFrom (g : NondeterministicGraph V E) (v : V) :
    (g.toDigraph.edgesFrom v).Pairwise (Edge.order · · = .lt) := by
  show (((g.adjacency[v]?.map successorsOf).getD []).map _).Pairwise _
  cases g.adjacency[v]? with
  | none => exact .nil
  | some targets => exact pairwise_map_successorsOf v targets

/-- The edges that leave a vertex are told by the targets of its labels. -/
lemma edgesFrom_congr {g h : NondeterministicGraph V E} {v : V}
    (ht : ∀ l, g.targets v l = h.targets v l) : g.toDigraph.edgesFrom v = h.toDigraph.edgesFrom v := by
  have hmem : ∀ e, e ∈ g.toDigraph.edgesFrom v ↔ e ∈ h.toDigraph.edgesFrom v := fun e => by
    rw [mem_edgesFrom, mem_edgesFrom, ht]
  have hperm := (List.perm_ext_iff_of_nodup ((LabelledGraph.nondeterministic g).nodup_edgesFrom v)
    ((LabelledGraph.nondeterministic h).nodup_edgesFrom v)).2 hmem
  refine hperm.eq_of_pairwise (fun e f _ _ hef hfe => ?_) (pairwise_edgesFrom g v) (pairwise_edgesFrom h v)
  exact absurd hfe (Std.OrientedCmp.not_lt_of_lt hef)

end NondeterministicGraph

namespace LabelledGraph

variable {k : Kind}

/-! ### Replays -/

section Replay

variable {calls : List (Call V E k)} {c : Call V E k} {v : V} {e : Edge V E}

lemma named_append_singleton : Named (calls ++ [c]) v ↔ c.Names v ∨ Named calls v :=
  exists_mem_append_singleton

/-- One more call puts edges in, in place of those that it replaces. -/
lemma leaves_append_singleton :
    Leaves (calls ++ [c]) e ↔ c.Puts e ∨ Leaves calls e ∧ ¬ c.Replaces e :=
  exists_last_append_singleton

end Replay

/-! ### What a builder has -/

namespace Builder

variable {b : Builder V E k} {c : Call V E k} {calls : List (Call V E k)} {v : V} {e : Edge V E}

/-- The edges of a builder, in their order. -/
def edges : {k : Kind} → Builder V E k → List (Edge V E)
  | _, deterministic b => DeterministicGraph.edgesOf b.adjacency
  | _, nondeterministic b => NondeterministicGraph.edgesOf b.adjacency

/-- The builder has an edge. -/
def HasEdge : {k : Kind} → Builder V E k → Edge V E → Prop
  | _, deterministic b, e => b.target? e.source e.label = some e.target
  | _, nondeterministic b, e => b.HasEdge e.source e.label e.target

/-- A builder goes over its edges in their order. -/
lemma pairwise_edges (b : Builder V E k) : b.edges.Pairwise (Edge.order · · = .lt) := by
  cases b with
  | deterministic b => exact DeterministicGraph.pairwise_edgesOf b.adjacency
  | nondeterministic b => exact NondeterministicGraph.pairwise_edgesOf b.adjacency

/-- The edges that a builder goes over are those that it has. -/
@[simp] lemma mem_edges_iff : e ∈ b.edges ↔ b.HasEdge e := by
  cases b with
  | deterministic b =>
      refine DeterministicGraph.mem_edgesOf.trans ?_
      rw [HasEdge, DeterministicGraph.Builder.target?, Std.ExtTreeMap.getD_eq_getD_getElem?]
      cases b.adjacency[e.source]? <;> simp
  | nondeterministic b =>
      refine NondeterministicGraph.mem_edgesOf.trans ?_
      simp only [NondeterministicGraph.mem_successorsOf, HasEdge,
        NondeterministicGraph.Builder.HasEdge, Std.ExtTreeMap.getD_eq_getD_getElem?]
      cases b.adjacency[e.source]? with
      | none => simp
      | some targets => cases hl : targets[e.label]? <;> simp [hl]

/-- A call makes the vertices that it names. -/
lemma contains_call : (b.call c).contains v = true ↔ c.Names v ∨ b.contains v = true := by
  cases b with
  | deterministic b =>
      simp only [contains, DeterministicGraph.Builder.contains, Std.ExtTreeMap.contains_iff_mem]
      cases c with
      | vertex w => exact DeterministicGraph.Builder.mem_vertex
      | path e => exact DeterministicGraph.Builder.mem_path.trans or_assoc.symm
      | replace source targets => exact DeterministicGraph.Builder.mem_edges
  | nondeterministic b =>
      simp only [contains, NondeterministicGraph.Builder.contains, Std.ExtTreeMap.contains_iff_mem]
      cases c with
      | vertex w => exact NondeterministicGraph.Builder.mem_vertex
      | path e => exact NondeterministicGraph.Builder.mem_path.trans or_assoc.symm
      | extend source label ends => exact NondeterministicGraph.Builder.mem_edges

/-- A call puts its edges in, in place of those that it replaces. -/
lemma hasEdge_call : (b.call c).HasEdge e ↔ c.Puts e ∨ b.HasEdge e ∧ ¬ c.Replaces e := by
  cases b with
  | deterministic b =>
      cases c with
      | vertex w => simp [call, HasEdge, Call.Puts, Call.Replaces]
      | path f =>
          simp only [call, HasEdge, Call.Puts, Call.Replaces, DeterministicGraph.Builder.target?_path]
          split
          next h =>
            cases e
            cases f
            simp_all [eq_comm]
          next h =>
            have hne : e ≠ f := fun hef => h (hef ▸ ⟨rfl, rfl⟩)
            simp [h, hne]
      | replace source targets =>
          simp only [call, HasEdge, Call.Puts, Call.Replaces, DeterministicGraph.Builder.target?_edges]
          split
          next h => simp [h]
          next h => simp [h]
  | nondeterministic b =>
      cases c with
      | vertex w =>
          simp [call, HasEdge, Call.Puts, Call.Replaces]
      | path f =>
          cases e
          cases f
          simp [call, HasEdge, Call.Puts, Call.Replaces]
      | extend source label ends =>
          simp [call, HasEdge, Call.Puts, Call.Replaces]

@[simp] lemma contains_empty : (empty k : Builder V E k).contains v = false := by
  cases k <;> simp [empty, contains, DeterministicGraph.Builder.contains,
    NondeterministicGraph.Builder.contains]

@[simp] lemma not_hasEdge_empty : ¬ (empty k : Builder V E k).HasEdge e := by
  cases k <;> simp [empty, HasEdge, DeterministicGraph.Builder.target?,
    NondeterministicGraph.Builder.HasEdge]

/-- After some calls the vertices of the builder are those that the calls have named. -/
lemma contains_run : ((empty k).run calls).contains v = true ↔ Named calls v := by
  induction calls using List.reverseRecOn with
  | nil => simp [run, Named]
  | append_singleton calls c ih =>
      rw [run, List.foldl_append, List.foldl_cons, List.foldl_nil, contains_call,
        named_append_singleton, ← ih, run]

/-- After some calls the builder has the edges that a replay of the calls leaves. -/
lemma hasEdge_run : ((empty k).run calls).HasEdge e ↔ Leaves calls e := by
  induction calls using List.reverseRecOn with
  | nil => simp [run, Leaves]
  | append_singleton calls c ih =>
      rw [run, List.foldl_append, List.foldl_cons, List.foldl_nil, hasEdge_call,
        leaves_append_singleton, ← ih, run]

/-! ### Building -/

/-- The first edge that enters no vertex. -/
def dangling? (b : Builder V E k) : Option (Edge V E) :=
  b.edges.find? fun e => !b.contains e.target

/-- The first dangling edge is the least of them. -/
lemma dangling?_eq_some_iff :
    b.dangling? = some e ↔ (b.HasEdge e ∧ ¬ b.contains e.target = true) ∧
      ∀ f, b.HasEdge f ∧ ¬ b.contains f.target = true → (e.order f).isLE := by
  rw [dangling?, find?_eq_some_iff_of_pairwise b.pairwise_edges]
  simp only [mem_edges_iff, Bool.not_eq_true', Bool.not_eq_true]

lemma dangling?_eq_none_iff :
    b.dangling? = none ↔ ∀ e, b.HasEdge e → b.contains e.target = true := by
  rw [dangling?, List.find?_eq_none]
  simp only [mem_edges_iff, Bool.not_eq_true', Bool.not_eq_false]

/-- Building keeps the vertices and edges. -/
lemma contents_of_build {g : LabelledGraph V E} (h : b.build = .ok g) :
    (∀ v, g.contains v = b.contains v) ∧ ∀ e, g.HasEdge e ↔ b.HasEdge e := by
  cases b with
  | deterministic b =>
      obtain ⟨g, hg, rfl⟩ := map_eq_ok.1 h
      obtain ⟨-, hadj⟩ := DeterministicGraph.Builder.build_eq_ok_iff.1 hg
      refine ⟨fun v => ?_, fun e => ?_⟩
      · rw [LabelledGraph.contains, DeterministicGraph.contains, hadj]
        rfl
      · rw [LabelledGraph.HasEdge, DeterministicGraph.target?_eq, hadj]
        rfl
  | nondeterministic b =>
      obtain ⟨g, hg, rfl⟩ := map_eq_ok.1 h
      obtain ⟨-, hadj⟩ := NondeterministicGraph.Builder.build_eq_ok_iff.1 hg
      refine ⟨fun v => ?_, fun e => ?_⟩
      · rw [LabelledGraph.contains, NondeterministicGraph.contains, hadj]
        rfl
      · rw [LabelledGraph.HasEdge, NondeterministicGraph.targets, hadj]
        rfl

/-- Building fails with the first dangling edge. -/
lemma build_eq_error_iff {u : Undefined V E} :
    b.build = .error u ↔ ∃ e, b.dangling? = some e ∧ u = k.undefinedEnd e := by
  cases b with
  | deterministic b =>
      refine Iff.trans ?_ DeterministicGraph.Builder.build_eq_error_iff
      rw [build]
      cases b.build <;> simp [Functor.map, Except.map]
  | nondeterministic b =>
      refine Iff.trans ?_ NondeterministicGraph.Builder.build_eq_error_iff
      rw [build]
      cases b.build <;> simp [Functor.map, Except.map]

/-- Building succeeds if all edges enter vertices. -/
lemma exists_build_iff :
    (∃ g, b.build = .ok g) ↔ ∀ e, b.HasEdge e → b.contains e.target = true := by
  rw [← dangling?_eq_none_iff]
  cases h : b.build with
  | ok g =>
      have hnone : b.dangling? = none := by
        by_contra hsome
        obtain ⟨e, he⟩ := Option.ne_none_iff_exists'.1 hsome
        exact absurd (h.symm.trans (build_eq_error_iff.2 ⟨e, he, rfl⟩)) (by simp)
      exact iff_of_true ⟨g, rfl⟩ hnone
  | error u =>
      obtain ⟨e, he, -⟩ := build_eq_error_iff.1 h
      simp [he]

/-- The attempts behind some requests come to what they come to on the builder that the calls have left. -/
lemma answers_append (b : Builder V E k) (before after : List (Request V E k)) :
    b.answers (before ++ after) =
      b.answers before ++ (b.run (callsOf before)).answers after := by
  induction before generalizing b with
  | nil => rfl
  | cons request before ih =>
      cases request with
      | call c => exact ih (b.call c)
      | build => exact congrArg (b.build :: ·) (ih b)

end Builder

/-- Whatever calls and attempts to build have come before, an attempt to build succeeds if and only if every
edge that a replay of the calls leaves enters a vertex that they have named, and the graph then has these
vertices and edges; otherwise it fails with the first of the edges that do not. What comes behind the
attempt is answered as if it had not been made. -/
theorem builds_unless_dangling (before after : List (Request V E k)) :
    ∃ answer later,
      (Builder.empty k).answers (before ++ .build :: after) =
        (Builder.empty k).answers before ++ answer :: later ∧
      (Builder.empty k).answers (before ++ after) = (Builder.empty k).answers before ++ later ∧
      ((∃ g, answer = .ok g) ↔ ∀ e, Leaves (callsOf before) e → Named (callsOf before) e.target) ∧
      (∀ g, answer = .ok g → (∀ v, g.contains v = true ↔ Named (callsOf before) v) ∧
        ∀ e, g.HasEdge e ↔ Leaves (callsOf before) e) ∧
      ∀ u, answer = .error u ↔ ∃ e, FirstDangling (callsOf before) e ∧ u = k.undefinedEnd e := by
  refine ⟨_, _, Builder.answers_append _ before (.build :: after),
    Builder.answers_append _ before after, ?_, fun g hg => ?_, fun u => ?_⟩
  · simp only [Builder.exists_build_iff, Builder.hasEdge_run, Builder.contains_run]
  · obtain ⟨hcontains, hedges⟩ := Builder.contents_of_build hg
    exact ⟨fun v => by rw [hcontains, Builder.contains_run],
      fun e => by rw [hedges, Builder.hasEdge_run]⟩
  · simp only [Builder.build_eq_error_iff, Builder.dangling?_eq_some_iff, Builder.hasEdge_run,
      Builder.contains_run, FirstDangling]

end LabelledGraph

end CaptureAutomata
