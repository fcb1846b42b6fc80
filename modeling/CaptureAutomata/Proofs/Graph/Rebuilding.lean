/-
Graphs that are built again from their vertices and edges:

* `DeterministicGraph.ext_of_targets`, `NondeterministicGraph.ext_of_targets`: which look-ups tell a graph.
  A nondeterministic graph may know a label that leads nowhere;
* `LabelledGraph.HasLabel`, `LabelledGraph.hasLabel_of_build`: a label is known if an edge has it, or if the
  targets of the label have been extended;
* `LabelledGraph.leaves_iff_of_replaces`: calls that replace an edge only by itself leave all the edges that
  they put in;
* `LabelledGraph.rebuilds_from_edges`: the vertices and edges of a graph are accepted by a fresh builder,
  and give a graph with the same vertices and edges. It is the same graph if and only if each label whose
  targets have been extended leads somewhere.
-/
import CaptureAutomata.Proofs.Graph.Building

namespace CaptureAutomata

variable {V E : Type} [Key V] [Key E]

/-! ### Graphs as they are looked up -/

/-- A deterministic graph is told by its vertices and targets. -/
lemma DeterministicGraph.ext_of_targets {g h : DeterministicGraph V E}
    (hv : ∀ v, g.contains v = h.contains v) (ht : ∀ v l, g.target? v l = h.target? v l) : g = h := by
  refine ext_adjacency (KeyMap.ext_getD ∅ (fun v => ?_) fun v => ?_)
  · rw [← Std.ExtTreeMap.contains_iff_mem, ← Std.ExtTreeMap.contains_iff_mem]
    exact Bool.eq_iff_iff.1 (hv v)
  · exact Std.ExtTreeMap.ext_getElem? fun l => by rw [← target?_eq, ← target?_eq, ht]

/-- A nondeterministic graph is told by its vertices, the labels that these know, and its targets. -/
lemma NondeterministicGraph.ext_of_targets {g h : NondeterministicGraph V E}
    (hv : ∀ v, g.contains v = h.contains v)
    (hl : ∀ v l, l ∈ g.adjacency.getD v ∅ ↔ l ∈ h.adjacency.getD v ∅)
    (ht : ∀ v l w, w ∈ g.targets v l ↔ w ∈ h.targets v l) : g = h := by
  refine ext_adjacency (KeyMap.ext_getD ∅ (fun v => ?_) fun v => ?_)
  · rw [← Std.ExtTreeMap.contains_iff_mem, ← Std.ExtTreeMap.contains_iff_mem]
    exact Bool.eq_iff_iff.1 (hv v)
  · exact KeyMap.ext_getD ∅ (hl v) fun l => Std.ExtTreeSet.ext_mem fun w => ht v l w

namespace LabelledGraph

variable {k : Kind} {g h : LabelledGraph V E} {v w : V} {l : E} {e : Edge V E}

/-- The kind of a graph. -/
def kind : LabelledGraph V E → Kind
  | deterministic _ => .deterministic
  | nondeterministic _ => .nondeterministic

/-- The vertex knows the label, even if it leads nowhere. -/
def HasLabel : LabelledGraph V E → V → E → Prop
  | deterministic g, v, l => ∃ w, g.target? v l = some w
  | nondeterministic g, v, l => l ∈ g.adjacency.getD v ∅

/-- A graph of some kind is told by its vertices, labels and edges. -/
lemma ext_of_edges (hk : g.kind = h.kind) (hv : ∀ v, g.contains v = h.contains v)
    (hl : ∀ v l, g.HasLabel v l ↔ h.HasLabel v l) (he : ∀ e, g.HasEdge e ↔ h.HasEdge e) : g = h := by
  cases g with
  | deterministic g =>
      cases h with
      | deterministic h =>
          refine congrArg _ (DeterministicGraph.ext_of_targets hv fun v l => ?_)
          exact Option.ext fun w => he ⟨v, l, w⟩
      | nondeterministic h => cases hk
  | nondeterministic g =>
      cases h with
      | deterministic h => cases hk
      | nondeterministic h =>
          exact congrArg _ (NondeterministicGraph.ext_of_targets hv hl fun v l w => he ⟨v, l, w⟩)

/-! ### Labels that a builder knows -/

/-- An edge that no call replaces, or only puts in again, is left if it has been put in. -/
lemma leaves_iff_of_replaces {calls : List (Call V E k)} (h : ∀ c ∈ calls, c.Replaces e → c.Puts e) :
    Leaves calls e ↔ ∃ c ∈ calls, c.Puts e := by
  induction calls using List.reverseRecOn with
  | nil => simp [Leaves]
  | append_singleton calls c ih =>
      rw [leaves_append_singleton, exists_mem_append_singleton, ih fun d hd => h d (by simp [hd])]
      have hc : c.Replaces e → c.Puts e := h c (by simp)
      by_cases hreplaces : c.Replaces e
      · simp [hc hreplaces]
      · simp [hreplaces]

/-- A nondeterministic builder keeps all edges that have been put in. -/
lemma leaves_iff_of_nondeterministic {calls : List (Call V E .nondeterministic)} :
    Leaves calls e ↔ ∃ c ∈ calls, c.Puts e :=
  leaves_iff_of_replaces fun c _ hreplaces => by cases c <;> exact hreplaces.elim

section Labels

variable {b : NondeterministicGraph.Builder V E} {s : V} {m : E}

@[simp] lemma mem_labels_vertex :
    l ∈ (b.vertex s).adjacency.getD v ∅ ↔ l ∈ b.adjacency.getD v ∅ := by
  rw [NondeterministicGraph.Builder.vertex, KeyMap.getD_insertIfNew_default]

/-- Added edges make their label known, even if there are none. -/
lemma mem_labels_edges {ends : List V} :
    l ∈ (b.edges s m ends).adjacency.getD v ∅ ↔ v = s ∧ l = m ∨ l ∈ b.adjacency.getD v ∅ := by
  rw [NondeterministicGraph.Builder.edges, KeyMap.getD_insert]
  by_cases hv : v = s
  · subst hv
    rw [if_pos rfl, Std.ExtTreeMap.mem_insert, Key.compare_eq_iff]
    simp [eq_comm]
  · simp [hv]

end Labels

namespace Builder

variable {b : Builder V E k} {calls : List (Call V E k)}

/-- The vertex knows the label, even if it leads nowhere. -/
def HasLabel : {k : Kind} → Builder V E k → V → E → Prop
  | _, deterministic b, v, l => ∃ w, b.target? v l = some w
  | _, nondeterministic b, v, l => l ∈ b.adjacency.getD v ∅

/-- A deterministic builder knows the labels of its edges. -/
lemma hasLabel_deterministic {b : Builder V E .deterministic} :
    b.HasLabel v l ↔ ∃ w, b.HasEdge ⟨v, l, w⟩ := by
  cases b
  rfl

/-- A call makes the labels known of the edges that it puts in, and the label whose targets it extends. -/
lemma hasLabel_call {b : Builder V E .nondeterministic} {c : Call V E .nondeterministic} :
    (b.call c).HasLabel v l ↔ (c.Extends v l ∨ ∃ w, c.Puts ⟨v, l, w⟩) ∨ b.HasLabel v l := by
  cases b with
  | nondeterministic b =>
      cases c with
      | vertex w => exact mem_labels_vertex.trans (by simp [Call.Extends, Call.Puts, HasLabel])
      | path e =>
          refine mem_labels_edges.trans ?_
          rw [mem_labels_vertex]
          cases e
          simp [Call.Extends, Call.Puts, HasLabel]
      | extend source label ends =>
          refine mem_labels_edges.trans (or_congr_left ?_)
          constructor
          · exact Or.inl
          · rintro (h | ⟨w, hv, hl, -⟩)
            · exact h
            · exact ⟨hv, hl⟩

/-- After some calls a label is known if its targets have been extended or an edge has it. -/
lemma hasLabel_run :
    ((empty k).run calls).HasLabel v l ↔
      (∃ c ∈ calls, c.Extends v l) ∨ ∃ w, Leaves calls ⟨v, l, w⟩ := by
  cases k with
  | deterministic =>
      have hnone : ∀ c ∈ calls, ¬ c.Extends v l := by
        intro c _
        cases c <;> exact id
      simp only [hasLabel_deterministic, hasEdge_run]
      exact ⟨Or.inr, Or.rec (fun ⟨c, hc, hl⟩ => absurd hl (hnone c hc)) id⟩
  | nondeterministic =>
      induction calls using List.reverseRecOn with
      | nil => simp [run, empty, HasLabel, Leaves]
      | append_singleton calls c ih =>
          rw [run, List.foldl_append, List.foldl_cons, List.foldl_nil]
          refine hasLabel_call.trans ((or_congr_right ih).trans ?_)
          simp only [leaves_iff_of_nondeterministic, exists_mem_append_singleton, exists_or]
          exact or_or_or_comm

lemma kind_of_build (h : b.build = .ok g) : g.kind = k := by
  cases b <;> (obtain ⟨g, -, rfl⟩ := map_eq_ok.1 h; rfl)

/-- Building keeps the labels. -/
lemma hasLabel_of_build (h : b.build = .ok g) : g.HasLabel v l ↔ b.HasLabel v l := by
  cases b with
  | deterministic b =>
      obtain ⟨g, hg, rfl⟩ := map_eq_ok.1 h
      obtain ⟨-, hadj⟩ := DeterministicGraph.Builder.build_eq_ok_iff.1 hg
      simp only [LabelledGraph.HasLabel, DeterministicGraph.target?_eq, hadj]
      rfl
  | nondeterministic b =>
      obtain ⟨g, hg, rfl⟩ := map_eq_ok.1 h
      obtain ⟨-, hadj⟩ := NondeterministicGraph.Builder.build_eq_ok_iff.1 hg
      rw [LabelledGraph.HasLabel, hadj]
      rfl

end Builder

/-! ### Building again -/

section Additions

variable {calls : List (Call V E k)} {vertices : List V} {edges : List (Edge V E)}

@[simp] lemma named_additions :
    Named (additions vertices edges : List (Call V E k)) v ↔
      v ∈ vertices ∨ ∃ e ∈ edges, v = e.source ∨ v = e.target := by
  simp [Named, additions, or_and_right, exists_or, Call.Names]

@[simp] lemma puts_additions :
    (∃ c ∈ (additions vertices edges : List (Call V E k)), c.Puts e) ↔ e ∈ edges := by
  simp [additions, or_and_right, exists_or, Call.Puts]

lemma not_extends_additions :
    ¬ ∃ c ∈ (additions vertices edges : List (Call V E k)), c.Extends v l := by
  simp [additions, or_and_right, exists_or, Call.Extends]

end Additions

/-- In a deterministic graph an edge is the only one with its source and label. -/
lemma eq_of_replaces (hk : g.kind = k) {f : Edge V E} (he : g.HasEdge e) (hf : g.HasEdge f)
    (h : (Call.path f : Call V E k).Replaces e) : e = f := by
  cases g with
  | nondeterministic g =>
      subst hk
      exact h.elim
  | deterministic g =>
      subst hk
      obtain ⟨hsource, hlabel⟩ := h
      have htarget : some e.target = some f.target := by
        rw [← show g.target? e.source e.label = some e.target from he,
          ← show g.target? f.source f.label = some f.target from hf, hsource, hlabel]
      cases e
      cases f
      simp_all

/-- The edges of a graph are all left when they are added one by one. -/
lemma leaves_additions (hk : g.kind = k) {vertices : List V} {edges : List (Edge V E)}
    (hedges : ∀ e, e ∈ edges ↔ g.HasEdge e) :
    Leaves (additions vertices edges : List (Call V E k)) e ↔ g.HasEdge e := by
  constructor
  · rintro ⟨before, c, after, heq, hputs, -⟩
    exact (hedges e).1 (puts_additions.1 ⟨c, by rw [heq]; simp, hputs⟩)
  · intro he
    refine (leaves_iff_of_replaces fun c hc hreplaces => ?_).2 (puts_additions.2 ((hedges e).2 he))
    rcases List.mem_append.1 hc with hc | hc
    · obtain ⟨v, -, rfl⟩ := List.mem_map.1 hc
      cases k <;> exact hreplaces.elim
    · obtain ⟨f, hf, rfl⟩ := List.mem_map.1 hc
      exact eq_of_replaces hk he ((hedges f).1 hf) hreplaces

/-- The calls that add the vertices of a graph and then its edges, as they are gone over under some
orders. -/
def rebuilding (g : LabelledGraph V E) (k : Kind) (vertexOrder : V → V → Ordering)
    (labelOrder : E → E → Ordering) : List (Call V E k) :=
  additions g.toDigraph.vertices
    (({ vertexOrder, labelOrder } : Traversal V E).allPaths g.toDigraph)

section Rebuilding

variable (vertexOrder : V → V → Ordering) (labelOrder : E → E → Ordering)

/-- When a graph is built again, its edges are left. -/
lemma leaves_rebuilding (hk : g.kind = k) :
    Leaves (g.rebuilding k vertexOrder labelOrder) e ↔ g.HasEdge e :=
  leaves_additions hk fun _ => mem_allPaths vertexOrder labelOrder

/-- When a graph is built again, its vertices are named. -/
lemma named_rebuilding :
    Named (g.rebuilding k vertexOrder labelOrder) v ↔ g.contains v = true := by
  rw [rebuilding, named_additions, ← mem_vertices_iff]
  refine ⟨?_, Or.inl⟩
  rintro (hv | ⟨e, he, rfl | rfl⟩)
  · exact hv
  · exact Digraph.source_mem_vertices (mem_edgesFrom.2 ⟨rfl, (mem_allPaths _ _).1 he⟩)
  · exact Digraph.target_mem_vertices (mem_edgesFrom.2 ⟨rfl, (mem_allPaths _ _).1 he⟩)

/-- A graph whose edges enter vertices can be built again, with the same vertices and edges. Its labels are
those of its edges. -/
lemma exists_rebuilt (hk : g.kind = k) (hends : ∀ e, g.HasEdge e → g.contains e.target = true) :
    ∃ g', ((Builder.empty k).run (g.rebuilding k vertexOrder labelOrder)).build = .ok g' ∧
      (∀ v, g'.contains v = g.contains v) ∧ (∀ e, g'.HasEdge e ↔ g.HasEdge e) ∧
      ∀ v l, g'.HasLabel v l ↔ ∃ w, g.HasEdge ⟨v, l, w⟩ := by
  obtain ⟨g', hg'⟩ : ∃ g', ((Builder.empty k).run (g.rebuilding k vertexOrder labelOrder)).build =
      .ok g' := by
    refine Builder.exists_build_iff.2 fun e he => ?_
    rw [Builder.hasEdge_run, leaves_rebuilding _ _ hk] at he
    rw [Builder.contains_run, named_rebuilding]
    exact hends e he
  obtain ⟨hcontains, hedges⟩ := Builder.contents_of_build hg'
  refine ⟨g', hg', fun v => ?_, fun e => ?_, fun v l => ?_⟩
  · rw [hcontains, Bool.eq_iff_iff, Builder.contains_run, named_rebuilding]
  · rw [hedges, Builder.hasEdge_run, leaves_rebuilding _ _ hk]
  · rw [Builder.hasLabel_of_build hg', Builder.hasLabel_run]
    simp only [leaves_rebuilding _ _ hk]
    exact or_iff_right not_extends_additions

end Rebuilding

/-- If a graph has been built, a fresh builder of its kind accepts its vertices and then its edges, under
whatever orders they are gone over, and gives a graph with the same vertices and edges. It is the same
graph if and only if each label whose targets have been extended leads somewhere; so it always is if the
graph is deterministic. -/
theorem rebuilds_from_edges {calls : List (Call V E k)}
    (h : ((Builder.empty k).run calls).build = .ok g) (vertexOrder : V → V → Ordering)
    (labelOrder : E → E → Ordering) :
    ∃ g', ((Builder.empty k).run (g.rebuilding k vertexOrder labelOrder)).build = .ok g' ∧
      (∀ v, g'.contains v = g.contains v) ∧ (∀ e, g'.HasEdge e ↔ g.HasEdge e) ∧
      (g' = g ↔ ∀ c ∈ calls, ∀ v l, c.Extends v l → ∃ w, g.HasEdge ⟨v, l, w⟩) ∧
      (k = .deterministic → g' = g) := by
  have hk := Builder.kind_of_build h
  obtain ⟨hcontains, hedges⟩ := Builder.contents_of_build h
  have hends : ∀ e, g.HasEdge e → g.contains e.target = true := fun e he => by
    rw [hcontains]
    exact Builder.exists_build_iff.1 ⟨g, h⟩ e ((hedges e).1 he)
  have hl : ∀ v l, g.HasLabel v l ↔ (∃ c ∈ calls, c.Extends v l) ∨ ∃ w, g.HasEdge ⟨v, l, w⟩ :=
    fun v l => by
      simp only [Builder.hasLabel_of_build h, Builder.hasLabel_run, hedges, Builder.hasEdge_run]
  obtain ⟨g', hg', hv, he, hl'⟩ := exists_rebuilt vertexOrder labelOrder hk hends
  have hsame : g' = g ↔ ∀ c ∈ calls, ∀ v l, c.Extends v l → ∃ w, g.HasEdge ⟨v, l, w⟩ := by
    constructor
    · rintro rfl c hc v l hextends
      exact (hl' v l).1 ((hl v l).2 (Or.inl ⟨c, hc, hextends⟩))
    · intro hleads
      refine ext_of_edges ((Builder.kind_of_build hg').trans hk.symm) hv (fun v l => ?_) he
      rw [hl, hl']
      exact ⟨Or.inr, Or.rec (fun ⟨c, hc, hextends⟩ => hleads c hc v l hextends) id⟩
  refine ⟨g', hg', hv, he, hsame, ?_⟩
  rintro rfl
  exact hsame.2 fun c _ v l hextends => by cases c <;> exact hextends.elim

/-- Targets that are given twice, that come later or are never there. -/
private def extendedTargets : List (Call Nat Char .nondeterministic) :=
  [.extend 1 'a' [2, 2], .extend 2 'c' [], .path ⟨2, 'b', 1⟩, .extend 3 'd' [1, 4], .vertex 4,
    .path ⟨2, 'c', 3⟩]

/-- A label whose targets are extended by nothing may lead somewhere by another call. Then the graph comes
back, here with its vertices gone over from the last to the first and all labels put level. -/
theorem rebuilds_of_extended_targets :
    ∃ g, ((Builder.empty .nondeterministic).run extendedTargets).build = .ok g ∧
      ((Builder.empty .nondeterministic).run
        (g.rebuilding .nondeterministic (fun v w => compare w v) fun _ _ => .eq)).build = .ok g := by
  obtain ⟨g, hg, -⟩ := exists_ok_of_decide (P := fun _ => True)
    (x := ((Builder.empty .nondeterministic).run extendedTargets).build) (by decide +kernel)
  obtain ⟨-, hedges⟩ := Builder.contents_of_build hg
  obtain ⟨g', hg', -, -, hsame, -⟩ := rebuilds_from_edges hg (fun v w => compare w v) fun _ _ => .eq
  obtain rfl : g' = g := by
    refine hsame.2 fun c hc v l hextends => ?_
    simp only [hedges, Builder.hasEdge_run, leaves_iff_of_nondeterministic]
    simp only [extendedTargets, List.mem_cons, List.not_mem_nil, or_false] at hc
    rcases hc with rfl | rfl | rfl | rfl | rfl | rfl
    · obtain ⟨rfl, rfl⟩ := hextends
      exact ⟨2, .extend 1 'a' [2, 2], by simp [extendedTargets], by simp [Call.Puts]⟩
    · obtain ⟨rfl, rfl⟩ := hextends
      exact ⟨3, .path ⟨2, 'c', 3⟩, by simp [extendedTargets], by simp [Call.Puts]⟩
    · exact hextends.elim
    · obtain ⟨rfl, rfl⟩ := hextends
      exact ⟨1, .extend 3 'd' [1, 4], by simp [extendedTargets], by simp [Call.Puts]⟩
    · exact hextends.elim
    · exact hextends.elim
  exact ⟨g', hg, hg'⟩

/-- Whether a label is known to a vertex of a nondeterministic graph. -/
private def knows : LabelledGraph Nat Char → Nat → Char → Bool
  | deterministic _, _, _ => false
  | nondeterministic g, v, l => (g.adjacency.getD v ∅).contains l

/-- The targets of a label that are extended by nothing are not among the edges, and so the label does not
come back. -/
theorem not_rebuilds_from_edges :
    ∃ g g', ((Builder.empty .nondeterministic).run [.extend 1 'a' []]).build = .ok g ∧
      ((Builder.empty .nondeterministic).run (g.rebuilding .nondeterministic compare compare)).build =
        .ok g' ∧ g' ≠ g := by
  obtain ⟨g, hg, hknows, hfound⟩ := exists_ok_of_decide
    (x := ((Builder.empty .nondeterministic).run [.extend 1 'a' []]).build)
    (P := fun g => knows g 1 'a' ∧
      (((Builder.empty .nondeterministic).run
        (g.rebuilding .nondeterministic compare compare)).build).toOption.any
          fun g' => decide (¬ knows g' 1 'a')) (by decide +kernel)
  obtain ⟨g', hg', hunknown⟩ := exists_ok_of_decide hfound
  refine ⟨g, g', hg, hg', ?_⟩
  rintro rfl
  exact hunknown hknows

end LabelledGraph

end CaptureAutomata
