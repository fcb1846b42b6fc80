/-
The closure of some vertices is what is reached from them:

* `Traversal.ClosedUnder`: a set of vertices that holds the starts and that passing edges do not leave;
* `Traversal.isLeast_reachable`: the reachable vertices are the least such set;
* `Traversal.exists_iterate_explore`: an exploration on a stack ends, as each step leaves one vertex less
  to be met or on the stack;
* `Traversal.closure_isLeast`: the closure is the least closed set, in whatever order the vertices and
  edges are taken, unless a start is missing.
-/
import CaptureAutomata.Graph.Steps
import CaptureAutomata.Proofs.Graph.Edges

namespace CaptureAutomata.Traversal

variable {V E : Type} [Key V] [Key E]

/-! ### Closed sets -/

/-- The set holds the starts, and with a vertex the ends of its edges that pass the test. -/
structure ClosedUnder (t : Traversal V E) (g : LabelledGraph V E) (vs : List V) (s : Set V) :
    Prop where
  /-- The starts are in the set. -/
  start_mem : ∀ v ∈ vs, v ∈ s
  /-- Edges that pass the test lead from the set into it. -/
  target_mem : ∀ e, g.HasEdge e → t.accepts e = true → e.source ∈ s → e.target ∈ s

/-- What is reachable is the least closed set. -/
lemma isLeast_reachable (t : Traversal V E) (g : LabelledGraph V E) (vs : List V) :
    IsLeast {s | t.ClosedUnder g vs s} {v | g.toDigraph.Reachable t.accepts vs v} := by
  refine ⟨⟨fun v hv => .start hv, fun e he ha hs => ?_⟩, fun s hs v hv => ?_⟩
  · exact Digraph.Reachable.step hs (LabelledGraph.hasEdge_toDigraph.2 he) ha
  · -- along the edges that lead to a reachable vertex
    induction hv with
    | start h => exact hs.start_mem _ h
    | step _ he ha ih =>
        obtain ⟨rfl, hedge⟩ := LabelledGraph.mem_edgesFrom.1 he
        exact hs.target_mem _ hedge ha ih

/-! ### Steps of the exploration -/

variable {t : Traversal V E} {g : Digraph V E} {vs : List V} {x : Exploration V}

/-- A step on a stack keeps what an exploration does. -/
lemma explores_explore (h : g.Explores t.accepts vs x.seen x.stack) :
    g.Explores t.accepts vs (t.explore g x).seen (t.explore g x).stack := by
  obtain ⟨seen, _ | ⟨v, stack⟩⟩ := x
  · exact h
  · refine h.step (fun e => List.mem_filter) fun w => ?_
    rw [explore, List.mem_append, List.mem_reverse, or_comm]
    rfl

/-- Some number of steps leads to an empty stack: each leaves one vertex less to be met or on the
stack. -/
lemma exists_iterate_explore (t : Traversal V E) (g : Digraph V E) (x : Exploration V) :
    ∃ n, ((t.explore g)^[n] x).stack = [] := by
  obtain ⟨seen, _ | ⟨v, stack⟩⟩ := x
  · exact ⟨0, rfl⟩
  · obtain ⟨n, hn⟩ := t.exists_iterate_explore g (t.explore g ⟨seen, v :: stack⟩)
    exact ⟨n + 1, hn⟩
termination_by g.unseen x.seen + x.stack.length
decreasing_by
  have := Digraph.unseen_fresh g t.accepts seen v
  simp only [explore, List.length_append, List.length_reverse, List.length_cons]
  omega

/-- Any number of steps keeps what an exploration does. -/
lemma explores_iterate_explore (h : g.Explores t.accepts vs x.seen x.stack) (n : ℕ) :
    g.Explores t.accepts vs ((t.explore g)^[n] x).seen ((t.explore g)^[n] x).stack := by
  induction n generalizing x with
  | zero => exact h
  | succ n ih => exact ih (explores_explore h)

/-! ### The closure -/

/-- A closure fails if a start is missing, with the first one. -/
lemma closure_eq_error_iff {u : Undefined V E} :
    t.closure g vs = .error u ↔
      ∃ v before after, vs = before ++ v :: after ∧ (∀ w ∈ before, w ∈ g.vertices) ∧
        v ∉ g.vertices ∧ u = .traversalStart v := by
  rw [← starts_eq_error_iff (t := t), closure]
  cases t.starts g vs with
  | error u => simp [Functor.map, Except.map]
  | ok ss => simp [Functor.map, Except.map]

/-- The closure does not depend on the orders. -/
lemma closure_congr {t' : Traversal V E} (h : t'.accepts = t.accepts) :
    t'.closure g vs = t.closure g vs := by
  cases hc : t.closure g vs with
  | error u => exact closure_eq_error_iff.2 (closure_eq_error_iff.1 hc)
  | ok c =>
      cases hc' : t'.closure g vs with
      | error u =>
          rw [closure_eq_error_iff.2 (closure_eq_error_iff.1 hc')] at hc
          cases hc
      | ok c' =>
          refine congrArg Except.ok (Std.ExtTreeSet.ext_mem fun v => ?_)
          rw [mem_closure hc', mem_closure hc, h]

/-- The exploration from vertices ends with their closure. -/
lemma exists_closure (t : Traversal V E) (h : ∀ v ∈ vs, v ∈ g.vertices) :
    ∃ c, t.closure g vs = .ok c ∧
      ∃ begun n, t.beginClosure g vs = .ok begun ∧ (t.explore g)^[n] begun = ⟨c, []⟩ := by
  obtain ⟨ss, hs⟩ := exists_starts (t := t) h
  obtain ⟨c, hc⟩ : ∃ c, t.closure g vs = .ok c := ⟨_, by rw [closure, hs]; rfl⟩
  have hbegun : g.Explores t.accepts vs (.ofList ss) ss.reverse :=
    .begin (fun v => by simpa using mem_starts hs) fun v => by simpa using mem_starts hs
  obtain ⟨n, hn⟩ := t.exists_iterate_explore g ⟨.ofList ss, ss.reverse⟩
  refine ⟨c, hc, _, n, by rw [beginClosure, hs]; rfl, ?_⟩
  have hend := explores_iterate_explore (x := ⟨.ofList ss, ss.reverse⟩) hbegun n
  rw [hn] at hend
  have hseen : ((t.explore g)^[n] ⟨.ofList ss, ss.reverse⟩).seen = c :=
    Std.ExtTreeSet.ext_mem fun v => by rw [hend.mem_iff, mem_closure hc]
  rw [← hseen, ← hn]

/-- The closure of vertices in a graph of either kind is the least set that holds them and that edges
passing the test do not leave, and a stack of vertices still to be explored runs empty with it. It is the
same for all orders of vertices and labels. The closure fails exactly if a start is missing, and names
the first one that is. -/
theorem closure_isLeast (t : Traversal V E) (g : LabelledGraph V E) (vs : List V) :
    (∀ u, t.closure g.toDigraph vs = .error u ↔
      ∃ v before after, vs = before ++ v :: after ∧ (∀ w ∈ before, g.contains w = true) ∧
        ¬ g.contains v = true ∧ u = .traversalStart v) ∧
      ((∃ c, t.closure g.toDigraph vs = .ok c ∧ IsLeast {s | t.ClosedUnder g vs s} {v | v ∈ c} ∧
        ∃ begun n, t.beginClosure g.toDigraph vs = .ok begun ∧
          (t.explore g.toDigraph)^[n] begun = ⟨c, []⟩) ↔ ∀ v ∈ vs, g.contains v = true) ∧
      ∀ vertexOrder labelOrder,
        closure { t with vertexOrder, labelOrder } g.toDigraph vs = t.closure g.toDigraph vs := by
  simp only [← LabelledGraph.mem_vertices_iff]
  refine ⟨fun u => closure_eq_error_iff, ⟨?_, fun h => ?_⟩, fun _ _ => closure_congr rfl⟩
  · rintro ⟨c, hc, -, -⟩ v hv
    by_contra hmissing
    obtain ⟨ss, hs, -⟩ := map_eq_ok.1 hc
    exact hmissing (mem_vertices_of_starts hs v hv)
  · obtain ⟨c, hc, hsteps⟩ := t.exists_closure h
    have hset : {v | v ∈ c} = {v | g.toDigraph.Reachable t.accepts vs v} :=
      Set.ext fun v => mem_closure hc
    exact ⟨c, hc, hset ▸ t.isLeast_reachable g vs, hsteps⟩

end CaptureAutomata.Traversal
