/-
Traversals of a graph:

* `Traversal`: a test on edges, an order on vertices and an order on labels;
* `Traversal.starts`: the vertices a traversal starts from, in order, unless one is missing;
* `Traversal.paths`, `Traversal.allPaths`: the edges that leave the starts, or all edges;
* `Traversal.closure`: the vertices reached from the starts over edges that pass the test
  (`mem_closure`).
-/
import CaptureAutomata.Graph.Closure
import CaptureAutomata.Sorting
import CaptureAutomata.Undefined

namespace CaptureAutomata

/-- How a graph is traversed. -/
structure Traversal (V E : Type) [Key V] [Key E] where
  /-- The test that edges have to pass. -/
  accepts : Edge V E → Bool := fun _ => true
  /-- The order of vertices, which may put different vertices level. -/
  vertexOrder : V → V → Ordering := compare
  /-- The order of labels, which may put different labels level. -/
  labelOrder : E → E → Ordering := compare

namespace Traversal

variable {V E : Type} [Key V] [Key E]

/-- The list `vs` without the members that follow an equal one. -/
def dropRepeats : List V → List V
  | [] => []
  | [v] => [v]
  | v :: w :: vs => if v = w then dropRepeats (w :: vs) else v :: dropRepeats (w :: vs)

omit [Key E] in
/-- Dropping repeats keeps every member. -/
theorem mem_dropRepeats {v : V} {vs : List V} : v ∈ dropRepeats vs ↔ v ∈ vs := by
  fun_induction dropRepeats vs with
  | case1 => rfl
  | case2 => rfl
  | case3 w vs ih => simp [ih]
  | case4 u w vs _ ih => simp [ih]

/-- The given vertices by the order of vertices, level ones as given, and without neighbouring
duplicates. The first of them that is no vertex of the graph is an error. -/
def starts (t : Traversal V E) (g : Digraph V E) (vs : List V) :
    Except (Undefined V E) (List V) :=
  match vs.find? fun v => !g.contains v with
  | some v => .error (.traversalStart v)
  | none => .ok (dropRepeats (sortBy (fun v w => (t.vertexOrder v w).isLE) vs))

/-- A traversal starts only from vertices. -/
theorem mem_vertices_of_starts {t : Traversal V E} {g : Digraph V E} {vs ss : List V}
    (h : t.starts g vs = .ok ss) : ∀ v ∈ vs, v ∈ g.vertices := by
  intro v hv
  rw [starts] at h
  split at h
  next => contradiction
  next hn =>
    have := List.find?_eq_none.1 hn v hv
    exact Digraph.contains_iff.1 (by simpa using this)

/-- A traversal starts from the given vertices. -/
theorem mem_starts {t : Traversal V E} {g : Digraph V E} {vs ss : List V} {v : V}
    (h : t.starts g vs = .ok ss) : v ∈ ss ↔ v ∈ vs := by
  rw [starts] at h
  split at h
  next => contradiction
  next =>
    cases h
    rw [mem_dropRepeats, mem_sortBy]

/-- The edges leaving `v` by label, then by target, level ones as the graph lists them. -/
def edgesFrom (t : Traversal V E) (g : Digraph V E) (v : V) : List (Edge V E) :=
  sortBy (fun e f => ((t.labelOrder e.label f.label).then (t.vertexOrder e.target f.target)).isLE)
    (g.edgesFrom v)

/-- The edges that leave one of `vs` and pass the test, in this order of vertices. -/
def pathsFrom (t : Traversal V E) (g : Digraph V E) (vs : List V) : List (Edge V E) :=
  vs.flatMap fun v => (t.edgesFrom g v).filter t.accepts

/-- The edges that leave one of the given vertices and pass the test. -/
def paths (t : Traversal V E) (g : Digraph V E) (vs : List V) :
    Except (Undefined V E) (List (Edge V E)) :=
  (t.pathsFrom g ·) <$> t.starts g vs

/-- All edges that pass the test. -/
def allPaths (t : Traversal V E) (g : Digraph V E) : List (Edge V E) :=
  t.pathsFrom g (sortBy (fun v w => (t.vertexOrder v w).isLE) g.vertices)

/-- The given vertices and all that are reached from them over edges that pass the test. -/
def closure (t : Traversal V E) (g : Digraph V E) (vs : List V) :
    Except (Undefined V E) (KeySet V) :=
  (fun starts => g.closureFrom t.accepts (.ofList starts) starts) <$> t.starts g vs

/-- The closure holds the vertices that are reachable from the given ones. -/
theorem mem_closure {t : Traversal V E} {g : Digraph V E} {vs : List V} {c : KeySet V} {w : V}
    (h : t.closure g vs = .ok c) : w ∈ c ↔ g.Reachable t.accepts vs w := by
  rw [closure] at h
  cases hs : t.starts g vs with
  | error u => simp [hs, Functor.map, Except.map] at h
  | ok ss =>
    rw [hs] at h
    cases h
    exact Digraph.mem_closureFrom (.begin (fun v => by simpa using mem_starts hs) fun v => mem_starts hs)

/-- The closure holds vertices only. -/
theorem mem_vertices_of_mem_closure {t : Traversal V E} {g : Digraph V E} {vs : List V}
    {c : KeySet V} (h : t.closure g vs = .ok c) : ∀ v ∈ c, v ∈ g.vertices := by
  intro v hv
  refine ((mem_closure h).1 hv).mem_vertices ?_
  rw [closure] at h
  cases hs : t.starts g vs with
  | error u => simp [hs, Functor.map, Except.map] at h
  | ok ss => exact mem_vertices_of_starts hs

end Traversal

end CaptureAutomata
