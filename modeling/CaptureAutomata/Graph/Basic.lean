/-
Directed graphs with labelled edges, as a traversal sees them:

* `Edge`: an edge from a source to a target, with a label;
* `Digraph`: the vertices of a graph in ascending order and the edges leaving each of them, which
  lead to vertices only;
* `Digraph.unseen`: how many vertices a search has not met yet, the quantity that shrinks whenever
  a search meets a vertex (`unseen_newcomers`).
-/
import CaptureAutomata.Key

namespace CaptureAutomata

/-- An edge from `source` to `target`. -/
structure Edge (V E : Type) where
  /-- The vertex the edge leaves. -/
  source : V
  /-- What is written on the edge. -/
  label : E
  /-- The vertex the edge enters. -/
  target : V
deriving DecidableEq, Repr

/-- A finite directed graph with labelled edges. -/
structure Digraph (V E : Type) where
  /-- The vertices, in ascending order. -/
  vertices : List V
  /-- The edges leaving a vertex as labels and targets, in ascending order; nothing for a value
  that is no vertex. -/
  successors? : V → Option (List (E × V))
  /-- Exactly the vertices have a list of successors. -/
  isSome_successors? : ∀ v, (successors? v).isSome ↔ v ∈ vertices
  /-- Every edge enters a vertex. -/
  target_mem : ∀ v succs p, successors? v = some succs → p ∈ succs → p.2 ∈ vertices

namespace Digraph

variable {V E : Type}

/-- Whether `v` is a vertex. -/
def contains (g : Digraph V E) (v : V) : Bool :=
  (g.successors? v).isSome

/-- The edges leaving `v`; none if `v` is no vertex. -/
def edgesFrom (g : Digraph V E) (v : V) : List (Edge V E) :=
  ((g.successors? v).getD []).map fun p => ⟨v, p.1, p.2⟩

variable {g : Digraph V E} {v : V} {e : Edge V E}

theorem contains_iff : g.contains v = true ↔ v ∈ g.vertices :=
  g.isSome_successors? v

theorem target_mem_vertices (h : e ∈ g.edgesFrom v) : e.target ∈ g.vertices := by
  obtain ⟨p, hp, rfl⟩ := List.mem_map.1 h
  cases hs : g.successors? v with
  | none => simp [hs] at hp
  | some succs => exact g.target_mem v succs p hs (by simpa [hs] using hp)

/-! ### Vertices not met yet -/

variable [Key V]

/-- The number of vertices outside `seen`. -/
def unseen (g : Digraph V E) (seen : KeySet V) : Nat :=
  g.vertices.countP (· ∉ seen)

/-- Each vertex that is met for the first time leaves one less of them unseen. -/
theorem unseen_newcomers {seen : KeySet V} {es : List (Edge V E)}
    (h : ∀ e ∈ es, e.target ∈ g.vertices) :
    g.unseen (seen.insertMany ((seen.newcomers (·.target) es).map (·.target))) +
      (seen.newcomers (·.target) es).length ≤ g.unseen seen :=
  KeySet.countP_notMem_newcomers fun e he => h e (KeySet.of_mem_newcomers he).1

end Digraph

end CaptureAutomata
