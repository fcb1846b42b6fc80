/-
Searches of a graph:

* `Traversal.Discipline`: whether the vertex that was met first or last is explored next;
* `Traversal.searchFrom`: the edges over which a search meets each vertex, which stops because
  every round leaves one vertex less to meet or to explore;
* `Traversal.breadthFirst`, `Traversal.depthFirst`: the two searches from some starts. They go over
  all edges, and then keep those that pass the test.
-/
import CaptureAutomata.Graph.Traversal

namespace CaptureAutomata.Traversal

variable {V E : Type}

/-- Which of the vertices still to be explored comes next. -/
inductive Discipline
  /-- The one that was met first. -/
  | breadthFirst
  /-- The one that was met last. -/
  | depthFirst
deriving DecidableEq, Repr

/-- The vertices still to be explored, the next one first, after `found` were met in this order. -/
def Discipline.extend : Discipline → (waiting found : List V) → List V
  | breadthFirst, waiting, found => waiting ++ found
  | depthFirst, waiting, found => found.reverse ++ waiting

/-- The number of vertices still to be explored. -/
@[simp] theorem Discipline.length_extend (d : Discipline) (waiting found : List V) :
    (d.extend waiting found).length = waiting.length + found.length := by
  cases d
  · simp [extend]
  · simp [extend, Nat.add_comm]

/-! ### The search -/

variable [Key V] [Key E]

/-- Each vertex that is met leaves one vertex less unseen. -/
theorem unseen_newcomers_edgesFrom (t : Traversal V E) (g : Digraph V E) (seen : KeySet V) (v : V) :
    g.unseen (seen.insertMany ((seen.newcomers (·.target) (t.edgesFrom g v)).map (·.target))) +
      (seen.newcomers (·.target) (t.edgesFrom g v)).length ≤ g.unseen seen :=
  Digraph.unseen_newcomers fun _ he => Digraph.target_mem_vertices (mem_sortBy.1 he)

/-- The edges over which a search meets each further vertex, those in `waiting` being still to be
explored. -/
def searchFrom (t : Traversal V E) (d : Discipline) (g : Digraph V E) (seen : KeySet V) :
    (waiting : List V) → List (Edge V E)
  | [] => []
  | v :: waiting =>
    let found := seen.newcomers (·.target) (t.edgesFrom g v)
    let met := found.map (·.target)
    found ++ searchFrom t d g (seen.insertMany met) (d.extend waiting met)
termination_by waiting => g.unseen seen + waiting.length
decreasing_by
  have := t.unseen_newcomers_edgesFrom g seen v
  rw [Discipline.length_extend, List.length_map, List.length_cons]
  omega

/-- The edges over which a search from the given vertices meets each further vertex, as far as they
pass the test. -/
def search (t : Traversal V E) (d : Discipline) (g : Digraph V E) (vs : List V) :
    Except (Undefined V E) (List (Edge V E)) :=
  (fun starts =>
    (t.searchFrom d g (.ofList starts) (d.extend [] starts)).filter t.accepts) <$> t.starts g vs

/-- A search that explores the vertices in the order they were met. -/
def breadthFirst (t : Traversal V E) (g : Digraph V E) (vs : List V) :
    Except (Undefined V E) (List (Edge V E)) :=
  t.search .breadthFirst g vs

/-- A search that explores the vertex met last. -/
def depthFirst (t : Traversal V E) (g : Digraph V E) (vs : List V) :
    Except (Undefined V E) (List (Edge V E)) :=
  t.search .depthFirst g vs

end CaptureAutomata.Traversal
