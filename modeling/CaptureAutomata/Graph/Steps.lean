/-
Traversals of a graph, one step at a time:

* `Traversal.Exploration`, `Traversal.explore`: the vertices of a closure that have been met, and a stack
  of those still to be explored. A step explores the one on top;
* `Traversal.Enumeration`, `Traversal.nextPath`: the next of the edges that leave some vertices. The
  edges of a vertex are put in order when all those before it have been given;
* `Traversal.Search`, `Traversal.nextMet`: the next of the edges over which a search meets a vertex. A
  vertex is explored when all edges met before have been given; only those that pass the test are;
* `Traversal.beginClosure`, `Traversal.enumerate`, `Traversal.enumerateAll`, `Traversal.beginSearch`:
  where they begin.
-/
import CaptureAutomata.Graph.Search

namespace CaptureAutomata.Traversal

variable {V E : Type}

/-- A closure that is being collected. -/
structure Exploration (V : Type) [Key V] where
  /-- The vertices that have been met. -/
  seen : KeySet V
  /-- The vertices still to be explored, the top of the stack first. -/
  stack : List V

/-- Edges that are being enumerated. -/
structure Enumeration (V E : Type) where
  /-- The vertices whose edges have not been looked at. -/
  starts : List V
  /-- The edges that have been found and not been given. -/
  pending : List (Edge V E) := []

/-- A search that is going on. -/
structure Search (V E : Type) [Key V] where
  /-- The vertices that have been met. -/
  seen : KeySet V
  /-- The vertices still to be explored, the next one first. -/
  waiting : List V
  /-- The edges that have been found and not been given. -/
  pending : List (Edge V E) := []

variable [Key V] [Key E]

/-! ### Vertices of a closure -/

/-- The vertex on top of the stack is explored: the vertices that its edges lead to are pushed if they
have not been met and the edge passes the test. -/
def explore (t : Traversal V E) (g : Digraph V E) (x : Exploration V) : Exploration V :=
  match x.stack with
  | [] => x
  | v :: stack =>
    let found := g.fresh t.accepts x.seen v
    ⟨x.seen.insertMany found, found.reverse ++ stack⟩

/-- The given vertices on a stack, the last of them on top. -/
def beginClosure (t : Traversal V E) (g : Digraph V E) (vs : List V) :
    Except (Undefined V E) (Exploration V) :=
  (fun starts => ⟨.ofList starts, starts.reverse⟩) <$> t.starts g vs

/-! ### Edges that leave some vertices -/

/-- The next edge, if there is one, and what is to be enumerated behind it. -/
def nextPath (t : Traversal V E) (g : Digraph V E) :
    Enumeration V E → Option (Edge V E) × Enumeration V E
  | ⟨starts, e :: pending⟩ => (some e, ⟨starts, pending⟩)
  | ⟨v :: starts, []⟩ => t.nextPath g ⟨starts, (t.edgesFrom g v).filter t.accepts⟩
  | ⟨[], []⟩ => (none, ⟨[], []⟩)
termination_by s => (s.starts.length, s.pending.length)

/-- The edges that leave one of the given vertices and pass the test, none of which has been given. -/
def enumerate (t : Traversal V E) (g : Digraph V E) (vs : List V) :
    Except (Undefined V E) (Enumeration V E) :=
  (fun starts => { starts }) <$> t.starts g vs

/-- All edges that pass the test, none of which has been given. -/
def enumerateAll (t : Traversal V E) (g : Digraph V E) : Enumeration V E :=
  { starts := sortBy (fun v w => (t.vertexOrder v w).isLE) g.vertices }

/-! ### Edges over which a search meets vertices -/

/-- The next edge, if there is one, and the search behind it. -/
def nextMet (t : Traversal V E) (d : Discipline) (g : Digraph V E) :
    Search V E → Option (Edge V E) × Search V E
  | ⟨seen, waiting, e :: pending⟩ => (some e, ⟨seen, waiting, pending⟩)
  | ⟨seen, v :: waiting, []⟩ =>
    let found := seen.newcomers (·.target) (t.edgesFrom g v)
    let met := found.map (·.target)
    t.nextMet d g ⟨seen.insertMany met, d.extend waiting met, found.filter t.accepts⟩
  | ⟨seen, [], []⟩ => (none, ⟨seen, [], []⟩)
termination_by s => g.unseen s.seen + s.waiting.length
decreasing_by
  have := t.unseen_newcomers_edgesFrom g seen v
  simp only [Discipline.length_extend, List.length_map, List.length_cons]
  omega

/-- The search from the given vertices, of which nothing has been given. -/
def beginSearch (t : Traversal V E) (d : Discipline) (g : Digraph V E) (vs : List V) :
    Except (Undefined V E) (Search V E) :=
  (fun starts => { seen := .ofList starts, waiting := d.extend [] starts }) <$> t.starts g vs

end CaptureAutomata.Traversal
