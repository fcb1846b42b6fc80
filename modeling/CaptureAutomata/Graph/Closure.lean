/-
The closure of some vertices under the edges that pass a test:

* `Digraph.Reachable`: the vertices reached from some starts over passing edges;
* `Digraph.Explores`: what one step of an exploration keeps (`Explores.step`). All vertices met are
  reachable, and those that are not to be explored have been left over all their passing edges;
* `Digraph.closureFrom`: the search for them, which follows the vertices still to be explored one
  by one and stops because every round leaves one vertex less to meet or to explore;
* `Digraph.mem_closureFrom`: the search finds exactly the reachable vertices.
-/
import CaptureAutomata.Graph.Basic

namespace CaptureAutomata.Digraph

variable {V E : Type}

/-- `v` is one of `starts` or the target of a passing edge that leaves a reachable vertex. -/
inductive Reachable (g : Digraph V E) (follows : Edge V E → Bool) (starts : List V) : V → Prop
  /-- The starts are reachable. -/
  | start {v : V} (h : v ∈ starts) : Reachable g follows starts v
  /-- A passing edge leads on. -/
  | step {v : V} {e : Edge V E} (hv : Reachable g follows starts v) (he : e ∈ g.edgesFrom v)
      (hf : follows e = true) : Reachable g follows starts e.target

/-- What is reachable from vertices is a vertex. -/
theorem Reachable.mem_vertices {g : Digraph V E} {follows : Edge V E → Bool} {starts : List V}
    {w : V} (hs : ∀ v ∈ starts, v ∈ g.vertices) (h : g.Reachable follows starts w) :
    w ∈ g.vertices := by
  cases h with
  | start h => exact hs w h
  | step _ he _ => exact target_mem_vertices he

variable [Key V] {g : Digraph V E} {follows : Edge V E → Bool} {vs : List V} {seen : KeySet V}
  {v w : V} {waiting waiting' : List V}

/-! ### Explorations -/

/-- All vertices met can be reached, and passing edges from those that have been explored lead to
vertices met. -/
structure Explores (g : Digraph V E) (follows : Edge V E → Bool) (vs : List V) (seen : KeySet V)
    (waiting : List V) : Prop where
  /-- The starts have been met. -/
  start_mem : ∀ v ∈ vs, v ∈ seen
  /-- What has been met is reachable. -/
  reachable : ∀ v ∈ seen, g.Reachable follows vs v
  /-- What is to be explored has been met. -/
  mem_seen : ∀ v ∈ waiting, v ∈ seen
  /-- What has been met is still to be explored, or its passing edges lead to what has been met. -/
  explored : ∀ v ∈ seen, v ∈ waiting ∨ ∀ e ∈ g.edgesFrom v, follows e = true → e.target ∈ seen

/-- Before the first step the starts have been met, and are to be explored. -/
theorem Explores.begin (hseen : ∀ v, v ∈ seen ↔ v ∈ vs) (hwaiting : ∀ v, v ∈ waiting ↔ v ∈ vs) :
    g.Explores follows vs seen waiting where
  start_mem v hv := (hseen v).2 hv
  reachable v hv := .start ((hseen v).1 hv)
  mem_seen v hv := (hseen v).2 ((hwaiting v).1 hv)
  explored v hv := Or.inl ((hwaiting v).2 ((hseen v).1 hv))

/-- A step keeps this: it meets the ends of the passing edges of a vertex, and those that are new are
to be explored, in whatever place. -/
theorem Explores.step (h : g.Explores follows vs seen (v :: waiting)) {es : List (Edge V E)}
    (hes : ∀ e, e ∈ es ↔ e ∈ g.edgesFrom v ∧ follows e = true)
    (hwaiting : ∀ w, w ∈ waiting' ↔
      w ∈ waiting ∨ w ∈ (seen.newcomers (·.target) es).map (·.target)) :
    g.Explores follows vs (seen.insertMany ((seen.newcomers (·.target) es).map (·.target)))
      waiting' := by
  have hold : ∀ w ∈ seen, w ∈ seen.insertMany ((seen.newcomers (·.target) es).map (·.target)) :=
    fun w hw => KeySet.mem_insertMany_newcomers.2 (Or.inl hw)
  refine ⟨fun w hw => hold w (h.start_mem w hw), fun w hw => ?_, fun w hw => ?_, fun w hw => ?_⟩
  · rcases KeySet.mem_insertMany_newcomers.1 hw with hw | hw
    · exact h.reachable w hw
    · obtain ⟨e, he, rfl⟩ := List.mem_map.1 hw
      obtain ⟨he, hf⟩ := (hes e).1 he
      exact .step (h.reachable v (h.mem_seen v (.head _))) he hf
  · rcases (hwaiting w).1 hw with hw | hw
    · exact hold w (h.mem_seen w (.tail _ hw))
    · exact KeySet.mem_insertMany_newcomers.2 (Or.inr (KeySet.mem_map_newcomers.1 hw).1)
  · by_cases hseen : w ∈ seen
    · rcases h.explored w hseen with hwait | hedges
      · rcases List.mem_cons.1 hwait with rfl | hwait
        · -- this is the vertex that the step explores
          refine Or.inr fun e he hf => KeySet.mem_insertMany_newcomers.2 (Or.inr ?_)
          exact List.mem_map_of_mem ((hes e).2 ⟨he, hf⟩)
        · exact Or.inl ((hwaiting w).2 (Or.inl hwait))
      · exact Or.inr fun e he hf => hold e.target (hedges e he hf)
    · have hmet := (KeySet.mem_insertMany_newcomers.1 hw).resolve_left hseen
      exact Or.inl ((hwaiting w).2 (Or.inr (KeySet.mem_map_newcomers.2 ⟨hmet, hseen⟩)))

/-- With nothing to explore, all that can be reached has been met. -/
theorem Explores.mem_iff (h : g.Explores follows vs seen []) :
    v ∈ seen ↔ g.Reachable follows vs v := by
  refine ⟨h.reachable v, fun hv => ?_⟩
  induction hv with
  | start hv => exact h.start_mem _ hv
  | step _ he hf ih =>
    rcases h.explored _ ih with hwait | hedges
    · cases hwait
    · exact hedges _ he hf

/-! ### The search for a closure -/

/-- The targets outside `seen` of the passing edges that leave `v`, each once. -/
def fresh (g : Digraph V E) (follows : Edge V E → Bool) (seen : KeySet V) (v : V) : List V :=
  (seen.newcomers (·.target) ((g.edgesFrom v).filter follows)).map (·.target)

/-- Each fresh target leaves one less of the vertices unseen. -/
theorem unseen_fresh (g : Digraph V E) (follows : Edge V E → Bool) (seen : KeySet V) (v : V) :
    g.unseen (seen.insertMany (g.fresh follows seen v)) + (g.fresh follows seen v).length ≤
      g.unseen seen := by
  rw [fresh, List.length_map]
  exact unseen_newcomers fun e he => target_mem_vertices (List.mem_filter.1 he).1

/-- All vertices reachable from `seen`, those in `waiting` being still to be explored. -/
def closureFrom (g : Digraph V E) (follows : Edge V E → Bool) (seen : KeySet V) :
    (waiting : List V) → KeySet V
  | [] => seen
  | v :: waiting =>
    let found := g.fresh follows seen v
    closureFrom g follows (seen.insertMany found) (found ++ waiting)
termination_by waiting => g.unseen seen + waiting.length
decreasing_by
  have := unseen_fresh g follows seen v
  simp only [List.length_append, List.length_cons]
  omega

/-- A search that explores finds exactly the reachable vertices. -/
theorem mem_closureFrom (h : g.Explores follows vs seen waiting) :
    w ∈ g.closureFrom follows seen waiting ↔ g.Reachable follows vs w := by
  fun_induction closureFrom g follows seen waiting with
  | case1 seen => exact h.mem_iff
  | case2 seen v waiting found ih =>
    refine ih (h.step (fun e => List.mem_filter) fun u => ?_)
    rw [List.mem_append, Or.comm]
    rfl

end CaptureAutomata.Digraph
