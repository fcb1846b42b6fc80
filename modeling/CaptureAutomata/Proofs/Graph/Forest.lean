/-
Searches make forests, and those that explore what was met first make shortest ones:

* `SpanningForest`: edges, one into each vertex that is reached and is no start, of which each leaves a
  start or a vertex that an earlier one enters. They lead to all vertices that are reached
  (`SpanningForest.exists_walk`);
* `ShortestForest`: the way to a vertex over such edges is as short as any, and near vertices come first;
* `Traversal.discoveries`: the edges of one round of a search, with which it explores as a closure does
  (`explores_round`);
* `Traversal.Layered`: what a round of a breadth-first search keeps. The vertices that wait are those at
  some distance and then those one farther, and all nearer ones have been explored;
* `Traversal.lists_nextMet`: step by step a search gives the edges that pass the test;
* `Traversal.search_isForest`: the forest of a search from any starts under any orders.
-/
import CaptureAutomata.Iterator
import CaptureAutomata.Proofs.Graph.Closure

namespace CaptureAutomata

/-! ### Forests -/

section Forest

variable {V E : Type} {P : Edge V E → Prop} {starts : List V} {es : List (Edge V E)}

/-- Edges that enter each vertex once that is no start and that edges of the kind `P` lead to, in an
order in which each of them leaves a vertex that has been reached. -/
structure SpanningForest (P : Edge V E → Prop) (starts : List V) (es : List (Edge V E)) : Prop where
  /-- The edges are of the kind. -/
  hasEdge : ∀ e ∈ es, P e
  /-- No vertex is entered twice. -/
  nodup_targets : (es.map (·.target)).Nodup
  /-- The vertices that are entered are those that walks lead to, without the starts. -/
  mem_targets : ∀ v, v ∈ es.map (·.target) ↔ v ∉ starts ∧ ∃ n, Walk P starts n v
  /-- An edge leaves a start or a vertex that an edge before it enters. -/
  source_reached : ∀ before e after, es = before ++ e :: after →
    e.source ∈ starts ∨ ∃ f ∈ before, f.target = e.source

/-- A forest on which all ways from the starts are as short as possible, edges to near vertices first. -/
structure ShortestForest (P : Edge V E → Prop) (starts : List V) (es : List (Edge V E)) : Prop where
  /-- The edges lead from the starts wherever any walk does. -/
  exists_walk : ∀ v, (∃ n, Walk P starts n v) → ∃ n, Walk (· ∈ es) starts n v
  /-- No walk leads to a vertex over fewer edges. -/
  distance : ∀ v n, Walk (· ∈ es) starts n v → Distance P starts v n
  /-- An edge leads no farther than those behind it. -/
  pairwise_le : es.Pairwise fun e f =>
    ∀ m n, Distance P starts e.target m → Distance P starts f.target n → m ≤ n

lemma Distance.unique {v : V} {m n : ℕ} (hm : Distance P starts v m) (hn : Distance P starts v n) :
    m = n :=
  Nat.le_antisymm (hm.2 n hn.1) (hn.2 m hm.1)

/-- The edges of a forest lead to what its first edges enter. -/
lemma SpanningForest.exists_walk_target (h : SpanningForest P starts es) (before : List (Edge V E))
    (e : Edge V E) (after : List (Edge V E)) (hes : es = before ++ e :: after) :
    ∃ n, Walk (· ∈ es) starts n e.target := by
  have he : e ∈ es := hes ▸ List.mem_append.2 (Or.inr (.head _))
  rcases h.source_reached before e after hes with hstart | ⟨f, hf, htarget⟩
  · exact ⟨1, .step (.start hstart) he⟩
  · -- the source is entered by an edge that comes before
    obtain ⟨earlier, between, hbefore⟩ := List.append_of_mem hf
    obtain ⟨n, hn⟩ := h.exists_walk_target earlier f (between ++ e :: after)
      (by rw [hes, hbefore, List.append_assoc, List.cons_append])
    exact ⟨n + 1, .step (htarget ▸ hn) he⟩
termination_by before.length
decreasing_by
  rw [hbefore]
  simp

/-- The edges of a forest lead to all vertices that walks lead to. -/
lemma SpanningForest.exists_walk (h : SpanningForest P starts es) {v : V}
    (hv : ∃ n, Walk P starts n v) : ∃ n, Walk (· ∈ es) starts n v := by
  by_cases hstart : v ∈ starts
  · exact ⟨0, .start hstart⟩
  · obtain ⟨e, he, rfl⟩ := List.mem_map.1 ((h.mem_targets v).2 ⟨hstart, hv⟩)
    obtain ⟨before, after, hes⟩ := List.append_of_mem he
    exact h.exists_walk_target before e after hes

/-- If each edge of a forest leads one farther, walks over its edges are as short as any. -/
lemma distance_of_walk (h : ∀ e ∈ es, ∃ n, Distance P starts e.source n ∧
    Distance P starts e.target (n + 1)) {v : V} {n : ℕ} (hv : Walk (· ∈ es) starts n v) :
    Distance P starts v n := by
  induction hv with
  | start hv => exact ⟨.start hv, fun _ _ => Nat.zero_le _⟩
  | step _ he ih =>
      obtain ⟨n, hsource, htarget⟩ := h _ he
      obtain rfl := ih.unique hsource
      exact htarget

end Forest

/-! ### Newcomers and walks -/

/-- No two newcomers have the same key. -/
lemma KeySet.nodup_map_newcomers {α β : Type} [Key α] {key : β → α} (s : KeySet α) (l : List β) :
    ((newcomers key s l).map key).Nodup := by
  induction l generalizing s with
  | nil => exact .nil
  | cons b l ih =>
      rw [newcomers]
      split
      · exact ih s
      · refine List.nodup_cons.2 ⟨fun h => ?_, ih _⟩
        exact (mem_map_newcomers.1 h).2 (by simp)

/-- Over all edges those vertices are reachable that walks lead to. -/
lemma Digraph.reachable_iff_walk {V E : Type} {g : Digraph V E} {vs : List V} {v : V} :
    g.Reachable (fun _ => true) vs v ↔ ∃ n, Walk g.HasEdge vs n v := by
  constructor
  · intro h
    induction h with
    | start h => exact ⟨0, .start h⟩
    | step _ he _ ih =>
        obtain ⟨n, hn⟩ := ih
        obtain rfl := source_of_mem_edgesFrom he
        exact ⟨n + 1, .step hn he⟩
  · rintro ⟨n, hn⟩
    induction hn with
    | start h => exact .start h
    | step _ he ih => exact .step ih he rfl

namespace Traversal

variable {V E : Type} [Key V] [Key E] {t : Traversal V E} {d : Discipline} {g : Digraph V E}
  {vs : List V} {seen : KeySet V} {v w : V} {waiting : List V} {e : Edge V E}

/-! ### One round of a search -/

/-- The edges that leave a vertex and enter one that has not been met, one for each. -/
def discoveries (t : Traversal V E) (g : Digraph V E) (seen : KeySet V) (v : V) : List (Edge V E) :=
  seen.newcomers (·.target) (t.edgesFrom g v)

/-- A round goes over edges of the graph to vertices that have not been met. -/
lemma of_mem_discoveries (h : e ∈ t.discoveries g seen v) : e ∈ g.edgesFrom v ∧ e.target ∉ seen := by
  obtain ⟨he, hseen⟩ := KeySet.of_mem_newcomers h
  exact ⟨mem_sortBy.1 he, hseen⟩

omit [Key V] [Key E] in
@[simp] lemma Discipline.mem_extend {waiting found : List V} :
    v ∈ d.extend waiting found ↔ v ∈ waiting ∨ v ∈ found := by
  cases d with
  | breadthFirst => simp [extend]
  | depthFirst => simp [extend, or_comm]

/-- A round keeps what an exploration does. -/
lemma explores_round (h : g.Explores (fun _ => true) vs seen (v :: waiting)) :
    g.Explores (fun _ => true) vs (seen.insertMany ((t.discoveries g seen v).map (·.target)))
      (d.extend waiting ((t.discoveries g seen v).map (·.target))) := by
  refine h.step (fun e => ?_) fun w => Discipline.mem_extend
  rw [edgesFrom, mem_sortBy]
  exact (and_iff_left rfl).symm

/-! ### The forest of a search -/

/-- A search goes over edges of the graph. -/
lemma hasEdge_of_mem_searchFrom (h : e ∈ t.searchFrom d g seen waiting) : g.HasEdge e := by
  fun_induction searchFrom t d g seen waiting with
  | case1 => cases h
  | case2 seen v waiting found met ih =>
      rcases List.mem_append.1 h with h | h
      · have he := (of_mem_discoveries h).1
        rwa [← Digraph.source_of_mem_edgesFrom he] at he
      · exact ih h

/-- A search enters no vertex that has been met, and none twice. -/
lemma nodup_targets_searchFrom (t : Traversal V E) (d : Discipline) (g : Digraph V E) (seen : KeySet V)
    (waiting : List V) :
    ((t.searchFrom d g seen waiting).map (·.target)).Nodup ∧
      ∀ v ∈ (t.searchFrom d g seen waiting).map (·.target), v ∉ seen := by
  fun_induction searchFrom t d g seen waiting with
  | case1 => exact ⟨.nil, fun _ h => nomatch h⟩
  | case2 seen v waiting found met ih =>
      obtain ⟨hnodup, hfresh⟩ := ih
      rw [List.map_append]
      refine ⟨(KeySet.nodup_map_newcomers seen _).append hnodup fun w hw hw' => ?_, fun w hw hseen => ?_⟩
      · exact hfresh w hw'
          (KeySet.mem_insertMany_newcomers.2 (Or.inr (KeySet.mem_map_newcomers.1 hw).1))
      · rcases List.mem_append.1 hw with hw | hw
        · exact (KeySet.mem_map_newcomers.1 hw).2 hseen
        · exact hfresh w hw (by simpa using Or.inl hseen)

/-- A search goes on from what has been met. -/
lemma source_of_searchFrom_eq (t : Traversal V E) (d : Discipline) (g : Digraph V E) (seen : KeySet V)
    (waiting : List V) (e : Edge V E) (after : List (Edge V E)) :
    ∀ before, t.searchFrom d g seen waiting = before ++ e :: after →
      e.source ∈ waiting ∨ ∃ f ∈ before, f.target = e.source := by
  fun_induction searchFrom t d g seen waiting with
  | case1 => simp
  | case2 seen v waiting found met ih =>
      intro before h
      -- of an edge of a later round, the source was waiting or has been met in this one
      have hlater : ∀ rest, searchFrom t d g (seen.insertMany met) (d.extend waiting met) =
          rest ++ e :: after → e.source ∈ v :: waiting ∨ ∃ f ∈ found ++ rest, f.target = e.source := by
        intro rest hrest
        rcases ih rest hrest with hsource | ⟨f, hf, htarget⟩
        · rcases Discipline.mem_extend.1 hsource with hsource | hsource
          · exact Or.inl (.tail _ hsource)
          · obtain ⟨f, hf, htarget⟩ := List.mem_map.1 hsource
            exact Or.inr ⟨f, List.mem_append.2 (Or.inl hf), htarget⟩
        · exact Or.inr ⟨f, List.mem_append.2 (Or.inr hf), htarget⟩
      rcases List.append_eq_append_iff.1 h with ⟨rest, rfl, hrest⟩ | ⟨_ | ⟨e', rest⟩, hfound, hrest⟩
      · exact hlater rest hrest
      · rw [List.append_nil] at hfound
        exact hfound ▸ List.append_nil found ▸ hlater [] hrest.symm
      · obtain ⟨rfl, -⟩ := List.cons.inj hrest
        have he : e ∈ found := hfound ▸ List.mem_append.2 (Or.inr (.head _))
        exact Or.inl (Digraph.source_of_mem_edgesFrom (of_mem_discoveries he).1 ▸ .head _)

/-- What is reachable has been met or is entered. -/
lemma mem_targets_searchFrom (h : g.Explores (fun _ => true) vs seen waiting) :
    w ∈ seen ∨ w ∈ (t.searchFrom d g seen waiting).map (·.target) ↔
      g.Reachable (fun _ => true) vs w := by
  fun_induction searchFrom t d g seen waiting with
  | case1 => rw [List.map_nil, ← h.mem_iff]; simp
  | case2 seen v waiting found met ih =>
      rw [← ih (explores_round h), List.map_append, List.mem_append, ← or_assoc,
        Std.ExtTreeSet.mem_insertMany_list, List.contains_iff_mem]

/-- A search from vertices enters what is reachable from them, besides themselves. -/
lemma spanningForest_searchFrom (h : g.Explores (fun _ => true) vs seen waiting)
    (hseen : ∀ v, v ∈ seen ↔ v ∈ vs) (hwaiting : ∀ v ∈ waiting, v ∈ vs) :
    SpanningForest g.HasEdge vs (t.searchFrom d g seen waiting) where
  hasEdge _ he := hasEdge_of_mem_searchFrom he
  nodup_targets := (t.nodup_targets_searchFrom d g seen waiting).1
  mem_targets w := by
    rw [← Digraph.reachable_iff_walk, ← mem_targets_searchFrom (t := t) (d := d) h, ← hseen]
    constructor
    · exact fun hw => ⟨(t.nodup_targets_searchFrom d g seen waiting).2 w hw, Or.inr hw⟩
    · exact fun hw => hw.2.resolve_left hw.1
  source_reached before e after hes :=
    (t.source_of_searchFrom_eq d g seen waiting e after before hes).imp_left (hwaiting _)

/-! ### The layers of a breadth-first search -/

/-- The vertices to be explored are some that `k` edges lead to and then some one farther, and all that
`k` edges or fewer lead to have been met. -/
structure Layered (g : Digraph V E) (vs : List V) (k : ℕ) (seen : KeySet V) (now later : List V) :
    Prop where
  /-- Vertices that have been met are to be explored or have been left over all their edges. -/
  explores : g.Explores (fun _ => true) vs seen (now ++ later)
  /-- The layer that is being explored. -/
  distance_now : ∀ v ∈ now, Distance g.HasEdge vs v k
  /-- The layer behind it, as far as it has been met. -/
  distance_later : ∀ v ∈ later, Distance g.HasEdge vs v (k + 1)
  /-- The layers up to the one that is being explored. -/
  near : ∀ n v, n ≤ k → Walk g.HasEdge vs n v → v ∈ seen

variable {k : ℕ} {now later : List V}

omit [Key E] in
/-- When a layer has been explored, the one behind it has been met. -/
lemma Layered.advance (h : Layered g vs k seen [] later) : Layered g vs (k + 1) seen later [] where
  explores := by simpa using h.explores
  distance_now := h.distance_later
  distance_later _ hv := nomatch hv
  near n v hn hv := by
    rcases Nat.lt_or_ge k n with hlt | hle
    · obtain rfl : n = k + 1 := by omega
      cases hv with
      | step hsource hedge =>
          -- the source has been explored, as vertices of the layer behind it are farther
          rcases h.explores.explored _ (h.near k _ le_rfl hsource) with hlater | htargets
          · have := (h.distance_later _ hlater).2 k hsource
            omega
          · exact htargets _ hedge rfl
    · exact h.near n v hle hv

omit [Key E] in
/-- The next vertex to be explored is in a layer with those before which it was met. -/
lemma Layered.exists_cons (h : Layered g vs k seen now later) (hv : now ++ later = v :: waiting) :
    ∃ k' now' later', k ≤ k' ∧ waiting = now' ++ later' ∧ Layered g vs k' seen (v :: now') later' := by
  cases now with
  | nil =>
      obtain rfl : later = v :: waiting := hv
      exact ⟨k + 1, waiting, [], Nat.le_succ k, (List.append_nil _).symm, h.advance⟩
  | cons u now =>
      obtain ⟨rfl, rfl⟩ := List.cons.inj hv
      exact ⟨k, now, later, le_rfl, rfl, h⟩

/-- An edge to a vertex that has not been met leads one farther. -/
lemma Layered.distance_of_mem_discoveries (h : Layered g vs k seen (v :: now) later)
    (he : e ∈ t.discoveries g seen v) :
    Distance g.HasEdge vs e.source k ∧ Distance g.HasEdge vs e.target (k + 1) := by
  obtain ⟨hedge, hfresh⟩ := of_mem_discoveries he
  obtain rfl := Digraph.source_of_mem_edgesFrom hedge
  have hsource := h.distance_now _ (.head _)
  refine ⟨hsource, .step hsource.1 hedge, fun n hn => ?_⟩
  by_contra hlt
  exact hfresh (h.near n _ (by omega) hn)

/-- A round keeps the layers. -/
lemma Layered.round (h : Layered g vs k seen (v :: now) later) :
    Layered g vs k (seen.insertMany ((t.discoveries g seen v).map (·.target))) now
      (later ++ (t.discoveries g seen v).map (·.target)) where
  explores := by
    rw [← List.append_assoc]
    exact explores_round (d := .breadthFirst) h.explores
  distance_now w hw := h.distance_now w (.tail _ hw)
  distance_later w hw := by
    rcases List.mem_append.1 hw with hw | hw
    · exact h.distance_later w hw
    · obtain ⟨e, he, rfl⟩ := List.mem_map.1 hw
      exact (h.distance_of_mem_discoveries he).2
  near n w hn hw := KeySet.mem_insertMany_newcomers.2 (Or.inl (h.near n w hn hw))

/-- The edges of a breadth-first search lead one farther each, and no farther than those behind them. -/
lemma distance_searchFrom (t : Traversal V E) (seen : KeySet V) (waiting : List V) :
    ∀ k now later, Layered g vs k seen now later → waiting = now ++ later →
      (∀ e ∈ t.searchFrom .breadthFirst g seen waiting, ∃ n, k ≤ n ∧
        Distance g.HasEdge vs e.source n ∧ Distance g.HasEdge vs e.target (n + 1)) ∧
      (t.searchFrom .breadthFirst g seen waiting).Pairwise fun e f =>
        ∀ m n, Distance g.HasEdge vs e.target m → Distance g.HasEdge vs f.target n → m ≤ n := by
  fun_induction searchFrom t .breadthFirst g seen waiting with
  | case1 => exact fun _ _ _ _ _ => ⟨fun _ he => (nomatch he), .nil⟩
  | case2 seen v waiting found met ih =>
      intro k now later h hwaiting
      obtain ⟨k', now', later', hk, hrest, hlayered⟩ := h.exists_cons hwaiting.symm
      have hfound : ∀ e ∈ found, Distance g.HasEdge vs e.source k' ∧
          Distance g.HasEdge vs e.target (k' + 1) :=
        fun e he => hlayered.distance_of_mem_discoveries he
      obtain ⟨hlater, hpairwise⟩ := ih k' now' (later' ++ met) hlayered.round
        (by rw [hrest, Discipline.extend, List.append_assoc])
      refine ⟨fun e he => ?_, List.pairwise_append.2 ⟨?_, hpairwise, fun e he f hf m n hm hn => ?_⟩⟩
      · rcases List.mem_append.1 he with he | he
        · exact ⟨k', hk, hfound e he⟩
        · obtain ⟨n, hn, hdistance⟩ := hlater e he
          exact ⟨n, hk.trans hn, hdistance⟩
      · refine List.pairwise_of_forall_mem_list fun e he f hf m n hm hn => ?_
        rw [hm.unique (hfound e he).2, hn.unique (hfound f hf).2]
      · obtain ⟨n', hn', -, htarget⟩ := hlater f hf
        rw [hm.unique (hfound e he).2, hn.unique htarget]
        omega

/-- A breadth-first search from vertices takes a shortest way to each vertex. -/
lemma shortestForest_searchFrom (h : g.Explores (fun _ => true) vs seen waiting)
    (hseen : ∀ v, v ∈ seen ↔ v ∈ vs) (hwaiting : ∀ v ∈ waiting, v ∈ vs) :
    ShortestForest g.HasEdge vs (t.searchFrom .breadthFirst g seen waiting) := by
  have hlayered : Layered g vs 0 seen waiting [] := by
    refine ⟨by rwa [List.append_nil], fun v hv => ?_, fun _ hv => (nomatch hv), fun n v hn hv => ?_⟩
    · exact ⟨.start (hwaiting v hv), fun _ _ => Nat.zero_le _⟩
    · obtain rfl := Nat.le_zero.1 hn
      cases hv with
      | start hv => exact (hseen v).2 hv
  obtain ⟨hdistance, hpairwise⟩ :=
    t.distance_searchFrom seen waiting 0 waiting [] hlayered (List.append_nil waiting).symm
  refine ⟨fun v => (spanningForest_searchFrom h hseen hwaiting).exists_walk, fun v n => ?_, hpairwise⟩
  refine distance_of_walk fun e he => ?_
  obtain ⟨m, -, hm⟩ := hdistance e he
  exact ⟨m, hm⟩

/-! ### The search step by step -/

/-- A search goes over the same edges whatever the test. -/
lemma searchFrom_accepts (t : Traversal V E) (accepts : Edge V E → Bool) (d : Discipline)
    (g : Digraph V E) (seen : KeySet V) (waiting : List V) :
    searchFrom { t with accepts } d g seen waiting = t.searchFrom d g seen waiting := by
  fun_induction searchFrom t d g seen waiting with
  | case1 => rw [searchFrom]
  | case2 seen v waiting found met ih =>
      rw [searchFrom]
      exact congrArg (found ++ ·) ih

/-- Each step of a search gives the first edge that is left and passes the test. -/
lemma lists_nextMet (t : Traversal V E) (d : Discipline) (g : Digraph V E) :
    Iterator.Lists (t.nextMet d g) fun s =>
      s.pending ++ (t.searchFrom d g s.seen s.waiting).filter t.accepts := by
  refine .of_call fun s => ?_
  fun_induction nextMet t d g s with
  | case1 seen waiting e pending => exact ⟨rfl, rfl⟩
  | case2 seen v waiting found met ih =>
      rw [List.nil_append, searchFrom, List.filter_append]
      exact ih
  | case3 seen =>
      rw [searchFrom]
      exact ⟨rfl, rfl⟩

/-- The two searches from vertices, under any orders, make forests. Without a test the edges of a search
enter each vertex that is reachable and no start once, and no other, and each of them leaves a start or a
vertex that has been entered. Those of a breadth-first search make shortest ways from the starts, and
lead to near vertices first. With a test a search gives those of its edges that pass it, one at each
step, and then nothing. -/
theorem search_isForest (t : Traversal V E) (d : Discipline) (g : LabelledGraph V E)
    (h : ∀ v ∈ vs, g.contains v = true) :
    ∃ es, search { t with accepts := fun _ => true } d g.toDigraph vs = .ok es ∧
      SpanningForest g.HasEdge vs es ∧ (d = .breadthFirst → ShortestForest g.HasEdge vs es) ∧
      t.search d g.toDigraph vs = .ok (es.filter t.accepts) ∧
      ∃ begun, t.beginSearch d g.toDigraph vs = .ok begun ∧
        ∀ n, Iterator.nth (t.nextMet d g.toDigraph) begun n = (es.filter t.accepts)[n]? := by
  obtain ⟨ss, hs⟩ := exists_starts (t := t) fun v hv => LabelledGraph.mem_vertices_iff.2 (h v hv)
  have hseen : ∀ v, v ∈ (.ofList ss : KeySet V) ↔ v ∈ vs := fun v => by simpa using mem_starts hs
  have hwaiting : ∀ v, v ∈ d.extend [] ss ↔ v ∈ vs :=
    fun v => by simpa using mem_starts hs
  have hbegun : g.toDigraph.Explores (fun _ => true) vs (.ofList ss) (d.extend [] ss) :=
    .begin hseen hwaiting
  have hedge : g.toDigraph.HasEdge = g.HasEdge :=
    funext fun e => propext LabelledGraph.hasEdge_toDigraph
  have hall : search { t with accepts := fun _ => true } d g.toDigraph vs =
      .ok (t.searchFrom d g.toDigraph (.ofList ss) (d.extend [] ss)) := by
    rw [search, show starts { t with accepts := fun _ => true } g.toDigraph vs = .ok ss from hs]
    exact congrArg Except.ok ((List.filter_true _).trans (t.searchFrom_accepts ..))
  refine ⟨_, hall, ?_, ?_, by rw [search, hs]; rfl, _, by rw [beginSearch, hs]; rfl, fun n => ?_⟩
  · exact hedge ▸ spanningForest_searchFrom hbegun hseen fun v => (hwaiting v).1
  · rintro rfl
    exact hedge ▸ shortestForest_searchFrom hbegun hseen fun v => (hwaiting v).1
  · exact (t.lists_nextMet d g.toDigraph).nth_eq _ n

/-- Two ways from 1 to 3, and one on to 4. -/
private def twoWays : DeterministicGraph.Builder Nat Char :=
  (((({} : DeterministicGraph.Builder Nat Char).path 1 'a' 2).path 2 'b' 3).path 1 'c' 3).path 3 'd' 4

/-- Under an order that puts all vertices level the start 1 is explored twice, before and behind the
start 2. The breadth-first search enters 3 from 1 and 4 from 3, each once, all the same. -/
theorem search_isForest_of_level_starts :
    ∃ g, twoWays.build = .ok g ∧ (∀ v ∈ [1, 2, 1], g.contains v = true) ∧
      SpanningForest (LabelledGraph.deterministic g).HasEdge [1, 2, 1] [⟨1, 'c', 3⟩, ⟨3, 'd', 4⟩] ∧
      ShortestForest (LabelledGraph.deterministic g).HasEdge [1, 2, 1] [⟨1, 'c', 3⟩, ⟨3, 'd', 4⟩] := by
  obtain ⟨g, hg, hvertices, hedges⟩ := exists_ok_of_decide (x := twoWays.build)
    (P := fun g => [1, 2, 1].all g.contains = true ∧
      (search { vertexOrder := fun _ _ => .eq } .breadthFirst g.toDigraph [1, 2, 1]).toOption =
        some ([⟨1, 'c', 3⟩, ⟨3, 'd', 4⟩] : List (Edge Nat Char))) (by decide +kernel)
  rw [List.all_eq_true] at hvertices
  obtain ⟨es, hes, hspanning, hshortest, -⟩ :=
    search_isForest { vertexOrder := fun _ _ => .eq } .breadthFirst (.deterministic g) hvertices
  obtain rfl : es = [⟨1, 'c', 3⟩, ⟨3, 'd', 4⟩] :=
    Option.some.inj ((congrArg Except.toOption hes).symm.trans hedges)
  exact ⟨g, hg, hvertices, hspanning, hshortest rfl⟩

end Traversal

end CaptureAutomata
