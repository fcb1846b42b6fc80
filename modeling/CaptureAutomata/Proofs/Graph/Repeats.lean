/-
How often a traversal gives an edge:

* `pairwise_sortBy`, `sublist_sortBy`: a sorted list is in order, and members that are in order among
  themselves keep their places;
* `filter_sortBy`, `eq_append_of_pairwise`: sorting brings the members that are level with one another
  together, and leaves them as they were given;
* `Traversal.count_dropRepeats_eq_one_iff`, `Traversal.count_dropRepeats_of_pairwise`: when of equal
  neighbours one is left, a member is left once unless there is another one between two copies of it. In
  a list in order that can only be one level with it;
* `Traversal.stretches`, `Traversal.Revisits`: so many times a vertex is a start, and whether it is one
  again behind a vertex that is level with it;
* `Traversal.count_pathsFrom`: an edge is given once for each time that its source is a start;
* `Traversal.lists_nextPath`: step by step;
* `Traversal.paths_perm_iff`: which edges are given does not depend on the orders, but how often each of
  them is given does.
-/
import CaptureAutomata.Graph.Steps
import CaptureAutomata.Iterator
import CaptureAutomata.Proofs.Graph.Edges

namespace CaptureAutomata

/-! ### Sorting by an order that puts members level -/

section Sorting

variable {α : Type} {le : α → α → Bool}

/-- Inserting into a list in order leaves it in order. -/
lemma pairwise_insertBy (trans : ∀ a b c, le a b → le b c → le a c)
    (total : ∀ a b, le a b || le b a) {a : α} {l : List α} (h : l.Pairwise fun a b => le a b) :
    (insertBy le a l).Pairwise fun a b => le a b := by
  induction l with
  | nil => simp [insertBy]
  | cons b l ih =>
    obtain ⟨hb, hl⟩ := List.pairwise_cons.1 h
    rw [insertBy]
    split
    next hab =>
      refine List.pairwise_cons.2 ⟨fun c hc => ?_, h⟩
      rcases List.mem_cons.1 hc with rfl | hc
      · exact hab
      · exact trans a b c hab (hb c hc)
    next hab =>
      refine List.pairwise_cons.2 ⟨fun c hc => ?_, ih hl⟩
      rcases List.mem_cons.1 ((perm_insertBy a l).mem_iff.1 hc) with rfl | hc
      · simpa [hab] using total c b
      · exact hb c hc

/-- A sorted list is in order. -/
lemma pairwise_sortBy (trans : ∀ a b c, le a b → le b c → le a c)
    (total : ∀ a b, le a b || le b a) (l : List α) :
    (sortBy le l).Pairwise fun a b => le a b := by
  induction l with
  | nil => exact .nil
  | cons a l ih => exact pairwise_insertBy trans total ih

/-- Inserting keeps the places of the other members. -/
lemma sublist_insertBy (a : α) (l : List α) : l.Sublist (insertBy le a l) := by
  induction l with
  | nil => exact List.nil_sublist _
  | cons b l ih =>
    rw [insertBy]
    split
    · exact List.sublist_cons_self a _
    · exact ih.cons_cons b

/-- Inserting puts a member before those that may stand behind it. -/
lemma cons_sublist_insertBy {a : α} {c l : List α} (hc : c.Sublist l) (ha : ∀ b ∈ c, le a b) :
    (a :: c).Sublist (insertBy le a l) := by
  induction hc with
  | slnil => exact .refl _
  | cons b hc ih =>
    rw [insertBy]
    split
    · exact (hc.cons b).cons_cons a
    · exact (ih ha).cons b
  | cons_cons b hc =>
    rw [insertBy]
    rw [if_pos (ha b (.head _))]
    exact (hc.cons_cons b).cons_cons a

/-- Members that are in order among themselves keep their places. -/
lemma sublist_sortBy {c l : List α} (hc : c.Sublist l) (ho : c.Pairwise fun a b => le a b) :
    c.Sublist (sortBy le l) := by
  induction hc with
  | slnil => exact .refl _
  | cons a _ ih => exact (ih ho).trans (sublist_insertBy a _)
  | cons_cons a _ ih =>
    obtain ⟨ha, ho⟩ := List.pairwise_cons.1 ho
    exact cons_sublist_insertBy (ih ho) ha

variable {cmp : α → α → Ordering} [Std.TransCmp cmp]

lemma isLE_or_isLE (a b : α) : (cmp a b).isLE || (cmp b a).isLE := by
  have hswap : cmp b a = (cmp a b).swap := Std.OrientedCmp.eq_swap
  rw [hswap]
  cases cmp a b <;> rfl

/-- Sorting leaves the members as they were given that are level with one value. -/
lemma filter_sortBy (a : α) (l : List α) :
    (sortBy (fun b c => (cmp b c).isLE) l).filter (cmp a · = .eq) = l.filter (cmp a · = .eq) := by
  have hlevel : (l.filter (cmp a · = .eq)).Pairwise fun b c => (cmp b c).isLE :=
    List.pairwise_of_forall_mem_list fun b hb c hc => by
      have hab : cmp a b = .eq := by simpa using (List.mem_filter.1 hb).2
      have hac : cmp a c = .eq := by simpa using (List.mem_filter.1 hc).2
      rw [← Std.TransCmp.congr_left hab, hac]
      rfl
  have hsub := (sublist_sortBy List.filter_sublist hlevel).filter (cmp a · = .eq)
  rw [List.filter_filter] at hsub
  simp only [Bool.and_self] at hsub
  exact (hsub.eq_of_length ((perm_sortBy l).filter _).length_eq.symm).symm

/-- A list in order is made of what comes before a value, what is level with it and what comes behind
it. -/
lemma eq_append_of_pairwise {l : List α} (h : l.Pairwise fun b c => (cmp b c).isLE) (a : α) :
    l = l.filter (cmp a · = .gt) ++ (l.filter (cmp a · = .eq) ++ l.filter (cmp a · = .lt)) := by
  induction h with
  | nil => rfl
  | @cons b l hb h ih =>
      -- nothing behind `b` comes before it, whatever `b` is to `a`
      have hle : cmp a b ≠ .gt → ∀ c ∈ l, (cmp a c).isLE := fun hab c hc =>
        Std.TransCmp.isLE_trans (Ordering.ne_gt_iff_isLE.1 hab) (hb c hc)
      have hlt : cmp a b = .lt → ∀ c ∈ l, cmp a c = .lt := fun hab c hc =>
        Std.TransCmp.lt_of_lt_of_isLE hab (hb c hc)
      cases hab : cmp a b with
      | gt => simpa [hab] using ih
      | eq =>
          have hgt : l.filter (cmp a · = .gt) = [] := List.filter_eq_nil_iff.2 fun c hc => by
            simpa using Ordering.ne_gt_iff_isLE.2 (hle (by simp [hab]) c hc)
          rw [hgt, List.nil_append] at ih
          simpa [hab, hgt] using ih
      | lt =>
          have hall : ∀ o, o ≠ .lt → l.filter (cmp a · = o) = [] := fun o ho =>
            List.filter_eq_nil_iff.2 fun c hc => by simpa [hlt hab c hc] using ho.symm
          rw [hall .gt (by decide), hall .eq (by decide), List.nil_append, List.nil_append] at ih
          simpa [hab, hall .gt (by decide), hall .eq (by decide)] using ih

end Sorting

/-! ### Neighbours that are equal -/

namespace Traversal

section Repeats

variable {V : Type} [Key V] {v : V} {l l' c : List V}

/-- The members are left that a list is destuttered to. -/
lemma dropRepeats_eq_destutter (l : List V) : dropRepeats l = l.destutter (· ≠ ·) := by
  fun_induction dropRepeats l with
  | case1 => rfl
  | case2 => rfl
  | case3 w l ih => rw [ih, List.destutter_cons_cons, if_neg (not_not.2 rfl), List.destutter_cons']
  | case4 v w l hne ih => rw [ih, List.destutter_cons_cons, if_pos hne, List.destutter_cons']

/-- What has no equal neighbours is left within what is left of a longer list. -/
lemma sublist_dropRepeats (l : List V) :
    ∀ c : List V, c.Sublist l → c.IsChain (· ≠ ·) → c.Sublist (dropRepeats l) := by
  fun_induction dropRepeats l with
  | case1 => exact fun _ h _ => h
  | case2 => exact fun _ h _ => h
  | case3 w l ih =>
      intro c h hc
      refine ih c ?_ hc
      cases h with
      | cons _ h => exact h
      | cons_cons _ h =>
          cases h with
          | cons _ h => exact h.cons_cons w
          | cons_cons _ h => exact absurd rfl (List.isChain_cons_cons.1 hc).1
  | case4 v w l hne ih =>
      intro c h hc
      cases h with
      | cons _ h => exact (ih c h hc).cons v
      | cons_cons _ h => exact (ih _ h hc.tail).cons_cons v

/-- Of two lists without a common member each keeps its own. -/
lemma dropRepeats_append (l' : List V) (h : ∀ v ∈ l, v ∉ l') :
    dropRepeats (l ++ l') = dropRepeats l ++ dropRepeats l' := by
  fun_induction dropRepeats l with
  | case1 => rfl
  | case2 v =>
      cases l' with
      | nil => rfl
      | cons w l' =>
          have hne : v ≠ w := fun hvw => h v (.head _) (hvw ▸ .head _)
          rw [List.singleton_append, dropRepeats, if_neg hne, List.singleton_append]
  | case3 w l ih =>
      rw [List.cons_append, List.cons_append, dropRepeats, if_pos rfl]
      exact ih fun v hv => h v (.tail _ hv)
  | case4 v w l hne ih =>
      rw [List.cons_append, List.cons_append, dropRepeats, if_neg hne, List.cons_append]
      exact congrArg (v :: ·) (ih fun v hv => h v (.tail _ hv))

omit [Key V] in
/-- Between two copies of a member in a list without equal neighbours there is another one. -/
lemma exists_sublist_of_isChain (h : [v, v].Sublist l) (hl : l.IsChain (· ≠ ·)) :
    ∃ u, u ≠ v ∧ [v, u, v].Sublist l := by
  induction l with
  | nil => cases h
  | cons w l ih =>
      cases h with
      | cons _ h =>
          obtain ⟨u, hu, hsub⟩ := ih h hl.tail
          exact ⟨u, hu, hsub.cons w⟩
      | cons_cons _ h =>
          -- the list begins with `v`, so the member behind it is the one in between
          cases h with
          | cons u h =>
              exact ⟨u, (List.isChain_cons_cons.1 hl).1.symm, (h.cons_cons u).cons_cons v⟩
          | cons_cons _ h => exact absurd rfl (List.isChain_cons_cons.1 hl).1

/-- A member is left once unless another one stands between two copies of it. -/
lemma count_dropRepeats_eq_one_iff (hv : v ∈ l) :
    (dropRepeats l).count v = 1 ↔ ∀ u, [v, u, v].Sublist l → u = v := by
  have hpos : 1 ≤ (dropRepeats l).count v := List.one_le_count_iff.2 (mem_dropRepeats.2 hv)
  constructor
  · intro hone u hsub
    by_contra hu
    have hchain : [v, u, v].IsChain (· ≠ ·) := by simp [hu, Ne.symm hu]
    have hcount := (sublist_dropRepeats l _ hsub hchain).count_le v
    simp [hone, hu] at hcount
  · intro h
    by_contra hne
    have htwice : [v, v].Sublist (dropRepeats l) :=
      List.replicate_sublist_iff (n := 2).2 (by omega)
    rw [dropRepeats_eq_destutter] at htwice
    obtain ⟨u, hu, hsub⟩ := exists_sublist_of_isChain htwice (List.isChain_destutter _ l)
    exact hu (h u (hsub.trans (List.destutter_sublist _ l)))

/-- In a list in order only the members that are level with `v` keep copies of it apart. -/
lemma count_dropRepeats_of_pairwise {cmp : V → V → Ordering} [Std.TransCmp cmp]
    (h : l.Pairwise fun v w => (cmp v w).isLE) :
    (dropRepeats l).count v = (dropRepeats (l.filter (cmp v · = .eq))).count v := by
  have hdisjoint : ∀ o o', o ≠ o' → ∀ w ∈ l.filter (cmp v · = o), w ∉ l.filter (cmp v · = o') := by
    intro o o' ho w hw hw'
    have hw : cmp v w = o := by simpa using (List.mem_filter.1 hw).2
    have hw' : cmp v w = o' := by simpa using (List.mem_filter.1 hw').2
    exact ho (hw.symm.trans hw')
  -- neither what comes before `v` nor what comes behind it holds `v`
  have hother : ∀ o, o ≠ .eq → (dropRepeats (l.filter (cmp v · = o))).count v = 0 := by
    intro o ho
    have hself : cmp v v = .eq := Std.ReflCmp.compare_self
    rw [List.count_eq_zero, mem_dropRepeats, List.mem_filter, hself]
    simp [ho.symm]
  conv_lhs => rw [eq_append_of_pairwise h v]
  rw [dropRepeats_append, dropRepeats_append, List.count_append, List.count_append,
    hother .gt (by decide), hother .lt (by decide), Nat.zero_add, Nat.add_zero]
  · exact hdisjoint .eq .lt (by decide)
  · intro w hw hmem
    rcases List.mem_append.1 hmem with hmem | hmem
    · exact hdisjoint .gt .eq (by decide) w hw hmem
    · exact hdisjoint .gt .lt (by decide) w hw hmem

end Repeats

/-! ### How often a vertex is a start -/

variable {V E : Type} [Key V] [Key E] {t : Traversal V E} {g : Digraph V E} {vs ss : List V} {v : V}

/-- Into so many stretches the copies of `v` fall among the vertices that are level with it. -/
def stretches (t : Traversal V E) (vs : List V) (v : V) : ℕ :=
  ((vs.filter (t.vertexOrder v · = .eq)).destutter (· ≠ ·)).count v

/-- Two copies of `v` have another vertex between them that is level with it. -/
def Revisits (t : Traversal V E) (vs : List V) (v : V) : Prop :=
  ∃ u, u ≠ v ∧ t.vertexOrder v u = .eq ∧ [v, u, v].Sublist vs

/-- A vertex has one stretch unless another one comes between its copies. -/
lemma stretches_eq_one_iff [Std.TransCmp t.vertexOrder] (hv : v ∈ vs) :
    t.stretches vs v = 1 ↔ ¬ t.Revisits vs v := by
  have hself : t.vertexOrder v v = .eq := Std.ReflCmp.compare_self
  rw [stretches, ← dropRepeats_eq_destutter,
    count_dropRepeats_eq_one_iff (List.mem_filter.2 ⟨hv, by simpa using hself⟩)]
  constructor
  · rintro h ⟨u, hu, hlevel, hsub⟩
    have hfilter := hsub.filter (t.vertexOrder v · = .eq)
    simp only [List.filter_cons, hself, hlevel, decide_true, if_true, List.filter_nil] at hfilter
    exact hu (h u hfilter)
  · intro h u hsub
    by_contra hu
    have hlevel : u ∈ vs.filter (t.vertexOrder v · = .eq) := hsub.subset (by simp)
    exact h ⟨u, hu, by simpa using (List.mem_filter.1 hlevel).2, hsub.trans List.filter_sublist⟩

/-- A vertex is a start once for each of its stretches. -/
lemma count_of_starts [Std.TransCmp t.vertexOrder] (h : t.starts g vs = .ok ss) (v : V) :
    ss.count v = t.stretches vs v := by
  obtain rfl : dropRepeats (sortBy (fun v w => (t.vertexOrder v w).isLE) vs) = ss := by
    rw [starts] at h
    split at h
    next => cases h
    next => exact Except.ok.inj h
  have hsorted : (sortBy (fun v w => (t.vertexOrder v w).isLE) vs).Pairwise fun v w =>
      (t.vertexOrder v w).isLE :=
    pairwise_sortBy (fun _ _ _ => Std.TransCmp.isLE_trans) isLE_or_isLE vs
  rw [count_dropRepeats_of_pairwise hsorted, filter_sortBy, dropRepeats_eq_destutter, stretches]

/-! ### How often an edge is given -/

/-- An edge that passes the test is given once for each time that its source is a start. -/
lemma count_pathsFrom (hg : ∀ v, (g.edgesFrom v).Nodup) {e : Edge V E} (he : g.HasEdge e)
    (ha : t.accepts e = true) (ss : List V) : (t.pathsFrom g ss).count e = ss.count e.source := by
  induction ss with
  | nil => rfl
  | cons v ss ih =>
      have hcount : ((t.edgesFrom g v).filter t.accepts).count e = if v = e.source then 1 else 0 := by
        rw [List.count_filter ha, edgesFrom, (perm_sortBy _).count_eq]
        split
        next hv => exact hv ▸ List.count_eq_one_of_mem (hg _) he
        next hv =>
          exact List.count_eq_zero.2 fun h => hv (Digraph.source_of_mem_edgesFrom h).symm
      rw [pathsFrom, List.flatMap_cons, List.count_append, hcount, List.count_cons, ← ih, pathsFrom,
        Nat.add_comm]
      simp only [beq_iff_eq]

/-- Each step of a traversal gives the first edge that is left. -/
lemma lists_nextPath (t : Traversal V E) (g : Digraph V E) :
    Iterator.Lists (t.nextPath g) fun s => s.pending ++ t.pathsFrom g s.starts := by
  refine .of_call fun s => ?_
  fun_induction nextPath t g s with
  | case1 starts e pending => exact ⟨rfl, rfl⟩
  | case2 v starts ih => exact ih
  | case3 => exact ⟨rfl, rfl⟩

/-- The edges that a traversal of vertices gives, and how often. -/
lemma exists_paths_count (t : Traversal V E) [Std.TransCmp t.vertexOrder] (g : LabelledGraph V E)
    (h : ∀ v ∈ vs, g.contains v = true) :
    ∃ es, t.paths g.toDigraph vs = .ok es ∧
      (∀ e, e ∈ es ↔ e.source ∈ vs ∧ g.HasEdge e ∧ t.accepts e = true) ∧
      (∀ e ∈ es, es.count e = t.stretches vs e.source) ∧
      ∃ begun, t.enumerate g.toDigraph vs = .ok begun ∧
        ∀ n, Iterator.nth (t.nextPath g.toDigraph) begun n = es[n]? := by
  obtain ⟨ss, hs⟩ := exists_starts (t := t) fun v hv => LabelledGraph.mem_vertices_iff.2 (h v hv)
  have hpaths : t.paths g.toDigraph vs = .ok (t.pathsFrom g.toDigraph ss) := by rw [paths, hs]; rfl
  have hmem : ∀ e, e ∈ t.pathsFrom g.toDigraph ss ↔
      e.source ∈ vs ∧ g.HasEdge e ∧ t.accepts e = true := by
    intro e
    rw [mem_paths hpaths]
    constructor
    · rintro ⟨v, hv, he, ha⟩
      obtain ⟨rfl, hedge⟩ := LabelledGraph.mem_edgesFrom.1 he
      exact ⟨hv, hedge, ha⟩
    · rintro ⟨hv, hedge, ha⟩
      exact ⟨e.source, hv, LabelledGraph.mem_edgesFrom.2 ⟨rfl, hedge⟩, ha⟩
  refine ⟨_, hpaths, hmem, fun e he => ?_, _, by rw [enumerate, hs]; rfl, fun n => ?_⟩
  · obtain ⟨-, hedge, ha⟩ := (hmem e).1 he
    rw [count_pathsFrom g.nodup_edgesFrom (LabelledGraph.hasEdge_toDigraph.2 hedge) ha,
      count_of_starts hs]
  · exact (t.lists_nextPath g.toDigraph).nth_eq _ n

/-- Under any two consistent orders the same edges are given, those that leave one of the given vertices
and pass the test. An edge is given once for each stretch of its source among the given vertices level
with it, so exactly once unless these have another vertex between two copies of its source. Hence both
orders give the same edges equally often if and only if they make as many stretches of their sources. -/
theorem paths_perm_iff (t t' : Traversal V E) [Std.TransCmp t.vertexOrder]
    [Std.TransCmp t'.vertexOrder] (haccepts : t'.accepts = t.accepts) (g : LabelledGraph V E)
    (h : ∀ v ∈ vs, g.contains v = true) :
    ∃ es es', t.paths g.toDigraph vs = .ok es ∧ t'.paths g.toDigraph vs = .ok es' ∧
      (∀ e, e ∈ es ↔ e.source ∈ vs ∧ g.HasEdge e ∧ t.accepts e = true) ∧ (∀ e, e ∈ es' ↔ e ∈ es) ∧
      (∀ e ∈ es, es.count e = t.stretches vs e.source) ∧
      (∀ e ∈ es, es.count e = 1 ↔ ¬ t.Revisits vs e.source) ∧
      (es.Perm es' ↔ ∀ e ∈ es, t.stretches vs e.source = t'.stretches vs e.source) ∧
      ∃ begun, t.enumerate g.toDigraph vs = .ok begun ∧
        ∀ n, Iterator.nth (t.nextPath g.toDigraph) begun n = es[n]? := by
  obtain ⟨es, hes, hmem, hcount, hsteps⟩ := t.exists_paths_count g h
  obtain ⟨es', hes', hmem', hcount', -⟩ := t'.exists_paths_count g h
  have hsame : ∀ e, e ∈ es' ↔ e ∈ es := fun e => by rw [hmem', hmem, haccepts]
  refine ⟨es, es', hes, hes', hmem, hsame, hcount, fun e he => ?_, ?_, hsteps⟩
  · rw [hcount e he, stretches_eq_one_iff ((hmem e).1 he).1]
  · rw [List.perm_iff_count]
    constructor
    · intro heq e he
      rw [← hcount e he, heq, hcount' e ((hsame e).2 he)]
    · intro heq e
      by_cases he : e ∈ es
      · rw [hcount e he, heq e he, hcount' e ((hsame e).2 he)]
      · rw [List.count_eq_zero.2 he, List.count_eq_zero.2 fun he' => he ((hsame e).1 he')]

/-- From 1 and 4 to 2, and from 2 back to 1. -/
private def thereAndBack : DeterministicGraph.Builder Nat Char :=
  ((({} : DeterministicGraph.Builder Nat Char).path 1 'a' 2).path 2 'b' 1).path 4 'c' 2

/-- Of the starts 1, 2, 1 and 4 an order by remainders modulo 3 puts 1 and 4 level, but 4 is not between
the two copies of 1, and 2 is put elsewhere. So the edges are those given under the natural order. -/
theorem paths_perm_of_remainders :
    ∃ g, thereAndBack.build = .ok g ∧ (∀ v ∈ [1, 2, 1, 4], g.contains v = true) ∧
      ∃ es es', paths { vertexOrder := compareOn (· % 3) } g.toDigraph [1, 2, 1, 4] = .ok es ∧
        paths {} g.toDigraph [1, 2, 1, 4] = .ok es' ∧ es.Perm es' := by
  obtain ⟨g, hg, hvertices⟩ := exists_ok_of_decide (x := thereAndBack.build)
    (P := fun g => [1, 2, 1, 4].all g.contains = true) (by decide +kernel)
  rw [List.all_eq_true] at hvertices
  obtain ⟨es, es', hes, hes', hmem, -, -, -, hperm, -⟩ :=
    paths_perm_iff { vertexOrder := compareOn (· % 3) } {} rfl (.deterministic g) hvertices
  refine ⟨g, hg, hvertices, es, es', hes, hes', hperm.2 fun e he => ?_⟩
  have hstretches : ∀ v ∈ [1, 2, 1, 4],
      stretches (E := Char) { vertexOrder := compareOn (· % 3) } [1, 2, 1, 4] v =
        stretches (E := Char) {} [1, 2, 1, 4] v := by
    decide
  exact hstretches _ ((hmem e).1 he).1

/-- An order that puts 1 and 2 level leaves the starts 1, 2 and 1 as they are given, and the edge that
leaves 1 is given twice. Under the natural order it is given once. -/
theorem not_paths_perm :
    ∃ g es es', thereAndBack.build = .ok g ∧ (∀ v ∈ [1, 2, 1], g.contains v = true) ∧
      paths { vertexOrder := fun _ _ => .eq } g.toDigraph [1, 2, 1] = .ok es ∧
      paths {} g.toDigraph [1, 2, 1] = .ok es' ∧
      es = [⟨1, 'a', 2⟩, ⟨2, 'b', 1⟩, ⟨1, 'a', 2⟩] ∧ es' = [⟨1, 'a', 2⟩, ⟨2, 'b', 1⟩] ∧
      ¬ es.Perm es' := by
  obtain ⟨g, hg, hvertices, hlevel, hnatural⟩ := exists_ok_of_decide (x := thereAndBack.build)
    (P := fun g => [1, 2, 1].all g.contains = true ∧
      (paths { vertexOrder := fun _ _ => .eq } g.toDigraph [1, 2, 1]).toOption.any
        (fun es : List (Edge Nat Char) => decide (es = [⟨1, 'a', 2⟩, ⟨2, 'b', 1⟩, ⟨1, 'a', 2⟩])) ∧
      (paths {} g.toDigraph [1, 2, 1]).toOption.any
        (fun es : List (Edge Nat Char) => decide (es = [⟨1, 'a', 2⟩, ⟨2, 'b', 1⟩]))) (by decide +kernel)
  rw [List.all_eq_true] at hvertices
  obtain ⟨es, hes, rfl⟩ := exists_ok_of_decide hlevel
  obtain ⟨es', hes', rfl⟩ := exists_ok_of_decide hnatural
  exact ⟨g, _, _, hg, hvertices, hes, hes', rfl, rfl, fun h => absurd h.length_eq (by decide)⟩

end Traversal

end CaptureAutomata
