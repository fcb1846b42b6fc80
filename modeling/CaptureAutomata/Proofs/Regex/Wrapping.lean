/-
A group around a whole pattern:

* `renumber`: the names of groups when one more group without a name comes first;
* `Pattern.around`: the pattern that is a group around another, and what is written down for it;
* `Pattern.mirrors_around`: the states of its automaton stand for those of the automaton of the pattern
  in the group, and so do its tags, `Pattern.sameTags_around`;
* `Match.Wraps`: a match with the same span and the same groups, renumbered, and one around all of
  them;
* `Regex.matchesIn_around`: such are the matches if a pattern is put into a group.
-/
import CaptureAutomata.Proofs.Pattern.Enclosing
import CaptureAutomata.Proofs.Pattern.Moving
import CaptureAutomata.Proofs.Regex.Lockstep

namespace CaptureAutomata

/-! ### Numbers -/

/-- The next number for a number, and any other name for itself. -/
noncomputable def renumber : String → String :=
  Function.extend (fun i : Nat => toString i) (fun i => toString (i + 1)) id

@[simp] lemma renumber_toString (i : Nat) : renumber (toString i) = toString (i + 1) :=
  Function.Injective.extend_apply (fun _ _ h => Nat.repr_injective h) _ _ i

/-- What is no number is kept. -/
lemma renumber_of_forall_ne {name : String} (h : ∀ i : Nat, toString i ≠ name) : renumber name = name :=
  Function.extend_apply' _ _ _ fun ⟨i, hi⟩ => h i hi

/-- Names are kept. -/
lemma renumber_of_isName {name : String} (h : IsName name.toList) : renumber name = name :=
  renumber_of_forall_ne fun i hi => Pattern.not_isName_toString i (hi ▸ h)

/-- A string is a number or none. -/
lemma exists_toString_eq_or (name : String) :
    (∃ i : Nat, toString i = name) ∨ ∀ i : Nat, toString i ≠ name :=
  (em _).imp_right not_exists.1

/-- No other name is made the same. -/
lemma renumber_injective : Function.Injective renumber := by
  have hother : ∀ {i : Nat} {name : String}, (∀ i : Nat, toString i ≠ name) →
      renumber (toString i) ≠ renumber name := fun {i name} h => by
    rw [renumber_toString, renumber_of_forall_ne h]
    exact h (i + 1)
  intro a b hab
  rcases exists_toString_eq_or a with ⟨i, rfl⟩ | ha
  · rcases exists_toString_eq_or b with ⟨j, rfl⟩ | hb
    · rw [renumber_toString, renumber_toString] at hab
      rw [Nat.succ.inj (Nat.repr_injective hab)]
    · exact absurd hab (hother hb)
  · rcases exists_toString_eq_or b with ⟨j, rfl⟩ | hb
    · exact absurd hab.symm (hother ha)
    · rwa [renumber_of_forall_ne ha, renumber_of_forall_ne hb] at hab

/-- Nothing is given the number of the main group. -/
lemma renumber_ne_mainGroup (name : String) : renumber name ≠ mainGroup := by
  rcases exists_toString_eq_or name with ⟨i, rfl⟩ | hname
  · rw [renumber_toString]
    intro h
    have hzero : i + 1 = 0 := Nat.repr_injective h
    exact absurd hzero (Nat.succ_ne_zero i)
  · rw [renumber_of_forall_ne hname]
    exact fun h => hname 0 h.symm

/-- The main group is given the number of the first one. -/
@[simp] lemma renumber_mainGroup : renumber mainGroup = "1" :=
  renumber_toString 0

/-- These are the names of groups behind one more. -/
lemma renumbers_renumber : Renumbers renumber 1
  | .anonymous, _, i => renumber_toString i
  | .angled _, h, _ => renumber_of_isName h
  | .quoted _, h, _ => renumber_of_isName h

/-! ### A group around a pattern -/

namespace Pattern

variable {p : Pattern} {m m' : PatternNfa}

/-- The pattern that is a group without a name around another. -/
def around (p : Pattern) : Pattern :=
  .single (.around p)

@[simp] lemma states_around (p : Pattern) : p.around.states = p.states + 2 := by
  show 0 + (1 + p.states + 1) + 0 + 0 = _
  omega

/-- It has transitions into the group, those of the pattern, and one out of the group. -/
lemma edges_around (p : Pattern) :
    p.around.edges 2 1 = ⟨1, none, 2⟩ :: p.edges 3 2 ++ [⟨p.stop 3 2, none, 3 + p.states⟩] := by
  show [] ++ (⟨1, none, 2⟩ :: p.edges 3 2 ++ [⟨p.stop 3 2, none, 3 + p.states⟩]) ++ [] ++ [] = _
  rw [List.nil_append, List.append_nil, List.append_nil]

@[simp] lemma tags_around (p : Pattern) :
    p.around.tags 2 0 1 = p.tags 3 1 2 ++ [⟨"1", 1, p.stop 3 2⟩] :=
  rfl

@[simp] lemma stop_around (p : Pattern) : p.around.stop 2 1 = 3 + p.states := rfl

/-- The state in the group for a state of the pattern. -/
def inner (s : Nat) : Nat :=
  if s = 0 then 0 else s + 1

/-- The state of the pattern for a state in the group or around it. -/
def outer (p : Pattern) (t : Nat) : Nat :=
  if t ≤ 1 then 0 else if t = 3 + p.states then p.stop 2 1 else t - 1

lemma moves_inner (p : Pattern) : Moves inner 2 3 p.states := fun i _ => by
  rw [inner, if_neg (by omega)]
  omega

/-- A state of the pattern is led back to itself. -/
lemma outer_inner {s : Nat} (hs : s < 2 + p.states) : p.outer (inner s) = s := by
  rw [inner]
  split
  next h => exact h.symm
  next h => rw [outer, if_neg (by omega), if_neg (by omega), Nat.add_sub_cancel]

/-- The end of the pattern is that of the pattern in the group. -/
lemma stop_inner (p : Pattern) : p.stop 3 2 = inner (p.stop 2 1) :=
  stop_map rfl p.moves_inner

/-- The end of the group stands for that of the pattern. -/
lemma outer_stop (p : Pattern) : p.outer (3 + p.states) = p.stop 2 1 := by
  rw [outer, if_neg (by omega), if_pos rfl]

lemma stop_lt (p : Pattern) : p.stop 2 1 < 2 + p.states := by
  rcases p.stop_reserved 2 1 with h | h <;> omega

/-- With a group around the pattern the automaton has one more transition to the group and one out of
it. -/
lemma mem_targets_around (hm' : m'.IsLaidOutAs p.around) {s t : Nat} {l : Option Char} :
    t ∈ m'.graph.targets s l ↔ (⟨s, l, t⟩ : Edge Nat (Option Char)) ∈
      ⟨0, none, 1⟩ :: ⟨1, none, 2⟩ :: (p.edges 2 1).map (Edge.map inner) ++
        [⟨p.stop 3 2, none, 3 + p.states⟩] := by
  have hmoved : p.edges 3 2 = (p.edges 2 1).map (Edge.map inner) := p.edges_map rfl p.moves_inner
  rw [hm'.mem_targets, edges_around, hmoved]
  rfl

/-- A transition of the pattern is one in the group, and the one to the pattern leads to the group and
then into it. -/
lemma run_inner (hm : m.IsLaidOutAs p) (hm' : m'.IsLaidOutAs p.around) {s t : Nat} {l : Option Char}
    (ht : t ∈ m.graph.targets s l) : m'.Run (inner s) l.toList (inner t) := by
  rcases List.mem_cons.1 ((hm.mem_targets s l t).1 ht) with heq | he
  · cases heq
    have hinto : 1 ∈ m'.graph.targets 0 none := (mem_targets_around hm').2 (by simp)
    have hentry : 2 ∈ m'.graph.targets 1 none := (mem_targets_around hm').2 (by simp)
    exact .silent hinto (.silent hentry (.nil 2))
  · refine Nfa.Run.of_mem_targets ((mem_targets_around hm').2 ?_)
    exact List.mem_append_left _ (.tail _ (.tail _ (List.mem_map.2 ⟨_, he, rfl⟩)))

/-- A transition in the group is one of the pattern, the one into the group is the one to the pattern,
and those around the group lead nowhere else. -/
lemma run_outer (hm : m.IsLaidOutAs p) (hm' : m'.IsLaidOutAs p.around) {s t : Nat} {l : Option Char}
    (ht : t ∈ m'.graph.targets s l) : m.Run (p.outer s) l.toList (p.outer t) := by
  rcases List.mem_append.1 ((mem_targets_around hm').1 ht) with he | hout
  · rcases List.mem_cons.1 he with heq | he
    · cases heq
      exact .nil 0
    · rcases List.mem_cons.1 he with heq | hmoved
      · cases heq
        have htwo : p.outer 2 = 1 := outer_inner (s := 1) (by omega)
        rw [htwo]
        exact .silent ((hm.mem_targets 0 none 1).2 (.head _)) (.nil 1)
      · obtain ⟨e, hold, heq⟩ := List.mem_map.1 hmoved
        cases heq
        have htarget := (hm.mem_targets e.source e.label e.target).2 (.tail _ hold)
        obtain ⟨hsource, hend⟩ := NondeterministicGraph.mem_vertices_of_mem_targets htarget
        rw [outer_inner (hm.mem_states_iff.1 hsource), outer_inner (hm.mem_states_iff.1 hend)]
        exact Nfa.Run.of_mem_targets htarget
  · cases List.mem_singleton.1 hout
    rw [outer_stop, stop_inner, outer_inner p.stop_lt]
    exact .nil _

/-- The states before and behind the group are reached silently from what stands for the same state. -/
lemma run_inner_outer (hm' : m'.IsLaidOutAs p.around) (t : Nat) :
    m'.Run (inner (p.outer t)) [] t := by
  by_cases hone : t ≤ 1
  · have hinto : 1 ∈ m'.graph.targets 0 none := (mem_targets_around hm').2 (by simp)
    rw [outer, if_pos hone]
    rcases Nat.le_one_iff_eq_zero_or_eq_one.1 hone with rfl | rfl
    · exact .nil 0
    · exact .silent hinto (.nil 1)
  · by_cases hend : t = 3 + p.states
    · rw [hend, outer_stop, ← stop_inner]
      exact .silent ((mem_targets_around hm').2 (by simp)) (.nil _)
    · rw [outer, if_neg hone, if_neg hend, inner, if_neg (by omega), Nat.sub_add_cancel (by omega)]
      exact .nil t

/-- In the automaton of a pattern with a group around it the states stand for those of the automaton of
the pattern. -/
lemma mirrors_around (hm : m.IsLaidOutAs p) (hm' : m'.IsLaidOutAs p.around) :
    m'.Mirrors m p.outer := by
  refine hm.mirrors hm' rfl rfl (fun _ _ _ => run_inner hm hm') (fun _ _ _ => run_outer hm hm')
    (run_inner_outer hm') fun s hs => ⟨?_, outer_inner hs⟩
  rw [states_around, inner]
  split <;> omega

/-- The tags stand for those of the automaton of the pattern, renumbered. The group has the number that
stands for the main group. -/
lemma sameTags_around (hp : p.WellFormed) (hm : m.IsLaidOutAs p) (hm' : m'.IsLaidOutAs p.around)
    (name : String) : m'.SameTags m p.outer (renumber name) name := by
  have hmoved : p.tags 3 1 2 = (p.tags 2 0 1).map (Tag.map renumber inner) :=
    p.tags_map renumbers_renumber hp rfl p.moves_inner.left
  have hback : ∀ t ∈ p.tags 2 0 1, p.outer (inner t.start) = t.start ∧
      p.outer (inner t.stop) = t.stop := fun t ht => by
    have hmem : t ∈ m.tags := by
      rw [hm.tags_eq]
      exact List.mem_append_left _ ht
    obtain ⟨hs, he⟩ := Nfa.mem_states_of_mem_tags hmem
    exact ⟨outer_inner (hm.mem_states_iff.1 hs), outer_inner (hm.mem_states_iff.1 he)⟩
  have hstop : p.outer (p.stop 3 2) = p.stop 2 1 := by
    rw [stop_inner, outer_inner p.stop_lt]
  intro s e
  rw [hm.tags_eq, hm'.tags_eq, tags_around, hmoved]
  constructor
  · intro h
    rcases List.mem_append.1 h with hin | hmain
    · obtain ⟨hs, he⟩ := hback _ hin
      refine ⟨inner s, inner e, ?_, hs, he⟩
      exact List.mem_append_left _ (List.mem_append_left _ (List.mem_map.2 ⟨_, hin, rfl⟩))
    · cases List.mem_singleton.1 hmain
      refine ⟨1, p.stop 3 2, ?_, rfl, hstop⟩
      rw [renumber_mainGroup]
      exact List.mem_append_left _ (List.mem_append_right _ (.head _))
  · rintro ⟨s, e, h, rfl, rfl⟩
    rcases List.mem_append.1 h with h | hmain
    · rcases List.mem_append.1 h with hin | haround
      · obtain ⟨t, ht, heq⟩ := List.mem_map.1 hin
        obtain ⟨hs, he⟩ := hback t ht
        rw [Tag.map, Tag.mk.injEq] at heq
        obtain ⟨hname, rfl, rfl⟩ := heq
        rw [hs, he, ← renumber_injective hname]
        exact List.mem_append_left _ ht
      · -- the group around the pattern has the number that the main group is given
        rw [List.mem_singleton, Tag.mk.injEq, ← renumber_mainGroup] at haround
        obtain ⟨hname, rfl, rfl⟩ := haround
        rw [renumber_injective hname, hstop]
        exact List.mem_append_right _ (.head _)
    · rw [List.mem_singleton, Tag.mk.injEq] at hmain
      exact absurd hmain.1 (renumber_ne_mainGroup name)

/-- With a group around it a pattern is written in parentheses. -/
lemma parse_around {text : String} (h : Pattern.parse text = .ok p) :
    Pattern.parse ("(" ++ text ++ ")") = .ok p.around := by
  refine parse_of_wellFormed (Sequence.wellFormed_around (wellFormed_of_parse h)) ?_ fun hempty => ?_
  · simp [around, Sequence.around, Header.text, Quantifier.text, text_of_parse h]
  · simpa using congrArg String.toList hempty

end Pattern

/-! ### Matches -/

/-- The match spans the same as `x` and has a group 1 around all. The groups of `x` without a name have
the next numbers, those with a name keep it, and there are no other groups. -/
structure Match.Wraps (y x : Match) : Prop where
  /-- The same is matched. -/
  span_eq : y.span = x.span
  /-- The group 1 spans the whole match. -/
  group?_one : y.group? "1" = some x.span
  /-- Numbered groups have the next number. -/
  group?_succ : ∀ k ≥ 1, y.group? (toString (k + 1)) = x.group? (toString k)
  /-- Named groups are the same. -/
  group?_of_isName : ∀ name, IsName name.toList → y.group? name = x.group? name
  /-- All groups have a number or a name. -/
  name_of_group? : ∀ name s, y.group? name = some s →
    IsName name.toList ∨ ∃ k ≥ 1, name = toString k

namespace Nfa

variable {p : Pattern} {m m' : PatternNfa} {stop stop' i k : Nat} {w : List Char} {x y : Match}

/-- The groups of a match are groups of the pattern. -/
lemma Reports.isGroupName (h : m.Reports i w k x) (hp : p.WellFormed) (hm : m.IsLaidOutAs p)
    {name : String} {s : Span} (hs : x.group? name = some s) : Pattern.IsGroupName 0 p.groups name := by
  obtain ⟨hname, a, b, -, ⟨⟨-, t, ht, rfl, -⟩, -⟩, -⟩ := (h.group?_iff name s).1 hs
  rw [hm.tags_eq, List.mem_append, List.mem_singleton] at ht
  rcases ht with ht | rfl
  · exact p.name_of_mem_tags hp ht
  · exact absurd rfl hname

/-- What is reported for a pattern with a group around it wraps what is reported for the pattern. -/
lemma Reports.wraps (hp : p.WellFormed) (hm : m.IsLaidOutAs p) (hm' : m'.IsLaidOutAs p.around)
    (hmain : m.HasMain stop) (hx : m.Reports i w k x) (hy : m'.Reports i w k y) : y.Wraps x := by
  have hmirrors := Pattern.mirrors_around hm hm'
  have hopenings : ∀ name, m'.openings w (renumber name) = m.openings w name := fun name =>
    hmirrors.openings_eq (Pattern.sameTags_around hp hm hm' name) w
  have hclosings : ∀ name, m'.closings w (renumber name) = m.closings w name := fun name =>
    hmirrors.closings_eq (Pattern.sameTags_around hp hm hm' name) w
  have hgroup : ∀ name, name ≠ mainGroup → y.group? (renumber name) = x.group? name := by
    intro name hname
    ext s
    rw [hy.group?_iff, hx.group?_iff, hopenings, hclosings]
    exact and_congr_left' (iff_of_true (renumber_ne_mainGroup name) hname)
  refine ⟨hy.span_eq.trans hx.span_eq.symm, ?_, fun n hn => ?_, fun name hname => ?_,
    fun name s hs => ?_⟩
  · rw [← renumber_mainGroup, hy.group?_iff, hopenings, hclosings, hx.span_eq]
    have hfirst := hmain.isGreatest_before_openings hx.opened hx.pos
    exact ⟨renumber_ne_mainGroup _, 0, k, rfl, hx.closed, hfirst, le_rfl⟩
  · rw [← renumber_toString]
    refine hgroup _ fun hzero => ?_
    have hzero : n = 0 := Nat.repr_injective hzero
    omega
  · have hmain : name ≠ mainGroup := by
      rintro rfl
      exact Pattern.not_isName_toString 0 hname
    rw [← hgroup name hmain, renumber_of_isName hname]
  · have hname := hy.isGroupName (p := p.around) (Pattern.Sequence.wellFormed_around hp) hm' hs
    exact hname.imp_right fun ⟨n, hn, _, heq⟩ => ⟨n, hn, heq⟩

end Nfa

namespace Regex

/-- A pattern in parentheses is a pattern, too, and its matches in a text are those of the pattern, one
by one, with one more group around each. -/
theorem matchesIn_around {pattern : String} {m : PatternNfa} (h : Nfa.ofPattern pattern = .ok m) :
    (∃ m', Nfa.ofPattern ("(" ++ pattern ++ ")") = .ok m') ∧
      ∀ sentinel, ∃ r r', compile pattern sentinel = .ok r ∧
        compile ("(" ++ pattern ++ ")") sentinel = .ok r' ∧
        ∀ text, List.Forall₂ (fun x y => y.Wraps x) (r.matchesIn text) (r'.matchesIn text) := by
  obtain ⟨p, hp, -⟩ := Pattern.exists_of_ofPattern h
  obtain ⟨m', hm'⟩ := Pattern.exists_nfa_of_parse ⟨_, Pattern.parse_around hp⟩
  have hstop : p.outer (p.around.stop 2 1) = p.stop 2 1 := by
    rw [Pattern.stop_around, Pattern.outer_stop]
  refine ⟨⟨m', hm'⟩, exists_forall₂_matchesIn hp (Pattern.parse_around hp) Pattern.mirrors_around rfl
    hstop ?_⟩
  intro _ _ hlaid hlaid' hmain i w k x y hx hy
  exact hx.wraps (Pattern.wellFormed_of_parse hp) hlaid hlaid' hmain hy

/-- In `xabcd` the match `abc` of `(a(b)(?<x>c*))` has the group around all, and those of
`a(b)(?<x>c*)`, of which the one without a name comes second. -/
theorem matchesIn_around_of_groups :
    ∃ m, Nfa.ofPattern "a(b)(?<x>c*)" = .ok m ∧ ∃ r', compile "(a(b)(?<x>c*))" = .ok r' ∧
      ∃ y, r'.matchesIn "xabcd" = [y] ∧ y.span = ⟨1, 4⟩ ∧ y.group? "1" = some ⟨1, 4⟩ ∧
        y.group? "2" = some ⟨2, 3⟩ ∧ y.group? "x" = some ⟨3, 4⟩ := by
  obtain ⟨r, hr, hfound⟩ := exists_ok_of_decide (x := compile "a(b)(?<x>c*)")
    (P := fun r => (r.matchesIn "xabcd").map (fun x => (x.span, x.group? "1", x.group? "x")) =
      [(⟨1, 4⟩, some ⟨2, 3⟩, some ⟨3, 4⟩)]) (by decide +kernel)
  have hm := pattern_of_compile hr ▸ r.nfa_eq
  obtain ⟨-, hwraps⟩ := matchesIn_around hm
  obtain ⟨r₁, r', hr₁, hr', hall⟩ := hwraps defaultSentinel
  obtain rfl := Except.ok.inj (hr.symm.trans hr₁)
  rw [List.map_eq_singleton_iff] at hfound
  obtain ⟨x, hx, hgroups⟩ := hfound
  obtain ⟨hspan, hone, hname⟩ : x.span = ⟨1, 4⟩ ∧ x.group? "1" = some ⟨2, 3⟩ ∧
    x.group? "x" = some ⟨3, 4⟩ := by simpa using hgroups
  have hfound := hall "xabcd"
  rw [hx, List.forall₂_cons_left_iff] at hfound
  obtain ⟨y, ys, hy, hnil, hys⟩ := hfound
  rw [List.forall₂_nil_left_iff.1 hnil] at hys
  refine ⟨r.nfa, hm, r', hr', y, hys, hy.span_eq.trans hspan, ?_, ?_, ?_⟩
  · rw [hy.group?_one, hspan]
  · exact (hy.group?_succ 1 le_rfl).trans hone
  · have hx : IsName "x".toList := ⟨⟨'x', rfl, rfl⟩, fun c hc => by
      obtain rfl : c = 'x' := by simpa using hc
      rfl⟩
    exact (hy.group?_of_isName "x" hx).trans hname

end Regex

end CaptureAutomata
