/-
Groups that are read again and again:

* `Pattern.Iterates`: a part of a word is read by the body of a group, from where the group can start;
* `Pattern.accepts_iff_iterates`, `Pattern.mem_openings_iff`: a group can end where such a part ends;
* `Regex.group_last_iteration`: a reported group ends where the last of these parts ends. It starts
  where the group was opened at last, and so it is such a part exactly if the group is opened at the
  start of one that ends there, and not again within.
-/
import CaptureAutomata.Proofs.Pattern.Sites
import CaptureAutomata.Proofs.Regex.Report

namespace CaptureAutomata

namespace Pattern

variable {p : Pattern} {m : PatternNfa} {w : List Char} {name : String} {j k : Nat}

/-- From position `j` up to `k` of a word the body of a group is read, and the group can start there. -/
def Iterates (p : Pattern) (m : PatternNfa) (w : List Char) (name : String) (j k : Nat) : Prop :=
  j ≤ k ∧ ∃ x ∈ p.sites 2 0 1, x.name = name ∧ m.Reaches (w.take j) x.source ∧
    (w.take k).drop j ∈ x.body.threaded

/-- A tag with the name of a group is the tag of a group. -/
lemma mem_tags_iff_of_isLaidOutAs (hm : m.IsLaidOutAs p) (hname : name ≠ mainGroup)
    {t : Tag String Nat} :
    t ∈ m.tags ∧ t.name = name ↔ ∃ x ∈ p.sites 2 0 1, x.name = name ∧ x.tag = t := by
  rw [hm.tags_eq, tags_eq_map, List.mem_append, List.mem_map, List.mem_singleton]
  constructor
  · rintro ⟨⟨x, hx, rfl⟩ | rfl, hn⟩
    · exact ⟨x, hx, hn, rfl⟩
    · exact absurd hn.symm hname
  · rintro ⟨x, hx, hn, rfl⟩
    exact ⟨Or.inl ⟨x, hx, rfl⟩, hn⟩

/-- A group can end where it has been read. -/
lemma accepts_iff_iterates (hp : p.WellFormed) (hm : m.IsLaidOutAs p) (hname : name ≠ mainGroup)
    (hk : k ≤ w.length) : m.Accepts name (w.take k) ↔ ∃ j, p.Iterates m w name j k := by
  constructor
  · rintro ⟨t, ht, hn, hr⟩
    obtain ⟨x, hx, hn, rfl⟩ := (mem_tags_iff_of_isLaidOutAs hm hname).1 ⟨ht, hn⟩
    obtain ⟨u, v, huv, hu, hv⟩ := (Site.reaches_stop_iff hp hm hx _).1 hr
    have hlen := congrArg List.length huv
    rw [List.length_take_of_le hk, List.length_append] at hlen
    have htake : w.take u.length = u := by
      have htake := congrArg (List.take u.length) huv
      rwa [List.take_take, min_eq_left (by omega), List.take_left] at htake
    refine ⟨u.length, by omega, x, hx, hn, by rwa [htake], ?_⟩
    rwa [huv, List.drop_left]
  · rintro ⟨j, hle, x, hx, hn, hr, hv⟩
    obtain ⟨ht, hn⟩ := (mem_tags_iff_of_isLaidOutAs hm hname).2 ⟨x, hx, hn, rfl⟩
    refine ⟨x.tag, ht, hn, (Site.reaches_stop_iff hp hm hx _).2 ⟨w.take j, _, ?_, hr, hv⟩⟩
    have hsplit := List.take_append_drop j (w.take k)
    rw [List.take_take, min_eq_left hle] at hsplit
    exact hsplit.symm

/-- A group is opened where one of its name can start, and the states change. -/
lemma mem_openings_iff (hm : m.IsLaidOutAs p) (hname : name ≠ mainGroup) :
    k ∈ m.openings w name ↔
      m.Changes w k ∧ ∃ x ∈ p.sites 2 0 1, x.name = name ∧ m.Reaches (w.take k) x.source := by
  refine and_congr_right fun _ => ⟨?_, ?_⟩
  · rintro ⟨t, ht, hn, hr⟩
    obtain ⟨x, hx, hn, rfl⟩ := (mem_tags_iff_of_isLaidOutAs hm hname).1 ⟨ht, hn⟩
    exact ⟨x, hx, hn, hr⟩
  · rintro ⟨x, hx, hn, hr⟩
    obtain ⟨ht, hn⟩ := (mem_tags_iff_of_isLaidOutAs hm hname).2 ⟨x, hx, hn, rfl⟩
    exact ⟨x.tag, ht, hn, hr⟩

/-- What has been read from the last opening on is what a group reads exactly if the group was opened
at the start of what it reads, and not again. -/
lemma iterates_last_opening_iff (hm : m.IsLaidOutAs p) (hname : name ≠ mainGroup) {a b : Nat}
    (ha : IsGreatest (before (m.openings w name) b) a) :
    p.Iterates m w name a b ↔ ∃ k < b, p.Iterates m w name k b ∧ m.Changes w k ∧
      ∀ j ∈ m.openings w name, k < j → b ≤ j := by
  constructor
  · intro h
    refine ⟨a, ha.1.2, h, ha.1.1.1, fun j hj hlt => ?_⟩
    by_contra hjb
    have := ha.2 ⟨hj, by omega⟩
    omega
  · rintro ⟨k, hlt, h, hchange, hnot⟩
    have hopen : k ∈ m.openings w name := by
      obtain ⟨-, x, hx, hn, hr, -⟩ := h
      exact (mem_openings_iff hm hname).2 ⟨hchange, x, hx, hn, hr⟩
    have hka := ha.2 ⟨hopen, hlt⟩
    have hak : a ≤ k := by
      by_contra hak
      have := hnot a ha.1.1 (by omega)
      have := ha.1.2
      omega
    obtain rfl : a = k := by omega
    exact h

end Pattern

namespace Regex

/-- The automaton of a regular expression is the one that is written down for the tree of its pattern.
-/
lemma isLaidOutAs {r : Regex} {p : Pattern} (hp : Pattern.parse r.pattern = .ok p) :
    r.nfa.IsLaidOutAs p := by
  obtain ⟨q, hq, hbuild⟩ := Pattern.exists_of_ofPattern r.nfa_eq
  obtain rfl := Except.ok.inj (hp.symm.trans hq)
  exact Pattern.isLaidOutAs_of_toNfa (Pattern.wellFormed_of_parse hp) hbuild

/-- A reported group ends where the last part ends that a group of its name reads and behind which the
states change, and starts where it was opened at last before that. It is such a part itself exactly if
one that ends there was opened at its start, and none within; and then it is a word of the body, if on
the ways through the bodies of this name nothing is read but what they stand for. -/
theorem group_last_iteration {r : Regex} {p : Pattern} (hp : Pattern.parse r.pattern = .ok p)
    {text : String} {x : Match} (hx : x ∈ r.matchesIn text) {name : String} {s : Span}
    (hs : x.group? name = some s) :
    ∃ w a b, w = r.rest text x.span.start ∧ s = ⟨x.span.start + a, x.span.start + b⟩ ∧
      b ≤ x.span.length ∧
      IsGreatest {k | r.nfa.Changes w k ∧ ∃ j, p.Iterates r.nfa w name j k} b ∧
      IsGreatest (before (r.nfa.openings w name) b) a ∧
      (p.Iterates r.nfa w name a b ↔ ∃ k < b, p.Iterates r.nfa w name k b ∧ r.nfa.Changes w k ∧
        ∀ j ∈ r.nfa.openings w name, k < j → b ≤ j) ∧
      ((∀ y ∈ p.sites 2 0 1, y.name = name → y.body.threaded ≤ y.body.language) →
        p.Iterates r.nfa w name a b → ∃ y ∈ p.sites 2 0 1, y.name = name ∧
          y.body.Denotes (text.toList.extract s.start s.stop)) := by
  have hwf := Pattern.wellFormed_of_parse hp
  have hm := isLaidOutAs hp
  obtain ⟨i, k, hle, hreport⟩ := exists_report_of_mem hx
  obtain ⟨hname, a, b, rfl, hb, ha, hbk⟩ := (hreport.group?_iff name s).1 hs
  rw [hreport.span_eq]
  refine ⟨_, a, b, rfl, rfl, ?_, ?_, ha, Pattern.iterates_last_opening_iff hm hname ha,
    fun hbodies h => ?_⟩
  · show b ≤ i + k - i
    omega
  · have hclosings : r.nfa.closings (r.rest text i) name =
        {k | r.nfa.Changes (r.rest text i) k ∧ ∃ j, p.Iterates r.nfa (r.rest text i) name j k} :=
      Set.ext fun k => and_congr_right fun hk => Pattern.accepts_iff_iterates hwf hm hname hk.1.le
    rwa [← hclosings]
  · obtain ⟨-, y, hy, hn, -, hv⟩ := h
    have hword : ((r.rest text i).take b).drop a = text.toList.extract (i + a) (i + b) := by
      rw [take_rest (by omega), List.extract, List.extract, List.drop_take, List.drop_drop]
      congr 1
      omega
    rw [hword] at hv
    exact ⟨y, hy, hn, hbodies y hy hn hv⟩

/-- In `abab` the group of `(ab)+` is reported over the last two letters. What it reads last is two
letters long, so that it is this part, and a word of the body. -/
theorem group_last_iteration_of_two_letters :
    ∃ r p x, compile "(ab)+" = .ok r ∧ Pattern.parse "(ab)+" = .ok p ∧ x ∈ r.matchesIn "abab" ∧
      x.group? "1" = some ⟨2, 4⟩ ∧
      ∃ y ∈ p.sites 2 0 1, y.name = "1" ∧ y.body.Denotes ("abab".toList.extract 2 4) := by
  let body : Pattern := .single ((Pattern.Sequence.empty.append (.literal (.plain 'a')) .once).append
    (.literal (.plain 'b')) .once)
  let p : Pattern := .single (Pattern.Sequence.empty.append (.group .anonymous body) .oneOrMore)
  have hp : Pattern.parse "(ab)+" = .ok p := rfl
  have hsites : p.sites 2 0 1 = [⟨"1", 1, 2, body⟩] := rfl
  have hbody : body.threaded = body.language := by
    simp only [body, Pattern.threaded, Pattern.trips, Pattern.walks, Pattern.Sequence.trips,
      Pattern.Sequence.walks, Quantifier.trips, Quantifier.passes, Pattern.Atom.threaded,
      Pattern.language_single, Pattern.Sequence.language_append, Pattern.Sequence.language_empty,
      Quantifier.apply, kstar_zero, one_mul, mul_one]
    rfl
  have hword : ∀ v ∈ body.language, v = ['a', 'b'] := by
    rintro _ ⟨_, _, rfl, ⟨_, _, rfl, rfl, rfl⟩, rfl⟩
    rfl
  obtain ⟨r, hr, x, hx, hstart, hgroup⟩ := exists_ok_of_decide (x := compile "(ab)+")
    (P := fun r => ∃ x ∈ r.matchesIn "abab", x.span.start = 0 ∧ x.group? "1" = some ⟨2, 4⟩)
    (by decide +kernel)
  obtain ⟨w, a, b, hw, hspan, -, hlast, -, -, hdenotes⟩ :=
    group_last_iteration ((pattern_of_compile hr).symm ▸ hp) hx hgroup
  rw [hstart] at hw hspan
  obtain ⟨rfl, rfl⟩ : a = 2 ∧ b = 4 := by
    simp only [Span.mk.injEq] at hspan
    omega
  have hlen : w.length = 5 := by
    rw [hw, length_rest (Nat.zero_le _)]
    rfl
  obtain ⟨j, hle, y, hy, hn, hreach, hv⟩ := hlast.1.2
  have hy' := hy
  rw [hsites, List.mem_singleton] at hy'
  subst hy'
  -- what is read last is two letters long
  have hj := congrArg List.length (hword _ (hbody.le hv))
  rw [List.length_drop, List.length_take_of_le (by omega)] at hj
  obtain rfl : j = 2 := by
    simp only [List.length_cons, List.length_nil] at hj
    omega
  refine ⟨r, p, x, hr, hp, hx, hgroup, hdenotes (fun z hz _ => ?_) ⟨hle, _, hy, hn, hreach, hv⟩⟩
  rw [hsites, List.mem_singleton] at hz
  subst hz
  exact hbody.le

/-- In `aa` the group of `(a)+` is reported over both letters, which its body does not stand for: the
second one leads from a set of states back to it, so that the group is not opened again. -/
theorem not_denotes_group :
    ∃ r p x, compile "(a)+" = .ok r ∧ Pattern.parse "(a)+" = .ok p ∧ x ∈ r.matchesIn "aa" ∧
      x.group? "1" = some ⟨0, 2⟩ ∧
      ∀ y ∈ p.sites 2 0 1, y.name = "1" → ¬ y.body.Denotes ("aa".toList.extract 0 2) := by
  let body : Pattern := .single (Pattern.Sequence.empty.append (.literal (.plain 'a')) .once)
  let p : Pattern := .single (Pattern.Sequence.empty.append (.group .anonymous body) .oneOrMore)
  have hp : Pattern.parse "(a)+" = .ok p := rfl
  have hsites : p.sites 2 0 1 = [⟨"1", 1, 2, body⟩] := rfl
  obtain ⟨r, hr, x, hx, hgroup⟩ := exists_ok_of_decide (x := compile "(a)+")
    (P := fun r => ∃ x ∈ r.matchesIn "aa", x.group? "1" = some ⟨0, 2⟩) (by decide +kernel)
  refine ⟨r, p, x, hr, hp, hx, hgroup, fun y hy _ => ?_⟩
  rw [hsites, List.mem_singleton] at hy
  subst hy
  rintro ⟨_, v, huv, rfl, rfl⟩
  cases huv

end Regex

end CaptureAutomata
