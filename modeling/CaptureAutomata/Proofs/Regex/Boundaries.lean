/-
Where the groups of a match start and end:

* `Nfa.Changes.exists_reaches_of_le`: up to a position where the states change, every prefix can be
  read;
* `Nfa.tag_unique`: a name that is used once has one tag;
* `Regex.exists_tags_at_boundaries`: before a group in a match the automaton can be where a tag of the
  group starts, and behind it where one ends. It can read on from where the group starts.
-/
import CaptureAutomata.Proofs.Regex.Substring

namespace CaptureAutomata

namespace Nfa

variable {S A T : Type} [Key S] [Key A] {m : Nfa S A T} {w : List A} {j k : Nat}

/-- Up to a position where the states change, some state is reached at every position. -/
lemma Changes.exists_reaches_of_le (h : m.Changes w k) (hle : j ≤ k) :
    ∃ s, m.Reaches (w.take j) s := by
  obtain ⟨s, hs⟩ := h.exists_reaches
  have hcut := List.take_append_drop j (w.take k)
  rw [List.take_take, min_eq_left hle] at hcut
  rw [← hcut, Reaches, Run.append_iff] at hs
  obtain ⟨t, ht, -⟩ := hs
  exact ⟨t, ht⟩

/-- A name that is used once has one tag. -/
lemma tag_unique [DecidableEq T] {name : T} {t t' : Tag T S}
    (h : m.tags.countP (·.name = name) = 1) (ht : t ∈ m.tags) (ht' : t' ∈ m.tags)
    (hname : t.name = name) (hname' : t'.name = name) : t = t' := by
  rw [List.countP_eq_length_filter, List.length_eq_one_iff] at h
  obtain ⟨u, hu⟩ := h
  have hmem : ∀ v ∈ m.tags, v.name = name → v = u := fun v hv hv' => by
    have : v ∈ m.tags.filter (·.name = name) := List.mem_filter.2 ⟨hv, by simpa using hv'⟩
    rwa [hu, List.mem_singleton] at this
  rw [hmem t ht hname, hmem t' ht' hname']

end Nfa

namespace Regex

/-- The boundaries of a group in a match are those of a run of the automaton: what stands before the
group in the match leads to where a tag of the group starts, what stands before its end to where a tag
of the group ends, and the first character of the group can be read. If the name is used once, it is
the same tag. -/
theorem exists_tags_at_boundaries {r : Regex} {text : String} {x : Match}
    (hx : x ∈ r.matchesIn text) {name : String} {s : Span} (hs : x.group? name = some s) :
    x.span.start ≤ s.start ∧ s.start < s.stop ∧ s.stop ≤ x.span.stop ∧
      x.span.stop ≤ text.toList.length ∧
      ∃ t ∈ r.nfa.tags, ∃ t' ∈ r.nfa.tags, t.name = name ∧ t'.name = name ∧
        (r.nfa.tags.countP (·.name = name) = 1 → t = t') ∧
        r.nfa.Run 0 (text.toList.extract x.span.start s.start) t.start ∧
        r.nfa.Run 0 (text.toList.extract x.span.start s.stop) t'.stop ∧
        ∃ q, r.nfa.Run 0 (text.toList.extract x.span.start (s.start + 1)) q := by
  obtain ⟨stop, hm⟩ := r.exists_hasMain
  obtain ⟨i, k, hle, hreport⟩ := exists_report_of_mem hx
  obtain ⟨-, a, b, rfl, hb, ha, hbk⟩ := (hreport.group?_iff name s).1 hs
  obtain ⟨⟨⟨-, t, ht, hname, hstart⟩, hab⟩, -⟩ := ha
  obtain ⟨⟨hchange, t', ht', hname', hstop⟩, -⟩ := hb
  obtain ⟨q, hq⟩ := hchange.exists_reaches_of_le hab
  have hread : ∀ n ≤ b, (r.rest text i).take n = text.toList.extract i (i + n) := fun n hn =>
    take_rest (by omega)
  rw [hread a hab.le, Nfa.Reaches, hm.initial_eq] at hstart
  rw [hread b le_rfl, Nfa.Reaches, hm.initial_eq] at hstop
  rw [hread (a + 1) hab, Nfa.Reaches, hm.initial_eq] at hq
  rw [hreport.span_eq]
  exact ⟨Nat.le_add_right i a, Nat.add_lt_add_left hab i, Nat.add_le_add_left hbk i, hle, t, ht, t',
    ht', hname, hname', fun hone => Nfa.tag_unique hone ht ht' hname hname', hstart, hstop, q, hq⟩

/-- In `xaaab` the group of `(a+)b` spans the three letters that its tag stands for, of which the second
and the third leave the deterministic automaton where it is. -/
theorem exists_tags_at_boundaries_of_repeated_letter :
    ∃ r, compile "(a+)b" = .ok r ∧ ∃ x ∈ r.matchesIn "xaaab", x.group? "1" = some ⟨1, 4⟩ ∧
      ∃ t ∈ r.nfa.tags, t.name = "1" ∧ r.nfa.Run 0 [] t.start ∧ r.nfa.Run 0 ['a', 'a', 'a'] t.stop := by
  obtain ⟨r, hr, ⟨x, hx, hspan, hgroup⟩, hone⟩ := exists_ok_of_decide (x := compile "(a+)b")
    (P := fun r => (∃ x ∈ r.matchesIn "xaaab", x.span = ⟨1, 5⟩ ∧ x.group? "1" = some ⟨1, 4⟩) ∧
      r.nfa.tags.countP (·.name = "1") = 1) (by decide +kernel)
  obtain ⟨-, -, -, -, t, ht, t', ht', hname, -, heq, hstart, hstop, -⟩ :=
    exists_tags_at_boundaries hx hgroup
  obtain rfl := heq hone
  rw [hspan] at hstart hstop
  exact ⟨r, hr, x, hx, hgroup, t, ht, hname, hstart, hstop⟩

end Regex

end CaptureAutomata
