/-
Searching for a text as it stands:

* `Pattern.eq_take_of_reaches`: the automaton of a text as a pattern reads nothing but what the text
  starts with, so nothing follows the whole of it, whatever the sentinel is;
* `Nfa.Reports.groups_eq_empty`: without groups in the pattern there are none in a match;
* `Regex.find_escape`: an escaped text is a pattern without groups, which accepts this text only and
  is found in it from its start to its end.
-/
import CaptureAutomata.Proofs.Pattern.SideBySide
import CaptureAutomata.Proofs.Regex.Sentinel

namespace CaptureAutomata

open scoped Computability

/-! ### What is read -/

namespace Pattern

variable {m : PatternNfa} {cs w : List Char} {s : Nat}

/-- The transitions of the automaton of a text lead to the first character, and from each to the next. -/
lemma mem_targets_ofChars (hm : m.IsLaidOutAs (ofChars cs)) {t : Nat} {l : Option Char}
    (ht : t ∈ m.graph.targets s l) :
    s = 0 ∧ l = none ∧ t = 1 ∨ ∃ j c, cs[j]? = some c ∧ s = 1 + j ∧ l = some c ∧ t = 1 + j + 1 := by
  rcases List.mem_cons.1 ((hm.mem_targets s l t).1 ht) with heq | he
  · rw [Edge.mk.injEq] at heq
    exact Or.inl heq
  · rcases List.mem_append.1 he with he | he
    · rcases Sequence.mem_edges_appendChars (s := .empty) (n := 1) rfl he with he | ⟨j, c, hc, heq⟩
      · cases he
      · rw [Edge.mk.injEq] at heq
        exact Or.inr ⟨j, c, hc, heq⟩
    · cases he

/-- What has been read in a state is what the text starts with. -/
lemma eq_take_of_reaches (hm : m.IsLaidOutAs (ofChars cs)) (hr : m.Reaches w s) :
    w = cs.take (s - 1) := by
  have hstep : ∀ s l t, t ∈ m.graph.targets s l →
      ({cs.take (s - 1)} : Language Char) * Assembly.symbol l ≤ {cs.take (t - 1)} := by
    intro s l t ht
    rcases mem_targets_ofChars hm ht with ⟨rfl, rfl, rfl⟩ | ⟨j, c, hc, rfl, rfl, rfl⟩
    · exact (mul_one _).le
    · show ({cs.take (1 + j - 1)} : Language Char) * {[c]} ≤ {cs.take (1 + j)}
      rw [Nat.add_sub_cancel_left, Nat.add_comm 1 j, List.take_add_one, hc]
      exact (language_singleton_mul _ _).le
  rw [Nfa.Reaches, hm.initial_eq] at hr
  exact Assembly.append_mem_of_run hstep hr (Set.mem_singleton _)

/-- Behind the whole text nothing can be read. -/
lemma not_reaches_append (hm : m.IsLaidOutAs (ofChars cs)) (c : Char) : ¬ m.Reaches (cs ++ [c]) s := by
  intro hr
  have hlen := congrArg List.length (eq_take_of_reaches hm hr)
  rw [List.length_append, List.length_take, List.length_singleton] at hlen
  omega

end Pattern

/-! ### What is found -/

/-- If an automaton has no tag but the main one, there are no groups in a match. -/
lemma Nfa.Reports.groups_eq_empty {m : PatternNfa} {i k : Nat} {w : List Char} {x : Match}
    (h : m.Reports i w k x) (htags : ∀ t ∈ m.tags, t.name = mainGroup) : x.groups = ∅ := by
  refine Std.ExtTreeMap.ext_getElem? fun name => ?_
  rw [Std.ExtTreeMap.getElem?_empty]
  by_contra hsome
  obtain ⟨s, hs⟩ := Option.ne_none_iff_exists'.1 hsome
  obtain ⟨hname, _, b, -, ⟨⟨-, t, ht, rfl, -⟩, -⟩, -⟩ := (h.group?_iff name s).1 hs
  exact hname (htags t ht)

namespace Regex

variable {r : Regex} {text : String}

/-- If a text is accepted and nothing can be read behind it, the first match is all of it. -/
lemma exists_find_of_accepts (hne : text ≠ "") (haccepts : r.nfa.Accepts mainGroup text.toList)
    (hend : ∀ s, ¬ r.nfa.Reaches (text.toList ++ [r.sentinel]) s) :
    ∃ x k, r.find text = some x ∧ x.span = ⟨0, text.length⟩ ∧ r.nfa.Reports 0 (r.rest text 0) k x := by
  obtain ⟨stop, hm⟩ := r.exists_hasMain
  have hflush : r.nfa.Flushes text.toList r.sentinel := by
    have hwhole : (text.toList ++ [r.sentinel]).take (text.toList.length + 1) =
        text.toList ++ [r.sentinel] := List.take_of_length_le (by simp)
    refine ⟨by simp, fun hsame => hend stop ?_⟩
    rw [← hwhole, hsame, List.take_left]
    exact hm.accepts_iff.1 haccepts
  obtain ⟨x, hx, hspan⟩ := Nfa.exists_report_of_flushes hm r.isDeterminizedBy
    (fun h => hne (String.toList_eq_nil_iff.1 h)) haccepts hflush 0
  have hrest : r.rest text 0 = text.toList ++ [r.sentinel] := rest_eq (Nat.zero_le _)
  rw [← hrest] at hx
  obtain ⟨k, hk⟩ := Nfa.exists_report_of_run hm r.isDeterminizedBy hx
  refine ⟨x, k, find_eq_some hx, ?_, hk⟩
  rw [hspan, Nat.zero_add, String.length_toList]

/-- A text with at least one character becomes a pattern when it is escaped. The automaton of this
pattern has no tag but the main one and accepts the text and no other word, and with any sentinel the
first match in the text is all of it. -/
theorem find_escape (hne : text ≠ "") :
    ∃ m stop, Nfa.ofPattern (escape text) = .ok m ∧ m.tags = [⟨mainGroup, 0, stop⟩] ∧
      (∀ w, m.Accepts mainGroup w ↔ w = text.toList) ∧
      ∀ sentinel, ∃ r, compile (escape text) sentinel = .ok r ∧
        r.find text = some (.ofRange 0 text.length) := by
  have hparse := Pattern.parse_escape hne
  obtain ⟨m, stop, hm, hmain, haccepts⟩ := Pattern.exists_ofPattern hparse
  have hlaid : m.IsLaidOutAs (.ofChars text.toList) := by
    obtain ⟨p, hp, hbuild⟩ := Pattern.exists_of_ofPattern hm
    obtain rfl := Except.ok.inj (hparse.symm.trans hp)
    exact Pattern.isLaidOutAs_of_toNfa (Pattern.wellFormed_ofChars _) hbuild
  have htags : m.tags = [⟨mainGroup, 0, (Pattern.ofChars text.toList).stop 2 1⟩] := by
    have hnone : (Pattern.ofChars text.toList).tags 2 0 1 = [] :=
      List.eq_nil_of_length_eq_zero ((Pattern.length_tags _ _ _ _).trans (Pattern.groups_ofChars _))
    rw [hlaid.tags_eq, hnone, List.nil_append]
  have honly : ∀ w, m.Accepts mainGroup w ↔ w = text.toList := fun w => by
    rw [haccepts, Pattern.threaded_ofChars]
    exact Iff.rfl
  refine ⟨m, _, hm, htags, honly, fun sentinel => ?_⟩
  obtain ⟨r, hr, rfl⟩ := exists_compile hm sentinel
  obtain ⟨x, k, hfind, hspan, hk⟩ := exists_find_of_accepts (r := r) hne ((honly _).2 rfl)
    fun s => Pattern.not_reaches_append hlaid r.sentinel
  have hgroups : x.groups = ∅ := hk.groups_eq_empty fun t ht => by
    rw [htags, List.mem_singleton] at ht
    rw [ht]
  refine ⟨r, hr, hfind.trans (congrArg some ?_)⟩
  obtain ⟨span, groups⟩ := x
  obtain rfl : groups = ∅ := hgroups
  obtain rfl : span = ⟨0, text.length⟩ := hspan
  rfl

/-- The null character, which is the sentinel if none is given, a line break and a backslash in front
of a letter: the escaped text is found in the text as it stands. -/
theorem find_escape_of_sentinel :
    "\\n\n[\x00" ≠ "" ∧ escape "\\n\n[\x00" = "\\\\n\n\\[\x00" ∧
      ∃ r, compile "\\\\n\n\\[\x00" = .ok r ∧ r.find "\\n\n[\x00" = some (.ofRange 0 5) := by
  have hne : "\\n\n[\x00" ≠ "" := by decide
  have hescape : escape "\\n\n[\x00" = "\\\\n\n\\[\x00" := by decide
  obtain ⟨-, -, -, -, -, hfind⟩ := find_escape hne
  obtain ⟨r, hr, hfound⟩ := hfind defaultSentinel
  rw [hescape] at hr
  exact ⟨hne, hescape, r, hr, hfound⟩

end Regex

end CaptureAutomata
