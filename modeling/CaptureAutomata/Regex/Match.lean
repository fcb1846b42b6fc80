/-
Matches of a pattern in a text:

* `Match`: the span of the match and the spans of the groups that took part in it;
* `Match.ofSpans`: the match among the spans that a run closed, if it closed the main group. Groups
  that do not lie within the match are left out;
* `Match.text`: the part of a text that was matched.
-/
import CaptureAutomata.Dfa.Run
import CaptureAutomata.Pattern.Assembly

namespace CaptureAutomata

/-- A match in a text. -/
structure Match where
  /-- The positions that were matched. -/
  span : Span
  /-- The positions of the groups, by name. -/
  groups : KeyMap String Span := ∅

namespace Match

/-- A match without groups. -/
def ofRange (start stop : Nat) : Match :=
  { span := ⟨start, stop⟩ }

/-- Adds a group, in place of one with the same name. -/
def withGroup (m : Match) (name : String) (start stop : Nat) : Match :=
  { m with groups := m.groups.insert name ⟨start, stop⟩ }

/-- The group called `name`, if it took part. -/
def group? (m : Match) (name : String) : Option Span :=
  m.groups[name]?

/-- The characters of a text that were matched. -/
def text (m : Match) (text : String) : String :=
  String.ofList ((text.toList.drop m.span.start).take m.span.length)

/-- The match among the spans of a run. -/
def ofSpans (spans : Dfa.Spans String) : Option Match :=
  spans[mainGroup]?.map fun whole =>
    { span := whole
      groups := (spans.erase mainGroup).filter fun _ s =>
        whole.contains s && decide (s.start ≤ s.stop) }

end Match

end CaptureAutomata
