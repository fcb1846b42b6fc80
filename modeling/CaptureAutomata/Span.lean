/-
Spans of positions:

* `Span`: the positions from `start` up to but without `stop`;
* `Span.length`, `Span.isEmpty`, `Span.contains`: how many they are, whether there are none, and
  whether another span lies within;
* the order of spans, by start and then by stop.
-/
import CaptureAutomata.Key

namespace CaptureAutomata

/-- The positions from `start` up to but without `stop`. -/
structure Span where
  /-- The first position. -/
  start : Nat
  /-- The position just past the last one. -/
  stop : Nat
deriving DecidableEq, Repr

namespace Span

/-- The number of positions; none if the span ends before it starts. -/
def length (s : Span) : Nat :=
  s.stop - s.start

/-- Whether the span holds no position. -/
def isEmpty (s : Span) : Bool :=
  s.stop ≤ s.start

/-- Whether `t` lies within `s`. -/
def contains (s t : Span) : Bool :=
  s.start ≤ t.start && t.stop ≤ s.stop

/-- Spans are ordered by their starts, those with the same start by their stops. -/
instance : Ord Span where
  compare s t := (compare s.start t.start).then (compare s.stop t.stop)

end Span

end CaptureAutomata
