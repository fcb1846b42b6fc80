/-
Runs of a nondeterministic automaton:

* `Nfa.Run`: a run from one state to another that reads a word;
* `Nfa.Run.append`: runs can be put behind each other;
* `Nfa.Reaches`: the states that a run from the initial state ends in;
* `Nfa.Accepts`: the words of the runs from the initial state to the end of a tag with a given name.
-/
import CaptureAutomata.Nfa.Basic
import Mathlib.Tactic.Lemma

namespace CaptureAutomata.Nfa

variable {S A T : Type} [Key S] [Key A]

/-- A run over `m` from one state to another that reads a word. -/
inductive Run (m : Nfa S A T) : S → List A → S → Prop
  /-- A run may stay where it is. -/
  | nil (s : S) : Run m s [] s
  /-- A run may take a transition without a symbol. -/
  | silent {s t u : S} {w : List A} (h : t ∈ m.graph.targets s none) (r : Run m t w u) :
      Run m s w u
  /-- A run may take a transition on a symbol, and read the symbol. -/
  | read {s t u : S} {a : A} {w : List A} (h : t ∈ m.graph.targets s (some a))
      (r : Run m t w u) : Run m s (a :: w) u

/-- Runs can be put behind each other. -/
lemma Run.append {m : Nfa S A T} {s t u : S} {w x : List A} (h : m.Run s w t)
    (k : m.Run t x u) : m.Run s (w ++ x) u := by
  induction h with
  | nil s => exact k
  | silent h _ ih => exact .silent h (ih k)
  | read h _ ih => exact .read h (ih k)

/-- A run that reads `w` leads from the initial state to `s`. -/
def Reaches (m : Nfa S A T) (w : List A) (s : S) : Prop :=
  m.Run m.initial w s

/-- A run that reads `w` leads from the initial state to the end of a tag called `name`. -/
def Accepts (m : Nfa S A T) (name : T) (w : List A) : Prop :=
  ∃ t ∈ m.tags, t.name = name ∧ m.Reaches w t.stop

end CaptureAutomata.Nfa
