/-
Tapes:

* `Tape`: a list of symbols and the position of the symbol to be read next, which may lie past the
  end;
* `Tape.next`, `Tape.reset`, `Tape.peek`: reading a symbol, moving, and looking ahead;
* `Tape.remaining`: the symbols still to be read.
-/
import CaptureAutomata.Key

namespace CaptureAutomata

/-- Symbols and the position of the one to be read next. -/
structure Tape (A : Type) where
  /-- All symbols. -/
  symbols : List A
  /-- The position of the symbol to be read next. -/
  index : Nat := 0
deriving DecidableEq, Repr

namespace Tape

variable {A : Type}

/-- The tape at another position. -/
def reset (t : Tape A) (index : Nat) : Tape A :=
  { t with index }

/-- The symbol that lies `offset` symbols ahead. -/
def peek (t : Tape A) (offset : Nat) : Option A :=
  t.symbols[t.index + offset]?

/-- The symbol to be read next, and the tape one position further on, even past the end. -/
def next (t : Tape A) : Option A × Tape A :=
  (t.peek 0, t.reset (t.index + 1))

/-- The number of symbols. -/
def length (t : Tape A) : Nat :=
  t.symbols.length

/-- Whether there are no symbols. -/
def isEmpty (t : Tape A) : Bool :=
  t.symbols.isEmpty

/-- Whether no symbol is left to be read. -/
def isDone (t : Tape A) : Bool :=
  t.length ≤ t.index

/-- The symbols still to be read. -/
def remaining (t : Tape A) : List A :=
  t.symbols.drop t.index

theorem not_isDone_iff {t : Tape A} : ¬ t.isDone = true ↔ t.index < t.length := by
  rw [isDone, decide_eq_true_eq, Nat.not_le]

end Tape

end CaptureAutomata
