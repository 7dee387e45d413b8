import Automata.Run.Basic
import Automata.Symbol

namespace Automata

/-- How a machine begins a run in a given state and how it goes on. A step leaves a finished run as
it is; otherwise it reads a symbol or stops the run. -/
structure Machine (C : Type) where
  start : StateId → List Char → Run C
  step : Run C → Run C

namespace Machine

variable {C : Type}

/-- Takes steps until the run has stopped. One step more than there are symbols left is enough, and
the steps beyond the last change nothing. -/
def complete (m : Machine C) (r : Run C) : Run C :=
  Nat.repeat m.step (r.remaining.length + 1) r

/-- The run and those that follow it step by step, at most so many, up to the one that stopped. -/
def trailWithin (m : Machine C) : Nat → Run C → List (Run C)
  | 0, r => [r]
  | n + 1, r => if r.isFinished then [r] else r :: m.trailWithin n (m.step r)

/-- The run and those that follow it step by step, up to the one that stopped. -/
def trail (m : Machine C) (r : Run C) : List (Run C) :=
  m.trailWithin (r.remaining.length + 1) r

/-- Whether the machine, begun in a given state, accepts an input. -/
def acceptsFrom (m : Machine C) (origin : StateId) (input : List Char) : Bool :=
  (m.complete (m.start origin input)).verdict.getD false

end Machine

end Automata
