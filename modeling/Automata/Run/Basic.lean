namespace Automata

/-- The bound that stopped a series of epsilon moves. -/
inductive Limit where
  | epsilonIterations
  | stackGrowth
deriving DecidableEq

/-- Why a run stopped. -/
inductive Halt where
  /-- The whole input was read and the verdict is known. -/
  | endOfInput
  /-- No move reads the next symbol, which stays unread. -/
  | noTransition
  /-- No state is left after reading a symbol. -/
  | emptyFrontier
  /-- A series of epsilon moves reached a bound. -/
  | limitExceeded (limit : Limit)
deriving DecidableEq

/-- Whether the step that ended in the halt read a symbol. -/
def Halt.advanced : Halt → Bool
  | noTransition => false
  | _ => true

/-- A run, finished or not. It keeps the configurations that it has left behind,
so that every step that read a symbol can be undone. `C` is what the machine is
in: a state, a set of states, or a state with a stack. -/
structure Run (C : Type) where
  input : List Char
  position : Nat := 0
  /-- Whether the input is accepted, once that is decided. -/
  verdict : Option Bool := none
  halt : Option Halt := none
  current : C
  /-- The configurations before each symbol that was read, the latest first. -/
  history : List C := []
deriving DecidableEq

namespace Run

variable {C : Type}

/-- Whether the run has stopped. -/
def isFinished (r : Run C) : Bool := r.halt.isSome

/-- The symbol that the next step would read. -/
def symbol? (r : Run C) : Option Char := r.input[r.position]?

/-- The part of the input that is still unread. -/
def remaining (r : Run C) : List Char := r.input.drop r.position

/-- Whether nothing is left to read. -/
def atEnd (r : Run C) : Bool := r.input.length ≤ r.position

/-- One symbol has been read for every configuration in the history, and none beyond the input. -/
def WellFormed (r : Run C) : Prop :=
  r.history.length = r.position ∧ r.position ≤ r.input.length

instance (r : Run C) : Decidable r.WellFormed := inferInstanceAs (Decidable (_ ∧ _))

/-- Reads a symbol and moves on to the next configuration. -/
def advance (next : C) (r : Run C) : Run C :=
  { r with current := next, history := r.current :: r.history, position := r.position + 1 }

/-- Stops the run. -/
def finish (halt : Halt) (verdict : Bool) (r : Run C) : Run C :=
  { r with halt := some halt, verdict := some verdict }

/-- The run with its halt and its verdict withdrawn. -/
def reopen (r : Run C) : Run C := { r with halt := none, verdict := none }

/-- Whether the last step stopped the run without reading a symbol. -/
def isStuck (r : Run C) : Bool := r.halt.any (!·.advanced)

/-- Undoes the last step. A step that read nothing only had a halt to withdraw; otherwise the
configuration before the symbol comes back. Before the first symbol nothing happens. -/
def stepBack (r : Run C) : Run C :=
  if r.isStuck then r.reopen
  else
    match r.history with
    | [] => r
    | previous :: earlier =>
      { r.reopen with current := previous, history := earlier, position := r.position - 1 }

/-- Undoes steps until the run is at a position. A run that got stuck there, or later, is unstuck
first. -/
def rewindTo (target : Nat) (r : Run C) : Run C :=
  let unstuck := if r.isStuck && target ≤ r.position then r.stepBack else r
  Nat.repeat stepBack (min (unstuck.position - target) unstuck.history.length) unstuck

end Run

end Automata
