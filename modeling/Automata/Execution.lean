import Automata.Automaton
import Automata.Run.Frontier

namespace Automata

/-- A run of an automaton, shaped after the kind that started it. -/
inductive Execution where
  | deterministic (run : Run StateId)
  | frontier (run : Run Frontier)
  | stack (run : Run Configuration)
deriving DecidableEq

/-- A call that the caller had no right to make. It ends a program that makes it. -/
inductive Fault where
  /-- The graph does not allow the operation. -/
  | graph (cause : GraphError)
  /-- The run was started by an automaton of a kind that runs differently. -/
  | foreignExecution (kind : Kind)
  /-- Taking a step back did not restore the run. -/
  | irreversible (input : List Char)
  /-- Something was looked up by a key that nothing was stored under. -/
  | missingKey
  /-- A table has no row for a state. -/
  | missingRow (id : StateId)
  /-- A table with so many rows was to be used with so many block numbers. -/
  | unrefined (blocks rows : Nat)
deriving DecidableEq

def Fault.message : Fault → String
  | graph cause => cause.message
  | foreignExecution kind => "execution state does not belong to a " ++ kind.label
  | irreversible input => "stepping cannot be undone on " ++ String.ofList input
  | missingKey => "no entry found for key"
  | missingRow id => s!"state {id} is not part of the table"
  | unrefined blocks rows =>
    "assertion `left == right` failed: " ++
      "the table must be refined before building the minimized DFA\n" ++
      s!"  left: {blocks}\n right: {rows}"

namespace Execution

/-- A function that treats runs of every shape alike. -/
def fold {β : Type} (f : {C : Type} → Run C → β) : Execution → β
  | deterministic r => f r
  | frontier r => f r
  | stack r => f r

/-- A change that treats runs of every shape alike. -/
def mapRun (f : {C : Type} → Run C → Run C) : Execution → Execution
  | deterministic r => deterministic (f r)
  | frontier r => frontier (f r)
  | stack r => stack (f r)

def input (e : Execution) : List Char := e.fold (·.input)

def position (e : Execution) : Nat := e.fold (·.position)

def verdict (e : Execution) : Option Bool := e.fold (·.verdict)

def halt (e : Execution) : Option Halt := e.fold (·.halt)

def isFinished (e : Execution) : Bool := e.fold (·.isFinished)

def symbol? (e : Execution) : Option Char := e.fold (·.symbol?)

def remaining (e : Execution) : List Char := e.fold (·.remaining)

def atEnd (e : Execution) : Bool := e.fold (·.atEnd)

def historyLength (e : Execution) : Nat := e.fold (·.history.length)

/-- Undoes the last step. -/
def stepBack (e : Execution) : Execution := e.mapRun Run.stepBack

/-- Undoes steps until the run is at a position. -/
def rewindTo (e : Execution) (target : Nat) : Execution := e.mapRun (Run.rewindTo target)

/-- A short text of what the machine is in: `q1`, or `{q0, q2}`, or `q0 [XX#]` with the top of the
stack first. -/
def label : Execution → String
  | deterministic r => s!"q{r.current}"
  | frontier r =>
    "\x7b" ++ String.intercalate ", " (r.current.toList.map fun id => s!"q{id}") ++ "\x7d"
  | stack r => s!"q{r.current.state} [" ++ showSymbols r.current.stack ++ "]"

end Execution

namespace Automaton

/-- The run on an input that begins in a given state. -/
def startAt (origin : StateId) (input : List Char) : Automaton → Execution
  | dfa g => .deterministic ((Deterministic.machine g).start origin input)
  | nfa g => .frontier ((Frontier.machine .ignored g).start origin input)
  | epsilonNfa g => .frontier ((Frontier.machine .followed g).start origin input)
  | pda g limits => .stack ((Pushdown.machine g limits).start origin input)

/-- The run on an input. There must be exactly one start state. -/
def start (a : Automaton) (input : List Char) : Except GraphError Execution :=
  a.graph.soleStart.map fun origin => a.startAt origin input

/-- Lets the machine of the automaton drive a run of its shape. -/
def drive (action : {C : Type} → Machine C → Run C → Run C) :
    Automaton → Execution → Except Fault Execution
  | dfa g, .deterministic r => .ok (.deterministic (action (Deterministic.machine g) r))
  | nfa g, .frontier r => .ok (.frontier (action (Frontier.machine .ignored g) r))
  | epsilonNfa g, .frontier r => .ok (.frontier (action (Frontier.machine .followed g) r))
  | pda g limits, .stack r => .ok (.stack (action (Pushdown.machine g limits) r))
  | a, _ => .error (.foreignExecution a.kind)

/-- Takes one step. A finished run stays as it is. -/
def step (a : Automaton) (e : Execution) : Except Fault Execution :=
  a.drive Machine.step e

/-- Takes steps until the run is finished. A finished run is not looked at. -/
def complete (a : Automaton) (e : Execution) : Except Fault Execution :=
  if e.isFinished then .ok e else a.drive Machine.complete e

/-- The runs that follow one another from a given one, at most so many steps on, up to the finished
one. -/
def trailWithin (a : Automaton) : Nat → Execution → Except Fault (List Execution)
  | 0, e => return [e]
  | n + 1, e =>
    if e.isFinished then return [e]
    else do return e :: (← a.trailWithin n (← a.step e))

/-- The runs that follow one another from a given one to the finished one. One step more than there
are symbols left is enough. -/
def trail (a : Automaton) (e : Execution) : Except Fault (List Execution) :=
  a.trailWithin (e.remaining.length + 1) e

/-- Whether the input is accepted by the run that begins in a given state. -/
def acceptsFrom (origin : StateId) (input : List Char) : Automaton → Bool
  | dfa g => (Deterministic.machine g).acceptsFrom origin input
  | nfa g => (Frontier.machine .ignored g).acceptsFrom origin input
  | epsilonNfa g => (Frontier.machine .followed g).acceptsFrom origin input
  | pda g limits => (Pushdown.machine g limits).acceptsFrom origin input

/-- Whether the automaton accepts an input. There must be exactly one start state. -/
def accepts (a : Automaton) (input : List Char) : Except GraphError Bool :=
  a.graph.soleStart.map fun origin => a.acceptsFrom origin input

end Automaton

end Automata
