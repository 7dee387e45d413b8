import Automata.Execution

namespace Automata

namespace Run

variable {C : Type} [DecidableEq C]

/-- Whether a run agrees with an earlier one in everything but its halt. -/
def restores (r before : Run C) : Bool :=
  r.position = before.position && r.current = before.current && r.history = before.history

/-- Whether stepping back from a run meets the earlier runs, given the latest first. -/
def retraces (r : Run C) : List (Run C) → Bool
  | [] => true
  | before :: earlier =>
    let previous := r.stepBack
    previous.restores before && previous.verdict = none && previous.retraces earlier

end Run

/-- Whether all steps on an input can be undone, and each leaves one history entry for every symbol
that was read. -/
def Machine.isReversibleOn {C : Type} [DecidableEq C] (m : Machine C) (origin : StateId)
    (input : List Char) : Bool :=
  match (m.trail (m.start origin input)).reverse with
  | [] => true
  | last :: earlier =>
    (last :: earlier).all (fun r => r.history.length = r.position) && last.retraces earlier

/-- Checks that all steps on an input can be undone: walks to the end, walks
back, and compares each run with the one that was there before. There must be
exactly one start state. -/
def Automaton.checkReversible (a : Automaton) (input : List Char) : Except Fault Unit := do
  let origin ← a.graph.soleStart.mapError .graph
  let reversible := match a with
    | dfa g => (Deterministic.machine g).isReversibleOn origin input
    | nfa g => (Frontier.machine .ignored g).isReversibleOn origin input
    | epsilonNfa g => (Frontier.machine .followed g).isReversibleOn origin input
    | pda g limits => (Pushdown.machine g limits).isReversibleOn origin input
  if reversible then return () else throw (.irreversible input)

end Automata
