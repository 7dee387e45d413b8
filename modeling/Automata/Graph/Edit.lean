import Automata.Graph.Basic

namespace Automata

namespace Graph

/-- Adds a state with a new number. A second start state is refused. -/
def addState (g : Graph) (s : State) : Except GraphError Graph :=
  if g.hasState s.id then .error (.duplicateState s.id)
  else
    match g.start?, s.isStart with
    | some existing, true => .error (.secondStart existing s.id)
    | _, _ => .ok { g with states := g.states ++ [s] }

/-- Removes a state and every move that touches it. -/
def removeState (g : Graph) (id : StateId) : Graph :=
  if g.hasState id then
    { states := g.states.eraseP (·.id = id)
      transitions := g.transitions.filter fun t => t.source ≠ id ∧ t.target ≠ id }
  else g

/-- Makes a state the only start state. -/
def setStart (g : Graph) (id : StateId) : Except GraphError Graph :=
  if g.hasState id then
    .ok { g with states := g.states.map fun s => { s with isStart := s.id = id } }
  else .error (.unknownState id)

/-- The states with the verdict of the first one that has the number replaced. -/
def withVerdict (id : StateId) (accepting : Bool) : List State → List State
  | [] => []
  | s :: rest =>
    if s.id = id then { s with isAccepting := accepting } :: rest
    else s :: withVerdict id accepting rest

/-- Says whether a state accepts. -/
def setAccepting (g : Graph) (id : StateId) (accepting : Bool) : Except GraphError Graph :=
  if g.hasState id then .ok { g with states := withVerdict id accepting g.states }
  else .error (.unknownState id)

/-- Adds a move between states that exist. The source is checked before the target. -/
def addTransition (g : Graph) (t : Transition) : Except GraphError Graph :=
  match [t.source, t.target].find? (!g.hasState ·) with
  | some missing => .error (.unknownEndpoint t.source t.target missing)
  | none => .ok { g with transitions := g.transitions ++ [t] }

/-- Removes the first move equal to the given one. -/
def removeTransition (g : Graph) (t : Transition) : Graph :=
  { g with transitions := g.transitions.erase t }

/-- The graph with the given states and moves, added in order: first all states, then all moves. -/
def ofParts (states : List State) (transitions : List Transition) : Except GraphError Graph := do
  transitions.foldlM addTransition (← states.foldlM addState {})

end Graph

/-- One edit of a graph. -/
inductive Edit where
  | addState (state : State)
  | removeState (id : StateId)
  | setStart (id : StateId)
  | setAccepting (id : StateId) (accepting : Bool)
  | addTransition (transition : Transition)
  | removeTransition (transition : Transition)

/-- Carries out an edit. An edit that is refused yields no graph, so nothing is
ever half done. -/
def Graph.apply (g : Graph) : Edit → Except GraphError Graph
  | .addState s => g.addState s
  | .removeState id => .ok (g.removeState id)
  | .setStart id => g.setStart id
  | .setAccepting id accepting => g.setAccepting id accepting
  | .addTransition t => g.addTransition t
  | .removeTransition t => .ok (g.removeTransition t)

end Automata
