import Automata.Graph.Edit

namespace Automata

/-- An edit of a stored graph, which writes one part of the graph after the
other. An error takes nothing back: whatever was written before it stays
written. -/
abbrev Editor := EStateM GraphError Graph

namespace Editor

/-- Adds a state with a new number. A second start state is refused. -/
def addState (s : State) : Editor Unit := do
  let g ← get
  if g.hasState s.id then throw (.duplicateState s.id)
  if s.isStart then
    if let some existing := g.start? then throw (.secondStart existing s.id)
  set { g with states := g.states ++ [s] }

/-- Removes every move that touches a state, and then the state, which is returned. -/
def removeState (id : StateId) : Editor (Option State) := do
  let g ← get
  match g.states.findIdx? (·.id = id) with
  | none => return none
  | some index =>
    modify fun g =>
      { g with transitions := g.transitions.filter fun t => t.source ≠ id ∧ t.target ≠ id }
    modify fun g => { g with states := g.states.eraseIdx index }
    return g.states[index]?

/-- Marks the state at a place as a start state if it has the number, and clears its mark
otherwise. -/
def markStart (id : StateId) (index : Nat) : Editor Unit :=
  modify fun g => { g with states := g.states.modify index fun s => { s with isStart := s.id = id } }

/-- Makes a state the only start state, going through all states. -/
def setStart (id : StateId) : Editor Unit := do
  let g ← get
  if !g.hasState id then throw (.unknownState id)
  forM (List.range g.states.length) (markStart id)

/-- Says whether a state accepts. -/
def setAccepting (id : StateId) (accepting : Bool) : Editor Unit := do
  let g ← get
  match g.states.findIdx? (·.id = id) with
  | none => throw (.unknownState id)
  | some index =>
    modify fun g =>
      { g with states := g.states.modify index fun s => { s with isAccepting := accepting } }

/-- Refuses a move with an end that is not a state. -/
def requireEndpoint (t : Transition) (endpoint : StateId) : Editor Unit := do
  let g ← get
  if !g.hasState endpoint then throw (.unknownEndpoint t.source t.target endpoint)

/-- Adds a move between states that exist. The source is checked before the target. -/
def addTransition (t : Transition) : Editor Unit := do
  requireEndpoint t t.source
  requireEndpoint t t.target
  modify fun g => { g with transitions := g.transitions ++ [t] }

/-- Removes the first move equal to the given one, and says whether there was one. -/
def removeTransition (t : Transition) : Editor Bool := do
  let g ← get
  match g.transitions.idxOf? t with
  | none => return false
  | some index =>
    modify fun g => { g with transitions := g.transitions.eraseIdx index }
    return true

/-- What is stored once an edit is through, whether or not it was refused. -/
def stored {α : Type} (editor : Editor α) (g : Graph) : Graph :=
  match editor.run g with
  | .ok _ after => after
  | .error _ after => after

end Editor

/-- Carries out an edit in place. What it removed is not kept. -/
def Edit.inPlace : Edit → Editor Unit
  | .addState s => Editor.addState s
  | .removeState id => discard (Editor.removeState id)
  | .setStart id => Editor.setStart id
  | .setAccepting id accepting => Editor.setAccepting id accepting
  | .addTransition t => Editor.addTransition t
  | .removeTransition t => discard (Editor.removeTransition t)

/-- The stored graph after edits were tried one after the other. -/
def Graph.edited (g : Graph) (edits : List Edit) : Graph :=
  edits.foldl (fun g edit => edit.inPlace.stored g) g

end Automata
