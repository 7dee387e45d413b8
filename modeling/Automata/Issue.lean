import Automata.Automaton

namespace Automata

/-- A rule that an automaton breaks. -/
inductive Issue where
  | repeatedId (id : StateId) (count : Nat)
  /-- There is no start state, or more than one. -/
  | badStart (cause : GraphError)
  | unknownEndpoint (transition : Transition) (endpoint : StateId)
  | epsilonMove (transition : Transition) (kind : Kind)
  | stackAction (transition : Transition) (kind : Kind)
  /-- A DFA has a choice on a symbol. -/
  | choice (state : StateId) (symbol : Char) (count : Nat)
  /-- A PDA has a choice on a symbol with the same demand on the stack. -/
  | stackChoice (state : StateId) (symbol : Char) (pop : Option Char) (count : Nat)
deriving DecidableEq

/-- The sentence that reports the finding. -/
def Issue.message : Issue → String
  | repeatedId id count => s!"State id {id} is used by {count} states"
  | badStart cause => cause.message.capitalize
  | unknownEndpoint t endpoint =>
    "Transition " ++ t.toText ++ " references the unknown state " ++ toString endpoint
  | epsilonMove t kind =>
    "Transition " ++ t.toText ++ " is an epsilon transition, which a " ++ kind.label ++
      " cannot have"
  | stackAction t kind =>
    "Transition " ++ t.toText ++ " has stack operations, which a " ++ kind.label ++
      " does not use"
  | choice state symbol count =>
    s!"State {state} has {count} transitions on symbol '" ++ showSymbol symbol ++
      "', a DFA allows at most one"
  | stackChoice state symbol pop count =>
    s!"State {state} has {count} transitions on symbol '" ++ showSymbol symbol ++
      "' with pop '" ++ showSymbol (pop.getD epsilon) ++ "', a PDA allows at most one"

/-- The values that occur more than once in a list, ascending, with the number of times. -/
def repeated {α : Type} [Ranked α] [DecidableEq α] (values : List α) : List (α × Nat) :=
  ((SortedSet.ofList values).toList.map fun a => (a, values.count a)).filter (1 < ·.2)

namespace Graph

/-- Breaches of what checked editing maintains, and a missing start state. -/
def structuralIssues (g : Graph) : List Issue :=
  (repeated (g.states.map (·.id))).map (fun (id, count) => .repeatedId id count) ++
  (match g.soleStart with
    | .ok _ => []
    | .error cause => [.badStart cause]) ++
  g.transitions.flatMap fun t =>
    ([t.source, t.target].filter (!g.hasState ·)).map (.unknownEndpoint t)

/-- Moves that read nothing, in an automaton that has no use for them. -/
def epsilonIssues (g : Graph) (kind : Kind) : List Issue :=
  (g.transitions.filter (·.isEpsilon)).map (.epsilonMove · kind)

/-- Moves with a stack action, in an automaton that has no stack. -/
def stackIssues (g : Graph) (kind : Kind) : List Issue :=
  (g.transitions.filter (·.hasStackEffect)).map (.stackAction · kind)

/-- Choices between moves that read the same symbol. -/
def choiceIssues (g : Graph) : List Issue :=
  (repeated ((g.transitions.filter (!·.isEpsilon)).map fun t => (t.source, t.symbol))).map
    fun ((state, symbol), count) => .choice state symbol count

/-- Choices between moves with the same symbol and the same demand on the stack. -/
def stackChoiceIssues (g : Graph) : List Issue :=
  (repeated (g.transitions.map fun t => (t.source, t.symbol, t.pop))).map
    fun ((state, symbol, pop), count) => .stackChoice state symbol pop count

end Graph

/-- All that is wrong with an automaton. One without findings has distinct state
numbers, exactly one start state, moves between its own states only, and nothing
that its kind does not allow. -/
def Automaton.issues : Automaton → List Issue
  | dfa g => g.structuralIssues ++ g.epsilonIssues .dfa ++ g.stackIssues .dfa ++ g.choiceIssues
  | nfa g => g.structuralIssues ++ g.epsilonIssues .nfa ++ g.stackIssues .nfa
  | epsilonNfa g => g.structuralIssues ++ g.stackIssues .epsilonNfa
  | pda g _ => g.structuralIssues ++ g.stackChoiceIssues

end Automata
