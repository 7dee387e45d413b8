import Automata.Graph.Edit
import Automata.Run.Pushdown

namespace Automata

/-- How the moves of a graph are read. -/
inductive Kind where
  | dfa
  | nfa
  | epsilonNfa
  | pda
deriving DecidableEq

/-- The name of a kind in running text. -/
def Kind.label : Kind → String
  | dfa => "DFA"
  | nfa => "NFA"
  | epsilonNfa => "epsilon-NFA"
  | pda => "PDA"

/-- A graph with the way to read it. The bounds of a pushdown automaton are not part of its written
form. -/
inductive Automaton where
  | dfa (graph : Graph)
  | nfa (graph : Graph)
  | epsilonNfa (graph : Graph)
  | pda (graph : Graph) (limits : Limits := {})
deriving DecidableEq

namespace Automaton

/-- An automaton of a kind. -/
def ofGraph (graph : Graph) : Kind → Automaton
  | .dfa => .dfa graph
  | .nfa => .nfa graph
  | .epsilonNfa => .epsilonNfa graph
  | .pda => .pda graph

/-- An automaton of a kind from its parts, checked as they are added. -/
def ofParts (kind : Kind) (states : List State) (transitions : List Transition) :
    Except GraphError Automaton :=
  (Graph.ofParts states transitions).map (ofGraph · kind)

def kind : Automaton → Kind
  | dfa _ => .dfa
  | nfa _ => .nfa
  | epsilonNfa _ => .epsilonNfa
  | pda _ _ => .pda

def graph : Automaton → Graph
  | dfa g | nfa g | epsilonNfa g | pda g _ => g

/-- The automaton with another graph. -/
def withGraph (g : Graph) : Automaton → Automaton
  | dfa _ => dfa g
  | nfa _ => nfa g
  | epsilonNfa _ => epsilonNfa g
  | pda _ limits => pda g limits

/-- The automaton under other bounds. Only a pushdown automaton has any. -/
def withLimits (limits : Limits) : Automaton → Automaton
  | pda g _ => pda g limits
  | a => a

/-- Carries out an edit of the graph. -/
def apply (a : Automaton) (edit : Edit) : Except GraphError Automaton :=
  (a.graph.apply edit).map a.withGraph

end Automaton

end Automata
