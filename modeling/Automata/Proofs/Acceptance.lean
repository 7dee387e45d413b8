import Automata.Execution
import Automata.Proofs.Run.Frontier
import Mathlib.Computability.Language

namespace Automata

/-- With a single start state the verdict is that of the machine that starts
there. -/
theorem Automaton.accepts_of_soleStart {a : Automaton} {origin : StateId}
    (hstart : a.graph.soleStart = .ok origin) (input : List Char) :
    a.accepts input = .ok (a.acceptsFrom origin input) := by
  rw [accepts, hstart]
  rfl

/-- The automaton has a verdict on every input: whether it is a word of the
    language. -/
def Automaton.Recognizes (a : Automaton) (L : Language Char) : Prop :=
  ∀ input, ∃ verdict, a.accepts input = .ok verdict ∧ (verdict = true ↔ input ∈ L)

/-- The automaton that reads a graph with the given treatment of silent moves. -/
def Silence.automaton : Silence → Graph → Automaton
  | .ignored, g => .nfa g
  | .followed, g => .epsilonNfa g

/-- An automaton that is in sets of states accepts what its machine accepts from
the start state. -/
theorem Silence.accepts_automaton (silence : Silence) {g : Graph} {origin : StateId}
    (hstart : g.soleStart = .ok origin) (input : List Char) :
    (silence.automaton g).accepts input =
      .ok ((Frontier.machine silence g).acceptsFrom origin input) := by
  cases silence with
  | ignored => exact Automaton.accepts_of_soleStart (a := .nfa g) hstart input
  | followed => exact Automaton.accepts_of_soleStart (a := .epsilonNfa g) hstart input

end Automata
