import Automata.Automaton
import Automata.Closure
import Automata.Closure.DepthFirst
import Automata.Closure.Traversal
import Automata.CommandLine.Arguments
import Automata.CommandLine.Failure
import Automata.CommandLine.Program
import Automata.Determinization
import Automata.Determinization.Checked
import Automata.Directory
import Automata.EpsilonElimination
import Automata.Execution
import Automata.Exploration
import Automata.Graph.Basic
import Automata.Graph.Edit
import Automata.Issue
import Automata.Json.Basic
import Automata.Json.Number
import Automata.Json.Parser
import Automata.Json.Printer
import Automata.Language
import Automata.Log
import Automata.Main
import Automata.Minimization.Checked
import Automata.Minimization.Quotient
import Automata.Minimization.Table
import Automata.Pattern
import Automata.Pattern.Assembly
import Automata.Pattern.Draft
import Automata.Pattern.Lexer
import Automata.Pattern.Postfix
import Automata.Pattern.Token
import Automata.Reversal
import Automata.Run.Basic
import Automata.Run.Deterministic
import Automata.Run.Frontier
import Automata.Run.Machine
import Automata.Run.Pushdown
import Automata.Settings
import Automata.SortedSet
import Automata.Symbol
import Automata.Text.Invisible
import Automata.Text.Quoted
import Automata.Toml
import Automata.Wire.Execution
import Automata.Wire.Fields
import Automata.Wire.Graph
import Automata.Wire.Quotient
import Automata.Wire.Settings
import Automata.Proofs.Acceptance
import Automata.Proofs.Closure
import Automata.Proofs.Determinization
import Automata.Proofs.Determinization.Simulation
import Automata.Proofs.Exploration
import Automata.Proofs.Graph.Basic
import Automata.Proofs.Minimization.Language
import Automata.Proofs.Minimization.Partition
import Automata.Proofs.Minimization.Quotient
import Automata.Proofs.Minimization.Refinement
import Automata.Proofs.Path
import Automata.Proofs.Pattern.Alternation
import Automata.Proofs.Pattern.Anchors
import Automata.Proofs.Pattern.Class
import Automata.Proofs.Pattern.Class.Items
import Automata.Proofs.Pattern.Construction
import Automata.Proofs.Pattern.Evaluation
import Automata.Proofs.Pattern.Expression
import Automata.Proofs.Pattern.Fragment
import Automata.Proofs.Pattern.Grammar
import Automata.Proofs.Pattern.Meaning
import Automata.Proofs.Pattern.Operands
import Automata.Proofs.Pattern.Parentheses
import Automata.Proofs.Pattern.Parsing
import Automata.Proofs.Pattern.Rejection
import Automata.Proofs.Pattern.Repetition
import Automata.Proofs.Pattern.Spelling
import Automata.Proofs.Result
import Automata.Proofs.Run.Deterministic
import Automata.Proofs.Run.Frontier
import Automata.Proofs.Run.Machine
import Automata.Proofs.Run.Morphism
import Automata.Proofs.Words
import Automata.Proofs.Minimization.Indistinguishability
import Automata.Proofs.Run.Pushdown
import Automata.Proofs.Run.Step
import Automata.Proofs.Run.Trace
import Automata.Proofs.Stepping
import Automata.Proofs.Pushdown.Computation
import Automata.Proofs.Pushdown.Acceptance
import Automata.Proofs.ClosureCache
import Automata.Proofs.EpsilonElimination
import Automata.Proofs.Run.Destination
import Automata.Proofs.PathSemantics
import Automata.Proofs.Issue
import Automata.Proofs.Run.ChoiceFree
import Automata.Proofs.Minimization.Minimized
import Automata.Proofs.Minimization.Coverage
import Automata.Proofs.Minimization.NormalForm
import Automata.Proofs.Minimization.Idempotence
import Automata.Proofs.Minimization.Fewest
import Automata.Proofs.Graph.Trim
import Automata.Proofs.Minimization.FewestForLanguage
import Automata.Graph.InPlace
import Automata.Proofs.Graph.InPlace
import Automata.Proofs.Graph.Editing
import Automata.Proofs.Rearrangement
import Automata.Proofs.Run.Invariant
import Automata.Proofs.Wire.Execution
import Automata.Proofs.SafeStepping
import Automata.Proofs.Run.Confinement
import Automata.Proofs.Reload
import Automata.Proofs.Pushdown.Limits
import Automata.Proofs.KindAgreement
import Automata.Proofs.Pushdown.Nondeterminism
import Automata.Proofs.Alphabet
import Automata.Proofs.Language.Residual
import Automata.Proofs.Language.Comparison
import Automata.Proofs.Wire.Graph
import Automata.Proofs.Rearrangement.Conversion
import Automata.Proofs.Determinization.Checked
import Automata.Proofs.Minimization.Checked
import Automata.Proofs.CommandLine.Crash
import Automata.Proofs.Undoing
import Automata.Proofs.Pattern.Rendering
import Automata.Proofs.Pattern.Imbalance
import Automata.Proofs.Pattern.Polish
import Automata.Proofs.Pattern.Boundary
import Automata.Proofs.Pattern.Escaping
import Automata.Proofs.Pattern.OuterAnchors
import Automata.Determinization.Worklist
import Automata.Proofs.Determinization.Worklist
import Automata.Proofs.Pattern.Class.Denotation
import Automata.Proofs.Determinization.FrontierGraph
import Automata.Proofs.Rules
import Automata.Proofs.Pushdown.Closing
import Automata.Proofs.Run.Verdict
import Automata.Proofs.Verdict
import Automata.Proofs.Minimization.Consistency
import Automata.Proofs.Graph.Parts
import Automata.Proofs.Language.FirstDifference
import Automata.Proofs.Minimization.Rounds
import Automata.Proofs.Minimization.Counts
import Automata.Proofs.Search
import Automata.Proofs.Closure.Least
import Automata.Proofs.Closure.Reachability
import Automata.Proofs.Pattern.Draft
