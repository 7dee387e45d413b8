import Automata.CommandLine.Arguments
import Automata.CommandLine.Failure
import Automata.Determinization.Checked
import Automata.EpsilonElimination
import Automata.Execution
import Automata.Issue
import Automata.Json.Printer
import Automata.Minimization.Checked
import Automata.Pattern
import Automata.Toml
import Automata.Wire.Execution
import Automata.Wire.Quotient
import Automata.Wire.Settings

namespace Automata

namespace CommandLine

/-- What the machine is in at a position. -/
structure TraceStep where
  position : Nat
  configuration : String

/-- The end of a run, and the way there if it was asked for. -/
structure RunReport where
  input : String
  accepted : Bool
  position : Nat
  halt : Option Halt
  trace? : Option (List TraceStep)

def TraceStep.ofExecution (e : Execution) : TraceStep := ⟨e.position, e.label⟩

def TraceStep.toJson (s : TraceStep) : Json :=
  .obj [("position", .nat s.position), ("configuration", .str s.configuration)]

namespace RunReport

def toJson (r : RunReport) : Json :=
  .obj ([
    ("input", .str r.input),
    ("accepted", .bool r.accepted),
    ("position", .nat r.position),
    ("halt", .option Halt.toJson r.halt)] ++
    r.trace?.toList.map fun steps => ("trace", .list TraceStep.toJson steps))

/-- The fields that are logged. -/
def logFields (r : RunReport) : List (String × String) :=
  [("input", Text.quoted r.input.toList), ("accepted", toString r.accepted),
    ("position", toString r.position)]

/-- The report on a run that went through the given executions, of which the last is finished. -/
def ofTrail (input : String) (trace : Bool) (first : Execution) (rest : List Execution) :
    RunReport :=
  let last := rest.getLast?.getD first
  { input
    accepted := last.verdict.getD false
    position := last.position
    halt := last.halt
    trace? := if trace then some ((first :: rest).map TraceStep.ofExecution) else none }

end RunReport

/-- Runs an automaton on an input. -/
def runOne (a : Automaton) (trace : Bool) (input : String) : Except Fault RunReport := do
  let first ← (a.start input.toList).mapError .graph
  let steps ← a.trail first
  return .ofTrail input trace first steps.tail

/-- Runs an automaton on all inputs. It has to have one start state. -/
def runAll (a : Automaton) (inputs : List String) (trace : Bool) :
    Except Failure (List RunReport) := do
  let _ ← a.graph.soleStart.mapError .notExecutable
  (inputs.mapM (runOne a trace)).mapError .crash

/-- Minimizes a DFA, which has to have one start state. -/
def minimize (a : Automaton) : Except Failure Quotient :=
  match a with
  | .dfa g => do
    let _ ← g.soleStart.mapError .notMinimizable
    g.minimizeChecked.mapError .crash
  | _ => .error (.wrongKind a.kind)

/-- Takes an NFA to a DFA, and an epsilon-NFA to an NFA. There has to be one start state. -/
def convert (a : Automaton) : Except Failure Automaton := do
  let _ ← a.graph.soleStart.mapError (.notConvertible a.kind)
  match a with
  | .nfa g => return .dfa (← (g.determinizeChecked .ignored).mapError .crash).graph
  | .epsilonNfa g => return .nfa (← g.eliminateEpsilon.mapError (.crash ∘ .graph))
  | _ => throw (.noConversion a.kind)

/-- A job under way: it may fail, and what it has logged is kept either way. -/
abbrev Work := ExceptT Failure (StateM LogText)

/-- The files around the program. -/
structure Place where
  /-- The files that there are at first. -/
  files : Files
  /-- The files once there is a directory for log files, or why it cannot be made. -/
  withLogs : Except FileError Files

/-- Logs a message, if there is a logger. -/
def log (logger? : Option Logger) (level : Level) (message : String) : Work Unit :=
  match logger? with
  | some logger => modify (logger.log level message)
  | none => pure ()

/-- Writes a line to the terminal. -/
def tell (line : String) : Work Unit :=
  modify fun text => { text with terminal := text.terminal ++ line ++ "\n" }

/-- The settings of a file, or the defaults if no file is named. -/
def loadSettings (files : Files) : Option String → Except Failure Settings
  | none => .ok {}
  | some path =>
    match files path with
    | .error cause => .error (.settings cause.message)
    | .ok text =>
      match Toml.parse? text with
      | none => .error (.settings "the text is not valid TOML")
      | some j => (Settings.ofJson j).mapError fun _ => .settings "a setting has a wrong value"

/-- The automaton of a file. -/
def loadAutomaton (files : Files) (path : String) : Except Failure Automaton :=
  match files path with
  | .error cause => .error (.unreadable path cause)
  | .ok text =>
    match Json.parse? text with
    | none => .error (.malformed path "the text is not valid JSON")
    | some j => (Automaton.ofJson j).mapError fun _ => .malformed path "this is no automaton"

/-- Runs an automaton on all inputs and logs each run. -/
def runLogged (logger? : Option Logger) (a : Automaton) (job : Job) : Work (List RunReport) := do
  let reports ← MonadExcept.ofExcept (runAll a job.inputs job.trace)
  for report in reports do
    log logger? .debug (groupMessage "Run" report.logFields)
  return reports

/-- Does the work of a mode other than regex on an automaton that was read. -/
def work (logger? : Option Logger) (a : Automaton) (job : Job) : Work Json := do
  let issues := a.issues.map Issue.message
  for issue in issues do
    log logger? .warn issue
  match job.mode with
  | .run | .regex => return .list RunReport.toJson (← runLogged logger? a job)
  | .minimize =>
    let quotient ← MonadExcept.ofExcept (minimize a)
    tell quotient.report
    return quotient.toJson
  | .convert => return (← MonadExcept.ofExcept (convert a)).toJson
  | .validate => return .list .str issues

/-- The logger of the program. -/
def engineLogger? (settings : Settings) : Option Logger := settings.logging.logger? "Engine" false

/-- The files once logging has begun, which takes a directory if messages go to a file. -/
def Place.filesWith (place : Place) (logger? : Option Logger) : Except Failure Files :=
  if logger?.any (·.hasFile) then place.withLogs.mapError .logFolder else .ok place.files

/-- Does a job. -/
def Job.perform (job : Job) (place : Place) : Work Json := do
  let settings ← MonadExcept.ofExcept (loadSettings place.files job.settings?)
  let logger? := engineLogger? settings
  let files ← MonadExcept.ofExcept (place.filesWith logger?)
  log logger? .info ("mode " ++ job.mode.name)
  match job.mode with
  | .regex =>
    let compiled := (Pattern.compile job.source.toList).mapError (.pattern job.source)
    let a := Automaton.epsilonNfa (← MonadExcept.ofExcept compiled)
    let reports ← runLogged logger? a job
    return .obj [("automaton", a.toJson), ("results", .list RunReport.toJson reports)]
  | _ =>
    let a ← MonadExcept.ofExcept (loadAutomaton files job.source)
    work logger? (a.withLimits settings.limits) job

/-- What a call of the program leaves behind: what it printed, what it reported and logged, and why
it failed if it did. -/
structure Outcome where
  stdout : String := ""
  text : LogText := {}
  failure? : Option (Stop ⊕ Failure) := none

namespace Outcome

/-- The exit code. Help and version count as success. -/
def exitCode (o : Outcome) : Nat :=
  match o.failure? with
  | some (.inl .usageError) => 2
  | some (.inr failure) => failure.exitCode
  | _ => 0

/-- All that is written to the terminal beside the output. -/
def stderr (o : Outcome) : String :=
  match o.failure? with
  | some (.inl .usageError) => "error: invalid arguments\n\n" ++ helpText
  | some (.inr failure) => o.text.terminal ++ failure.report
  | _ => o.text.terminal

/-- The content of the log file, if there is one. A logger that writes to a file always has
something to write. -/
def logFile? (o : Outcome) : Option String :=
  if o.text.file.isEmpty then none else some o.text.file

end Outcome

/-- A call of the program. -/
def call (arguments : List String) (place : Place) : Outcome :=
  match Job.ofArguments arguments with
  | .error .help => { stdout := helpText, failure? := some (.inl .help) }
  | .error .version => { stdout := versionText, failure? := some (.inl .version) }
  | .error .usageError => { failure? := some (.inl .usageError) }
  | .ok job =>
    match (job.perform place).run.run {} with
    | (.ok j, text) => { stdout := j.pretty ++ "\n", text }
    | (.error failure, text) => { text, failure? := some (.inr failure) }

end CommandLine

end Automata
