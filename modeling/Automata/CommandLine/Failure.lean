import Automata.Directory
import Automata.Execution
import Automata.Pattern.Token
import Automata.Text.Quoted

namespace Automata

namespace CommandLine

/-- The directory for log files. -/
def logFolderPath : String := "./logs"

/-- Why a job fails. -/
inductive Failure where
  /-- The settings cannot be read. -/
  | settings (reason : String)
  /-- The directory for log files cannot be made. -/
  | logFolder (cause : FileError)
  | pattern (text : String) (cause : PatternError)
  /-- The file with the automaton cannot be read. -/
  | unreadable (path : String) (cause : FileError)
  /-- The file describes no automaton. -/
  | malformed (path reason : String)
  | notExecutable (cause : GraphError)
  /-- Only a DFA can be minimized. -/
  | wrongKind (kind : Kind)
  | notMinimizable (cause : GraphError)
  | notConvertible (kind : Kind) (cause : GraphError)
  | noConversion (kind : Kind)
  /-- The program made a call that it had no right to make. -/
  | crash (cause : Fault)
deriving DecidableEq

namespace Failure

/-- What could not be done. -/
def headline : Failure → String
  | settings _ => "failed to load the configuration"
  | logFolder _ => "failed to create " ++ logFolderPath
  | pattern text _ => "failed to compile " ++ Text.quoted text.toList
  | unreadable path _ => "failed to read " ++ path
  | malformed path _ => "failed to parse automaton in " ++ path
  | notExecutable _ => "the automaton cannot be executed"
  | wrongKind kind => "only a DFA can be minimized, got a " ++ kind.label
  | notMinimizable _ => "the DFA cannot be minimized"
  | notConvertible kind _ => "the " ++ kind.label ++ " cannot be converted"
  | noConversion kind => "a " ++ kind.label ++ " has no conversion"
  | crash cause => cause.message

/-- Why it could not be done, where there is more to say. -/
def reason? : Failure → Option String
  | settings reason | malformed _ reason => some reason
  | logFolder cause | unreadable _ cause => some cause.message
  | pattern _ cause => some cause.message
  | notExecutable cause | notMinimizable cause | notConvertible _ cause => some cause.message
  | wrongKind _ | noConversion _ | crash _ => none

/-- A text whose further lines are set in under the first. -/
def setIn (text : String) : String :=
  String.join (text.toList.map fun c => if c = '\n' then "\n    " else c.toString)

/-- The report on the terminal. -/
def report (f : Failure) : String :=
  let reason := match f.reason? with
    | none => ""
    | some reason => "\n\nCaused by:\n    " ++ setIn reason
  match f with
  | crash _ => "panic: " ++ f.headline ++ "\n"
  | _ => "Error: " ++ f.headline ++ reason ++ "\n"

/-- The exit code of the program. -/
def exitCode : Failure → Nat
  | crash _ => 101
  | _ => 1

end Failure

end CommandLine

end Automata
