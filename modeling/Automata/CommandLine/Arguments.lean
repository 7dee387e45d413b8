namespace Automata

namespace CommandLine

/-- What to do with the automaton. -/
inductive Mode where
  | run
  | regex
  | minimize
  | convert
  | validate
deriving DecidableEq

namespace Mode

def name : Mode → String
  | run => "run"
  | regex => "regex"
  | minimize => "minimize"
  | convert => "convert"
  | validate => "validate"

/-- The mode with a name, in letters of either case. -/
def ofName? (text : String) : Option Mode :=
  [run, regex, minimize, convert, validate].find?
    (·.name = String.ofList (text.toList.map Char.toLower))

end Mode

/-- An option, without its value. -/
inductive Switch where
  | mode
  | settings
  | trace
  | help
  | version
deriving DecidableEq

namespace Switch

def ofLong? : String → Option Switch
  | "mode" => some mode
  | "config" => some settings
  | "trace" => some trace
  | "help" => some help
  | "version" => some version
  | _ => none

def ofShort? : Char → Option Switch
  | 'm' => some mode
  | 'c' => some settings
  | 't' => some trace
  | 'h' => some help
  | 'V' => some version
  | _ => none

/-- Whether the option is followed by a value. -/
def takesValue : Switch → Bool
  | mode | settings => true
  | _ => false

end Switch

/-- Why the arguments do not ask for any work. -/
inductive Stop where
  | help
  | version
  | usageError
deriving DecidableEq

/-- The options and words read so far, the latest word first. -/
structure Arguments where
  mode? : Option Mode := none
  settings? : Option String := none
  trace : Bool := false
  words : List String := []

namespace Arguments

/-- Sets an option, with the value that was given for it. -/
def set (a : Arguments) : Switch → Option String → Except Stop Arguments
  | .help, none => .error .help
  | .version, none => .error .version
  | .trace, none => if a.trace then .error .usageError else .ok { a with trace := true }
  | .mode, some value =>
    match a.mode?, Mode.ofName? value with
    | none, some mode => .ok { a with mode? := some mode }
    | _, _ => .error .usageError
  | .settings, some value =>
    if a.settings?.isSome then .error .usageError else .ok { a with settings? := some value }
  | _, _ => .error .usageError

/-- Reads a group of short options. The rest of the group after an option that takes a value is the
value; if nothing is left, the option waits for the next word. -/
def readShort (a : Arguments) : List Char → Except Stop (Arguments × Option Switch)
  | [] => .ok (a, none)
  | c :: rest =>
    match Switch.ofShort? c with
    | none => .error .usageError
    | some s =>
      if s.takesValue then
        match rest with
        | [] => .ok (a, some s)
        | '=' :: value | value => (a.set s (some (String.ofList value))).map (·, none)
      else do (← a.set s none).readShort rest

/-- Reads a long option. A value may be attached with an equals sign; otherwise an option that takes
one waits for the next word. -/
def readLong (a : Arguments) (cs : List Char) : Except Stop (Arguments × Option Switch) :=
  match Switch.ofLong? (String.ofList (cs.takeWhile (· ≠ '='))), cs.dropWhile (· ≠ '=') with
  | none, _ => .error .usageError
  | some s, '=' :: value => (a.set s (some (String.ofList value))).map (·, none)
  | some s, _ => if s.takesValue then .ok (a, some s) else (a.set s none).map (·, none)

/-- Whether a word cannot be the value of an option. What looks like an option
is never taken for one. -/
def looksLikeOption (word : String) : Bool :=
  word.toList.head? = some '-' && word ≠ "-"

/-- Reads words, the first of which may be awaited as a value. Options may stand
anywhere before a double dash, and must not be repeated. The first thing that
ends the reading decides, be it a mistake or a request for help. -/
def read (a : Arguments) : Option Switch → List String → Except Stop Arguments
  | none, [] => .ok a
  | some _, [] => .error .usageError
  | some s, word :: rest =>
    if looksLikeOption word then .error .usageError
    else do (← a.set s (some word)).read none rest
  | none, word :: rest =>
    match word.toList with
    | ['-', '-'] => .ok { a with words := rest.reverse ++ a.words }
    | '-' :: '-' :: cs => do
      let (a, awaited) ← a.readLong cs
      a.read awaited rest
    | '-' :: c :: cs => do
      let (a, awaited) ← a.readShort (c :: cs)
      a.read awaited rest
    | _ => { a with words := word :: a.words }.read none rest

end Arguments

/-- What the program is asked to do. The source is the name of a file, or in regex mode the pattern
itself. -/
structure Job where
  source : String
  inputs : List String
  mode : Mode := .run
  settings? : Option String := none
  trace : Bool := false

/-- The job that the arguments describe. A source must be named. -/
def Job.ofArguments (arguments : List String) : Except Stop Job := do
  let a ← ({} : Arguments).read none arguments
  match a.words.reverse with
  | [] => throw .usageError
  | source :: inputs =>
    return { source, inputs, mode := a.mode?.getD .run, settings? := a.settings?, trace := a.trace }

/-- The name and the version of the program. -/
def versionText : String := "Automata Engine 0.1\n"

/-- How to call the program. -/
def helpText : String :=
  String.intercalate "\n" [
    "Run, convert and minimize finite and pushdown automata",
    "",
    "Usage: automata-engine [OPTIONS] <SOURCE> [INPUTS]...",
    "",
    "Arguments:",
    "  <SOURCE>     An automaton JSON file, or the pattern in regex mode",
    "  [INPUTS]...  Inputs to run the automaton on",
    "",
    "Options:",
    "  -m, --mode <MODE>      [default: run]",
    "  -c, --config <CONFIG>  ",
    "  -t, --trace            Record the configuration after every step",
    "  -h, --help             Print help",
    "  -V, --version          Print version",
    ""]

end CommandLine

end Automata
