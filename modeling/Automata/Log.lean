namespace Automata

/-- How urgent a message is, from the least to the most. -/
inductive Level where
  | debug
  | info
  | warn
  | error
deriving DecidableEq

namespace Level

/-- The place of a level among all levels. -/
def rank : Level → Nat
  | debug => 0
  | info => 1
  | warn => 2
  | error => 3

/-- The short name that opens a message. -/
def tag : Level → String
  | debug => "DBG"
  | info => "INF"
  | warn => "WAR"
  | error => "ERR"

/-- The name, also in settings. -/
def name : Level → String
  | debug => "Debug"
  | info => "Info"
  | warn => "Warn"
  | error => "Error"

def all : List Level := [debug, info, warn, error]

/-- The code of the colour in which the terminal shows the tag. -/
def colorCode : Level → String
  | debug => "96"
  | info => "92"
  | warn => "33"
  | error => "91"

/-- Whether a message of the level passes a threshold. -/
def passes (level threshold : Level) : Bool := threshold.rank ≤ level.rank

/-- The level with a long or a short name, in letters of either case. -/
def ofName? (text : String) : Option Level :=
  match String.ofList (text.toList.map Char.toLower) with
  | "debug" | "dbg" => some debug
  | "info" | "inf" => some info
  | "warn" | "warning" | "war" => some warn
  | "error" | "err" => some error
  | _ => none

/-- The sentence that reports an unknown name. -/
def unknownName (text : String) : String := "Invalid log level: " ++ text

end Level

/-- Where messages go: the least level that the terminal shows, the name that stands before every
message, and whether there is a file and colour. -/
structure Logger where
  threshold : Level
  name : String
  hasFile : Bool := false
  colored : Bool := false

/-- What was written so far. -/
structure LogText where
  terminal : String := ""
  file : String := ""

namespace Logger

/-- The sentence that reports a file that cannot be created. -/
def uncreatable (path : String) : String := "failed to create log file " ++ path

/-- Text in a terminal style. The style is taken up again where the text itself ends it. -/
def styled (code text : String) : String :=
  let style := "\x1b[" ++ code ++ "m"
  let reset := "\x1b[0m"
  style ++ String.intercalate (reset ++ style) (text.splitOn reset) ++ reset

/-- The line that the file gets. -/
def fileLine (logger : Logger) (level : Level) (message : String) : String :=
  "[" ++ level.tag ++ "] " ++ logger.name ++ ": " ++ message ++ "\n"

/-- The line that the terminal gets. -/
def terminalLine (logger : Logger) (level : Level) (message : String) : String :=
  if logger.colored then
    "[" ++ styled level.colorCode level.tag ++ "] " ++ styled "2" (logger.name ++ ":") ++ " " ++
      message ++ "\n"
  else logger.fileLine level message

/-- Writes a message. The terminal shows what passes the threshold; the file
gets everything. -/
def log (logger : Logger) (level : Level) (message : String) (text : LogText) : LogText where
  terminal :=
    if level.passes logger.threshold then text.terminal ++ logger.terminalLine level message
    else text.terminal
  file := if logger.hasFile then text.file ++ logger.fileLine level message else text.file

end Logger

/-- A named group of fields as one message, a line for each field. -/
def groupMessage (name : String) (fields : List (String × String)) : String :=
  name ++ " \x7b" ++ String.join (fields.map fun (key, value) => "\n  " ++ key ++ ": " ++ value) ++
    "\n\x7d"

end Automata
