import Automata.Log
import Automata.Run.Pushdown

namespace Automata

/-- Whether and how messages are logged. -/
structure LogSettings where
  enabled : Bool := false
  toFile : Bool := false
  level : Level := .warn
deriving DecidableEq

/-- All settings. -/
structure Settings where
  limits : Limits := {}
  logging : LogSettings := {}
deriving DecidableEq

/-- The logger that the settings ask for, if they ask for one. -/
def LogSettings.logger? (s : LogSettings) (name : String) (colored : Bool) : Option Logger :=
  if s.enabled then some { threshold := s.level, name, hasFile := s.toFile, colored } else none

end Automata
