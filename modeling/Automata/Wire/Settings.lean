import Automata.Settings
import Automata.Wire.Fields

namespace Automata

namespace Limits

def toJson (limits : Limits) : Json :=
  .obj [
    ("max_epsilon_iterations", .nat limits.epsilonIterations),
    ("max_stack_growth", .nat limits.stackGrowth)]

def ofJson (j : Json) : Decoded Limits := do
  let fields ← Fields.ofJson ["max_epsilon_iterations", "max_stack_growth"] j
  let defaults : Limits := {}
  return {
    epsilonIterations :=
      (← fields.optional "max_epsilon_iterations" Json.toNat).getD defaults.epsilonIterations
    stackGrowth := (← fields.optional "max_stack_growth" Json.toNat).getD defaults.stackGrowth }

end Limits

/-- Levels have exactly one spelling here. -/
def Level.ofJson (j : Json) : Decoded Level := do
  let name ← j.toUnitName
  let some level := Level.all.find? (·.name = name) | Json.malformed
  return level

namespace LogSettings

def toJson (s : LogSettings) : Json :=
  .obj [("enabled", s.enabled), ("log_file", s.toFile), ("log_level", .str s.level.name)]

def ofJson (j : Json) : Decoded LogSettings := do
  let fields ← Fields.ofJson ["enabled", "log_file", "log_level"] j
  let defaults : LogSettings := {}
  return {
    enabled := (← fields.optional "enabled" Json.toBool).getD defaults.enabled
    toFile := (← fields.optional "log_file" Json.toBool).getD defaults.toFile
    level := (← fields.optional "log_level" Level.ofJson).getD defaults.level }

end LogSettings

namespace Settings

def toJson (s : Settings) : Json :=
  .obj [("pda", s.limits.toJson), ("logger", s.logging.toJson)]

/-- All settings. What is missing has its default. -/
def ofJson (j : Json) : Decoded Settings := do
  let fields ← Fields.ofJson ["pda", "logger"] j
  return {
    limits := (← fields.optional "pda" Limits.ofJson).getD {}
    logging := (← fields.optional "logger" LogSettings.ofJson).getD {} }

end Settings

end Automata
