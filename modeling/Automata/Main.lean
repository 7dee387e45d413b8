import Automata.CommandLine.Program

namespace Automata

namespace CommandLine

/-- The number of a system error, which may be given negated. -/
def errorNumber (code : UInt32) : UInt32 := min code (0 - code)

/-- The reason of a failed access. -/
def fileError (e : IO.Error) : FileError :=
  match e with
  | .noFileOrDirectory .. => .notFound
  | .alreadyExists .. => .alreadyExists
  | .inappropriateType _ code _ => if errorNumber code = 20 then .notDirectory else .isDirectory
  | .invalidArgument _ code _ => if errorNumber code = 36 then .nameTooLong else .other (toString e)
  | e => .other (toString e)

/-- The content of a file, or why it cannot be read. -/
def readFile (path : String) : IO (Except FileError String) := do
  try
    return .ok (← IO.FS.readFile path)
  catch e => return .error (fileError e)

/-- The files that a job names, as they are now. -/
def readFiles (job : Job) : IO Files := do
  let paths := job.source :: job.settings?.toList
  let contents ← paths.mapM readFile
  return fun path => ((paths.zip contents).lookup path).getD (.error .notFound)

/-- The files around a job. The directory for log files is made if its settings ask for one. -/
def placeOf (job : Job) : IO Place := do
  let files ← readFiles job
  match loadSettings files job.settings? with
  | .ok settings =>
    if (engineLogger? settings).any (·.hasFile) then
      try
        IO.FS.createDirAll logFolderPath
        return { files, withLogs := .ok (← readFiles job) }
      catch e => return { files, withLogs := .error (fileError e) }
    else return { files, withLogs := .ok files }
  | .error _ => return { files, withLogs := .ok files }

/-- Does the job that the arguments describe, and writes what there is to write. -/
def runProgram (arguments : List String) : IO UInt32 := do
  let place ← match Job.ofArguments arguments with
    | .ok job => placeOf job
    | .error _ => pure { files := fun _ => .error .notFound, withLogs := .error .notFound }
  let outcome := call arguments place
  (← IO.getStdout).putStr outcome.stdout
  (← IO.getStderr).putStr outcome.stderr
  if let some text := outcome.logFile? then
    let stamp ← IO.monoMsNow
    IO.FS.writeFile (logFolderPath ++ "/automata_run_" ++ toString stamp ++ ".txt") text
  return outcome.exitCode.toUInt32

end CommandLine

end Automata

def main (arguments : List String) : IO UInt32 :=
  Automata.CommandLine.runProgram arguments
