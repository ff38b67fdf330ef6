import CoLang.Command.Arguments
import CoLang.Command.Perform
/-!
# The command line

Reads files and environment variables, and prints what the library answers.
-/

namespace CoLang

/-- The bound on steps and nesting, out of reach of any run. -/
def endlessFuel : Nat := Nat.pow 2 60

/-- How the command is used. -/
def usage : String :=
  "Usage: green [--config <CONFIG>] <COMMAND>\n\n" ++
    "Commands:\n" ++
    "  run <FILE> [--trace <TRACE>] [--max-call-depth <MAX_CALL_DEPTH>]\n" ++
    "  check <FILE>\n"

/-- What a system call gives, or what is said of its failure. -/
def attempt {α : Type} (act : IO α) : IO (Except String α) := do
  try
    return .ok (← act)
  catch e => return .error (toString e)

/-- The system, with random identities to give out. -/
def systemHost (seed : Nat) : Host IO where
  read path := attempt (IO.FS.readFile path)
  write path text := attempt (IO.FS.writeFile path text)
  numerals := .exact
  complaint _ := "not the JSON of a program"
  identities n := ⟨BitVec.ofNat 128 (seed + n)⟩

/-- The text of a file when it can be read. -/
def readIfPresent (path : String) : IO (String × Option String) := do
  return (path, (← attempt (IO.FS.readFile path)).toOption)

/-- The environment variables that the configuration looks at. -/
def configVariables : IO (List (String × String)) := do
  let names := ["GREEN_RUNTIME__MAX_CALL_DEPTH", "GREEN_RUNTIME__TRACE_PROCESS",
    "GREEN_LOGGING__LEVEL"]
  let found ← names.filterMapM fun name => do
    return (← IO.getEnv name).map fun value => (name, value)
  return found

/-- Loads the configuration from the files of the system. -/
def loadConfig (i : Invocation) : IO (Except Config.LoadError Config) := do
  let path := i.config.getD Config.defaultFile
  let paths := path :: (Path.withExtension? path Config.fileExtension).toList
  let files ← paths.mapM readIfPresent
  let vars ← configVariables
  return Config.load (fun p => (files.lookup p).getD none) s!"cannot read {path}" vars i.request

/-- Does what the arguments ask and gives the exit code. -/
def runCommand (args : List String) : IO UInt32 := do
  match Arguments.parse args with
  | .error .help =>
    IO.print usage
    return 0
  | .error refusal =>
    IO.eprintln (refusal.label ++ "\n\n" ++ usage)
    return 2
  | .ok i =>
    match ← loadConfig i with
    | .error e =>
      IO.eprintln (Failure.config e).rendered
      return 1
    | .ok config =>
      let seed ← IO.rand 0 (Nat.pow 2 128 - 1)
      match ← i.task.perform (systemHost seed) config.settings endlessFuel with
      | none => return 1
      | some done =>
        for line in done.lines do
          IO.println line
        match done.failure with
        | none => return 0
        | some failure =>
          IO.eprintln failure.rendered
          return 1

end CoLang

/-- The entry of the program. -/
def main (args : List String) : IO UInt32 :=
  CoLang.runCommand args
