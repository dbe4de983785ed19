import ResidueAlgebra.Command.Session

/-!
# The program

Reads the files and the environment, runs a command against the clock and prints what the session
wrote. All decisions are made by `Session`.
-/
set_option autoImplicit false
namespace ResidueAlgebra.Program

/-- The file of the given name, if it can be read. -/
def readFileIfAny (name : String) : IO (List (String × String)) := do
  try
    let text ← IO.FS.readFile name
    return [(name, text)]
  catch _ =>
    return []

def splitVariable (entry : List Char) : String × String :=
  (String.ofList (entry.takeWhile (· != '=')),
    String.ofList ((entry.dropWhile (· != '=')).drop 1))

def readVariables : IO (List (String × String)) := do
  try
    let text ← IO.FS.readFile "/proc/self/environ"
    return ((Text.splitOn (Char.ofNat 0) text.toList).filter (!·.isEmpty)).map splitVariable
  catch _ =>
    return []

def readSurroundings (path : Option String) : IO Surroundings := do
  let names := match path with
    | some path => [path]
    | none => ["modtrace.toml", "modtrace.yaml"]
  let files ← names.mapM readFileIfAny
  let environment ← readVariables
  return ⟨files.flatten, environment⟩

/-- Looks at the task once every hundredth of a second, for the given number of rounds. -/
def finishesWithin {α : Type} (task : Task α) : Nat → IO Bool
  | 0 => IO.hasFinished task
  | rounds + 1 => do
      if ← IO.hasFinished task then
        return true
      IO.sleep 10
      finishesWithin task rounds

def runAgainstClock (invocation : Invocation) (settings : Settings) : IO (Outcome Session) := do
  let task := Task.spawn fun _ => Session.run invocation settings
  if ← finishesWithin task (100 * settings.timeoutSeconds) then
    return task.get
  else
    let report := Report.timedOut invocation.command.name settings.timeoutSeconds
    return .ok (Session.ofReport invocation.json report)

def openSession (arguments : List String) : IO (Outcome Session) := do
  match Invocation.parse arguments with
  | .ok invocation => do
      let surroundings ← readSurroundings invocation.configPath
      let settings := (Settings.load surroundings invocation.configPath).getD Settings.default
      runAgainstClock invocation settings
  | .error _ => return Session.start arguments ⟨[], []⟩

end ResidueAlgebra.Program

def main (arguments : List String) : IO UInt32 := do
  match ← ResidueAlgebra.Program.openSession arguments with
  | .ok session =>
      let output ← IO.getStdout
      let diagnostics ← IO.getStderr
      output.putStr session.output
      output.flush
      diagnostics.putStr session.diagnostics
      return session.status.toUInt32
  | .error _ => return 101
