import ResidueAlgebra.Command.Report
import ResidueAlgebra.Config.Load

/-!
# Sessions

A session reads its arguments, loads its settings and runs a command. Bad arguments end it with
status two and the usage; settings that fail to load are replaced by the default ones. A command
that may take no time at all times out before it starts; any other is run to its end here, and a
caller with a clock may cut it short with `Report.timedOut`.
-/
set_option autoImplicit false
namespace ResidueAlgebra

/-- Exit status and the texts written to the two output channels. -/
structure Session where
  status : Nat
  output : String
  diagnostics : String
  deriving DecidableEq

def Report.timedOut (command : String) (seconds : Nat) : Report :=
  Report.failure command s!"timed out after {seconds}s"

def Command.executeWithin (command : Command) (settings : Settings) (token : Token) :
    Outcome (Report × Token) :=
  if settings.timeoutSeconds = 0 then
    .ok (Report.timedOut command.name 0, ⟨true⟩)
  else do
    let report ← command.execute settings token
    .ok (report, token)

namespace Session

def ofReport (json : Bool) (report : Report) : Session :=
  let text := if json then report.toJson.pretty 0 else report.toText
  ⟨if report.isSuccess then 0 else 1, text ++ "\n", ""⟩

def ofHelp : Session :=
  ⟨0, Invocation.usage ++ "\n", ""⟩

/-- Bad arguments: the reason, an empty line and the usage. -/
def ofBadArguments (cause : Fault) : Session :=
  ⟨2, "", cause.message ++ "\n\n" ++ Invocation.usage ++ "\n"⟩

def run (invocation : Invocation) (settings : Settings) : Outcome Session :=
  if invocation.command = .help then
    .ok ofHelp
  else do
    let (report, _) ← invocation.command.executeWithin settings Token.fresh
    .ok (ofReport invocation.json report)

def start (arguments : List String) (surroundings : Surroundings) : Outcome Session :=
  match Invocation.parse arguments with
  | .error (.fault cause) => .ok (ofBadArguments cause)
  | .error (.breach cause) => Outcome.breach cause
  | .ok invocation =>
      run invocation
        ((Settings.load surroundings invocation.configPath).getD Settings.default)

end Session

end ResidueAlgebra
