import ResidueAlgebra.Command.Arguments
import ResidueAlgebra.Engine
import ResidueAlgebra.Json.Encode

/-!
# Reports

What a command produced: a summary and a result, or an error, and in both cases the trace. A breach
is no answer of the engine and passes through.
-/
set_option autoImplicit false
namespace ResidueAlgebra

structure Report where
  command : String
  summary : Option String
  result : Option Json
  error : Option String
  trace : List String

namespace Report

def ofDerivation {α : Type} (command : String) (derivation : Derivation α)
    (encode : α → Json) (summarize : α → String) : Outcome Report :=
  let trace := derivation.trace.lines.toList
  match derivation.result with
  | .ok value => .ok ⟨command, some (summarize value), some (encode value), none, trace⟩
  | .error (.fault cause) => .ok ⟨command, none, none, some cause.message, trace⟩
  | .error (.breach cause) => Outcome.breach cause

def failure (command message : String) : Report :=
  ⟨command, none, none, some message, []⟩

def isSuccess (report : Report) : Bool :=
  report.error.isNone

/-- The trace, an empty line unless the trace is empty, and the error or else the summary. -/
def toText (report : Report) : String :=
  let lines := "\n".intercalate report.trace
  let front := if lines.isEmpty then "" else lines ++ "\n\n"
  match report.error, report.summary with
  | some error, _ => front ++ "Error: " ++ error
  | none, some summary => front ++ "Result: " ++ summary
  | none, none => front

def toJson (report : Report) : Json :=
  .object [("command", .text report.command),
    ("summary", Json.optional .text report.summary),
    ("result", report.result.getD .null),
    ("error", Json.optional .text report.error),
    ("trace", Json.texts report.trace)]

end Report

def FrobeniusMatrix.summary (matrix : FrobeniusMatrix) : String :=
  s!"rank(Q - E) = {matrix.rank}, k = {matrix.kernelDimension}"

def Command.execute (command : Command) (settings : Settings) (token : Token) : Outcome Report :=
  match command with
  | .decompose coefficients p =>
      Report.ofDerivation command.name (Engine.squareFree coefficients p token)
        (fun factors => .list (factors.map Poly.toJson)) Poly.productText
  | .gcd left right p =>
      Report.ofDerivation command.name (Engine.commonDivisor left right p) Poly.toJson Poly.text
  | .berlekamp coefficients p =>
      Report.ofDerivation command.name (Engine.frobenius coefficients p token)
        FrobeniusMatrix.toJson FrobeniusMatrix.summary
  | .discreteLog g a n =>
      Report.ofDerivation command.name (Engine.discreteLog g a n settings token)
        LogSolution.toJson fun solution => s!"{solution.log}"
  | .help => .ok ⟨command.name, none, none, none, Invocation.usageLines⟩

end ResidueAlgebra
