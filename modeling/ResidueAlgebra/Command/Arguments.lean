import ResidueAlgebra.Text.Integer

/-!
# Command-line arguments

Flags may stand anywhere between the other arguments; what remains without them is the name of a
command and its parameters. A polynomial is given by its coefficients followed by the modulus.
-/
set_option autoImplicit false
namespace ResidueAlgebra

inductive Command where
  | decompose (coefficients : List Int) (p : Nat)
  | gcd (left right : List Int) (p : Nat)
  | berlekamp (coefficients : List Int) (p : Nat)
  | discreteLog (g a n : Nat)
  | help
  deriving DecidableEq

def Command.name : Command → String
  | decompose .. => "decompose"
  | gcd .. => "gcd"
  | berlekamp .. => "berlekamp"
  | discreteLog .. => "dlog"
  | help => "help"

structure Invocation where
  json : Bool
  configPath : Option String
  command : Command
  deriving DecidableEq

namespace Invocation

def usageLines : List String :=
  ["usage: modtrace [--json] [--config <file>] <command> <args>",
    "",
    "commands:",
    "  decompose <c_n> ... <c_0> <p>            square-free decomposition over GF(p)",
    "  gcd <c_n> ... <c_0> | <d_m> ... <d_0> <p>  polynomial gcd over GF(p) with steps",
    "  berlekamp <c_n> ... <c_0> <p>            Berlekamp matrix Q and rank of Q - E",
    "  dlog <g> <a> <n>                         log_g(a) mod n - 1 by index calculus",
    "  help                                     show this message",
    "",
    "coefficients are integers, highest degree first"]

def usage : String :=
  "\n".intercalate usageLines

/-- Whether the JSON flag occurred, the last path given, and the other arguments in order. -/
structure Flags where
  json : Bool
  configPath : Option String
  rest : List String

def splitFlags : List String → Outcome Flags
  | [] => .ok ⟨false, none, []⟩
  | [last] =>
      if last = "--json" then .ok ⟨true, none, []⟩
      else if last = "--config" then Outcome.reject .missingConfigPath
      else .ok ⟨false, none, [last]⟩
  | first :: second :: others =>
      if first = "--json" then do
        let flags ← splitFlags (second :: others)
        .ok { flags with json := true }
      else if first = "--config" then do
        let flags ← splitFlags others
        .ok { flags with configPath := some (flags.configPath.getD second) }
      else do
        let flags ← splitFlags (second :: others)
        .ok { flags with rest := first :: flags.rest }

def parseInteger (text : String) : Outcome Int :=
  match Text.integer text with
  | some value => .ok value
  | none => Outcome.reject (.notAnInteger text)

def parseUnsigned (text : String) : Outcome Nat :=
  match Text.word text with
  | some value => .ok value
  | none => Outcome.reject (.notNonNegative text)

def parsePolynomial (parameters : List String) : Outcome (List Int × Nat) :=
  match parameters.getLast? with
  | none => Outcome.reject .missingCoefficients
  | some last =>
      if parameters.dropLast.isEmpty then
        Outcome.reject .missingCoefficients
      else do
        let coefficients ← parameters.dropLast.mapM parseInteger
        let p ← parseUnsigned last
        .ok (coefficients, p)

def splitBar : List String → Option (List String × List String)
  | [] => none
  | parameter :: rest =>
      if parameter = "|" then some ([], rest)
      else (splitBar rest).map fun (left, right) => (parameter :: left, right)

def parseGcd (parameters : List String) : Outcome Command :=
  match splitBar parameters with
  | none => Outcome.reject .missingSeparator
  | some (left, right) => do
      let left ← left.mapM parseInteger
      let (right, p) ← parsePolynomial right
      if left.isEmpty then Outcome.reject .emptyFirstOperand else .ok (.gcd left right p)

def parseDiscreteLog : List String → Outcome Command
  | [g, a, n] => do
      let g ← parseUnsigned g
      let a ← parseUnsigned a
      let n ← parseUnsigned n
      .ok (.discreteLog g a n)
  | _ => Outcome.reject .wrongLogarithmArguments

def parseCommand : List String → Outcome Command
  | [] => .ok .help
  | name :: parameters =>
      if name = "help" ∨ name = "--help" ∨ name = "-h" then
        .ok .help
      else if name = "decompose" then do
        let (coefficients, p) ← parsePolynomial parameters
        .ok (.decompose coefficients p)
      else if name = "berlekamp" then do
        let (coefficients, p) ← parsePolynomial parameters
        .ok (.berlekamp coefficients p)
      else if name = "gcd" then
        parseGcd parameters
      else if name = "dlog" then
        parseDiscreteLog parameters
      else
        Outcome.reject (.unknownCommand name)

def parse (arguments : List String) : Outcome Invocation := do
  let flags ← splitFlags arguments
  let command ← parseCommand flags.rest
  .ok ⟨flags.json, flags.configPath, command⟩

end Invocation

end ResidueAlgebra
