import ResidueAlgebra.Config.Settings
import ResidueAlgebra.IndexCalculus.Solver
import ResidueAlgebra.Json.Basic
import ResidueAlgebra.Poly.Frobenius

/-!
# Results as JSON

The shapes in which results are reported. Objects list their fields in the order of the names, and
the primes of a factorization are names, ordered as such.
-/
set_option autoImplicit false
namespace ResidueAlgebra

def Poly.toJson (f : Poly) : Json :=
  Json.sorted [("coefficients", Json.nats f.coefficients), ("modulus", Json.nat f.modulus)]

def FrobeniusMatrix.toJson (matrix : FrobeniusMatrix) : Json :=
  Json.sorted [("q", .list (matrix.rows.map Json.nats)),
    ("rank_q_minus_i", Json.nat matrix.rank),
    ("kernel_dimension", Json.nat matrix.kernelDimension)]

def Factorization.toJson (factorization : Factorization) : Json :=
  Json.sorted (factorization.entries.map fun (prime, power) => (s!"{prime}", Json.nat power))

def Relation.toJson (relation : Relation) : Json :=
  Json.sorted [("value", Json.nat relation.value), ("exponent", Json.nat relation.exponent),
    ("factorization", relation.factorization.toJson)]

def LogSolution.toJson (solution : LogSolution) : Json :=
  Json.sorted [("log", Json.nat solution.log),
    ("base_logs", .list (solution.baseLogs.map fun (prime, log) => Json.nats [prime, log])),
    ("generator_log", Json.nat solution.generatorLog),
    ("relations", .list (solution.relations.map Relation.toJson)),
    ("target_shift", Json.nat solution.targetShift)]

def Trace.toJson (trace : Trace) : Json :=
  Json.sorted [("lines", Json.texts trace.lines.toList)]

def FactorBase.toJson (base : FactorBase) : Json :=
  Json.sorted [("primes", Json.nats base.primes)]

def Settings.toJson (settings : Settings) : Json :=
  Json.sorted [("log_level", .text settings.logLevel),
    ("factor_base", Json.nats settings.primes),
    ("relation_search_bound", Json.optional Json.nat settings.relationBound),
    ("target_search_bound", Json.optional Json.nat settings.targetBound),
    ("timeout_secs", Json.nat settings.timeoutSeconds)]

end ResidueAlgebra
