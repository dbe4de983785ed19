import ResidueAlgebra.Json.Encode
import ResidueAlgebra.Text.Integer

/-!
# Results read back from JSON

Each shape is an object with the named fields, where further fields are ignored, or a list of exactly
the fields' values in order. Numbers have to be integers of the right width; nothing else is checked,
so what is read need not be normalized.
-/
set_option autoImplicit false
namespace ResidueAlgebra

namespace Json

def natBelow (limit : Nat) : Json → Option Nat
  | .number mantissa 0 =>
      if 0 ≤ mantissa ∧ mantissa.toNat < limit then some mantissa.toNat else none
  | _ => none

def toNat : Json → Option Nat :=
  natBelow Word.long

def toText : Json → Option String
  | .text value => some value
  | _ => none

def toList {α : Type} (item : Json → Option α) : Json → Option (List α)
  | .list items => items.mapM item
  | _ => none

def toPair : Json → Option (Nat × Nat)
  | .list [first, second] => do
      let first ← first.toNat
      let second ← second.toNat
      some (first, second)
  | _ => none

/-- A missing value and an explicit null are both absent. -/
def toOptional {α : Type} (item : Json → Option α) : Option Json → Option (Option α)
  | none => some none
  | some .null => some none
  | some value => (item value).map some

/-- The values of the named fields; a list gives them by position. -/
def fields (names : List String) : Json → Option (List (Option Json))
  | .object entries => some (names.map fun name => (Json.object entries).field? name)
  | .list items => if items.length = names.length then some (items.map some) else none
  | _ => none

/-- A prime written as a field name: digits without a leading zero. -/
def toKey (name : String) : Option Nat :=
  match name.toList with
  | ['0'] => some 0
  | '0' :: _ => none
  | '+' :: _ => none
  | _ => Text.word name

end Json

/-- The coefficients as they stand; without any there is no polynomial. -/
def Poly.ofJson? (json : Json) : Option (Outcome Poly) := do
  match ← json.fields ["coefficients", "modulus"] with
  | [some coefficients, some modulus] => do
      let coefficients ← coefficients.toList Json.toNat
      let modulus ← modulus.toNat
      some (Poly.ofCoefficients coefficients modulus)
  | _ => none

def FrobeniusMatrix.ofJson? (json : Json) : Option FrobeniusMatrix := do
  match ← json.fields ["q", "rank_q_minus_i", "kernel_dimension"] with
  | [some rows, some rank, some kernelDimension] => do
      let rows ← rows.toList (Json.toList Json.toNat)
      let rank ← rank.toNat
      let kernelDimension ← kernelDimension.toNat
      some ⟨rows, rank, kernelDimension⟩
  | _ => none

def Factorization.ofJson? : Json → Option Factorization
  | .object entries => do
      let powers ← entries.mapM fun (name, power) => do
        let prime ← Json.toKey name
        let power ← Json.natBelow Word.short power
        some (prime, power)
      match Factorization.ofPowers powers with
      | .ok factorization => some factorization
      | .error _ => none
  | _ => none

def Relation.ofJson? (json : Json) : Option Relation := do
  match ← json.fields ["value", "exponent", "factorization"] with
  | [some value, some exponent, some factorization] => do
      let value ← value.toNat
      let exponent ← exponent.toNat
      let factorization ← Factorization.ofJson? factorization
      some ⟨value, exponent, factorization⟩
  | _ => none

def LogSolution.ofJson? (json : Json) : Option LogSolution := do
  match ← json.fields ["log", "base_logs", "generator_log", "relations", "target_shift"] with
  | [some log, some baseLogs, some generatorLog, some relations, some targetShift] => do
      let log ← log.toNat
      let baseLogs ← baseLogs.toList Json.toPair
      let generatorLog ← generatorLog.toNat
      let relations ← relations.toList Relation.ofJson?
      let targetShift ← targetShift.toNat
      some ⟨log, baseLogs, generatorLog, relations, targetShift⟩
  | _ => none

def Trace.ofJson? (json : Json) : Option Trace := do
  match ← json.fields ["lines"] with
  | [some lines] => do
      let lines ← lines.toList Json.toText
      some ⟨lines.toArray⟩
  | _ => none

def FactorBase.ofJson? (json : Json) : Option FactorBase := do
  match ← json.fields ["primes"] with
  | [some primes] => do
      let primes ← primes.toList Json.toNat
      some ⟨primes⟩
  | _ => none

def Settings.ofJson? (json : Json) : Option Settings := do
  match ← json.fields ["log_level", "factor_base", "relation_search_bound",
      "target_search_bound", "timeout_secs"] with
  | [some logLevel, some primes, relationBound, targetBound, some timeoutSeconds] => do
      let logLevel ← logLevel.toText
      let primes ← primes.toList Json.toNat
      let relationBound ← Json.toOptional Json.toNat relationBound
      let targetBound ← Json.toOptional Json.toNat targetBound
      let timeoutSeconds ← timeoutSeconds.toNat
      some ⟨logLevel, primes, relationBound, targetBound, timeoutSeconds⟩
  | _ => none

end ResidueAlgebra
