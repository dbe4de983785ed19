/-!
# Faults and breaches

A computation stops short in one of two ways. A *fault* is an answer of the engine: the input has
no result, and the fault says why. A *breach* is a broken precondition of the machine arithmetic
underneath, such as a remainder by zero or a value that leaves its word; it ends the whole program
and carries no text. `Outcome` is the result of a computation that may do either.
-/
set_option autoImplicit false
namespace ResidueAlgebra

/-- Reasons for turning an input down before any computation. -/
inductive Rejection where
  | emptyBase
  | compositeBaseEntry (entry : Nat)
  | baseNotIncreasing
  | fieldsDiffer (left right : Nat)
  | constantPolynomial
  | raggedRows
  | sidesDiffer (equations sides : Nat)
  | generatorZero (generator modulus : Nat)
  | targetZero (target modulus : Nat)
  | missingConfigPath
  | notAnInteger (text : String)
  | notNonNegative (text : String)
  | missingCoefficients
  | missingSeparator
  | emptyFirstOperand
  | wrongLogarithmArguments
  | unknownCommand (name : String)
  | stated (reason : String)
  deriving DecidableEq

def Rejection.message : Rejection → String
  | emptyBase => "factor base is empty"
  | compositeBaseEntry entry => s!"factor base entry {entry} is not prime"
  | baseNotIncreasing => "factor base must be strictly increasing"
  | fieldsDiffer left right => s!"operands live in GF({left}) and GF({right})"
  | constantPolynomial => "Berlekamp matrix needs a polynomial of degree at least 1"
  | raggedRows => "matrix rows differ in length"
  | sidesDiffer equations sides => s!"{equations} equations but {sides} right-hand sides"
  | generatorZero generator modulus => s!"generator {generator} is 0 mod {modulus}"
  | targetZero target modulus => s!"target {target} is 0 mod {modulus}"
  | missingConfigPath => "--config needs a file path"
  | notAnInteger text => s!"'{text}' is not an integer"
  | notNonNegative text => s!"'{text}' is not a non-negative integer"
  | missingCoefficients => "expected coefficients followed by p"
  | missingSeparator => "gcd expects '<c..> | <d..> <p>'"
  | emptyFirstOperand => "first gcd operand has no coefficients"
  | wrongLogarithmArguments => "dlog expects exactly <g> <a> <n>"
  | unknownCommand name => s!"unknown command '{name}'"
  | stated reason => reason

/-- Every way the engine answers without a result. -/
inductive Fault where
  | zeroDivisor
  | notInvertible (value modulus : Nat)
  | notPthPower (exponent characteristic : Nat)
  | noSolution
  | equationFails (row : Nat)
  | tooFewRelations (rank required : Nat)
  | generatorOutsideBase (generator : Nat)
  | targetNotReachable (target : Nat)
  | wrongAnswer (log value : Nat)
  | modulusNotPrime (modulus : Nat)
  | invalidInput (reason : Rejection)
  | cancelled
  deriving DecidableEq

def Fault.message : Fault → String
  | zeroDivisor => "division by the zero polynomial"
  | notInvertible value modulus => s!"{value} is not invertible modulo {modulus}"
  | notPthPower exponent characteristic =>
      s!"f'(x) = 0 but the term x^{exponent} is not a multiple of the characteristic {characteristic}"
  | noSolution => "the modular linear system has no solution"
  | equationFails row => s!"candidate solution does not satisfy equation {row}"
  | tooFewRelations rank required => s!"relation search reached rank {rank}, {required} required"
  | generatorOutsideBase generator =>
      s!"generator {generator} does not factor over the factor base"
  | targetNotReachable target =>
      s!"no k found with {target} * g^k splitting over the factor base"
  | wrongAnswer log value => s!"computed logarithm {log} gives g^{log} = {value}, not the target"
  | modulusNotPrime modulus => s!"modulus {modulus} is not prime"
  | invalidInput reason => "invalid input: " ++ reason.message
  | cancelled => "computation was cancelled"

/-- A broken precondition of the machine arithmetic. -/
inductive Breach where
  | zeroModulus
  | overflow
  | outOfRange
  | moduliDiffer
  deriving DecidableEq

inductive Halt where
  | fault (cause : Fault)
  | breach (cause : Breach)
  deriving DecidableEq

abbrev Outcome (α : Type) : Type := Except Halt α

namespace Outcome

variable {α : Type}

def fault (cause : Fault) : Outcome α := .error (.fault cause)

def reject (reason : Rejection) : Outcome α := fault (.invalidInput reason)

def breach (cause : Breach) : Outcome α := .error (.breach cause)

def isOk : Outcome α → Bool
  | .ok _ => true
  | .error _ => false

/-- The result of an outcome together with the fact that the outcome has it. -/
def attach : (outcome : Outcome α) → Outcome { result : α // outcome = .ok result }
  | .ok result => .ok ⟨result, rfl⟩
  | .error halt => .error halt

instance [DecidableEq α] : DecidableEq (Outcome α)
  | .ok left, .ok right =>
      if same : left = right then isTrue (congrArg _ same)
      else isFalse fun equal => same (Except.ok.inj equal)
  | .error left, .error right =>
      if same : left = right then isTrue (congrArg _ same)
      else isFalse fun equal => same (Except.error.inj equal)
  | .ok _, .error _ => isFalse nofun
  | .error _, .ok _ => isFalse nofun

/-- A sequence has a result only if its first part has one that the second part continues. -/
theorem bind_eq_ok {β : Type} {first : Outcome α} {next : α → Outcome β} {result : β}
    (success : (first >>= next) = .ok result) :
    ∃ value, first = .ok value ∧ next value = .ok result := by
  cases first with
  | error halt => cases success
  | ok value => exact ⟨value, rfl, success⟩

theorem mapM_length {β : Type} {transform : α → Outcome β} {items : List α} {results : List β}
    (success : items.mapM transform = .ok results) : results.length = items.length := by
  induction items generalizing results with
  | nil =>
      rw [List.mapM_nil] at success
      cases success
      rfl
  | cons item rest ih =>
      rw [List.mapM_cons] at success
      obtain ⟨first, _, success⟩ := bind_eq_ok success
      obtain ⟨others, tail, success⟩ := bind_eq_ok success
      cases success
      simp [ih tail]

end Outcome

end ResidueAlgebra
