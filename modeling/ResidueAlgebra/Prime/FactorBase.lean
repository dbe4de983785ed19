import ResidueAlgebra.Prime.TrialDivision

/-!
# Factor bases

An ordered list of small primes over which relations have to split. The order fixes the columns of
the relation matrix. `FactorBase.ofPrimes` admits only non-empty, strictly increasing lists of
primes.
-/
set_option autoImplicit false
namespace ResidueAlgebra

def listText (values : List Nat) : String :=
  "[" ++ ", ".intercalate (values.map fun value => s!"{value}") ++ "]"

structure FactorBase where
  primes : List Nat
  deriving DecidableEq

namespace FactorBase

def default : FactorBase :=
  ⟨[2, 3, 5]⟩

def firstComposite : List Nat → Outcome (Option Nat)
  | [] => .ok none
  | entry :: rest => do
      if ← TrialDivision.isPrime entry then firstComposite rest else .ok (some entry)

def increasing : List Nat → Bool
  | first :: second :: rest => first < second && increasing (second :: rest)
  | _ => true

def ofPrimes (primes : List Nat) : Outcome FactorBase :=
  if primes.isEmpty then
    Outcome.reject .emptyBase
  else do
    match ← firstComposite primes with
    | some entry => Outcome.reject (.compositeBaseEntry entry)
    | none =>
        if increasing primes then .ok ⟨primes⟩ else Outcome.reject .baseNotIncreasing

def size (base : FactorBase) : Nat :=
  base.primes.length

def contains (base : FactorBase) (prime : Nat) : Bool :=
  base.primes.contains prime

def indexOf (base : FactorBase) (prime : Nat) : Option Nat :=
  base.primes.findIdx? (· == prime)

def splits (base : FactorBase) (factorization : Factorization) : Bool :=
  factorization.primes.all base.contains

/-- Exponents of the factorization in the order of the base. -/
def exponentVector (base : FactorBase) (factorization : Factorization) : List Nat :=
  base.primes.map factorization.exponent

def text (base : FactorBase) : String :=
  listText base.primes

end FactorBase

end ResidueAlgebra
