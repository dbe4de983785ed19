import ResidueAlgebra.Prime.FactorBase

/-!
# Settings

What a user may choose: the log level, the primes of the factor base, the bounds of the two searches
of a discrete logarithm, and the time a command may take.
-/
set_option autoImplicit false
namespace ResidueAlgebra

structure Settings where
  logLevel : String
  primes : List Nat
  relationBound : Option Nat
  targetBound : Option Nat
  timeoutSeconds : Nat
  deriving DecidableEq

namespace Settings

def default : Settings :=
  ⟨"info", FactorBase.default.primes, none, none, 10⟩

def factorBase (settings : Settings) : Outcome FactorBase :=
  FactorBase.ofPrimes settings.primes

end Settings

end ResidueAlgebra
