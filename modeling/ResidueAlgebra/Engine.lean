import ResidueAlgebra.Config.Settings
import ResidueAlgebra.IndexCalculus.Solver
import ResidueAlgebra.Poly.Frobenius
import ResidueAlgebra.Poly.SquareFree

/-!
# Entry points

Each entry point checks its modulus, computes, and hands back its trace even when it fails. The three
on polynomials accept prime moduli only.
-/
set_option autoImplicit false
namespace ResidueAlgebra.Engine

def requirePrime (p : Nat) : Outcome Unit := do
  if ← TrialDivision.isPrime p then .ok () else Outcome.fault (.modulusNotPrime p)

def squareFreeSteps (coefficients : List Int) (p : Nat) (token : Token) : Traced (List Poly) := do
  requirePrime p
  let f ← Poly.ofIntegers coefficients p
  Traced.note s!"Square-free decomposition of f(x) = {f.text} over GF({p})"
  let factors ← f.decompose token
  Traced.blank
  Traced.note s!"Factors: {Poly.productText factors}"
  return factors

def squareFree (coefficients : List Int) (p : Nat) (token : Token) : Derivation (List Poly) :=
  Derivation.ofTraced (squareFreeSteps coefficients p token)

def commonDivisorSteps (left right : List Int) (p : Nat) : Traced Poly := do
  requirePrime p
  let f ← Poly.ofIntegers left p
  let g ← Poly.ofIntegers right p
  Traced.note s!"f(x) = {f.text}"
  Traced.note s!"g(x) = {g.text}"
  Traced.blank
  Poly.gcdTraced f g

def commonDivisor (left right : List Int) (p : Nat) : Derivation Poly :=
  Derivation.ofTraced (commonDivisorSteps left right p)

def frobeniusSteps (coefficients : List Int) (p : Nat) (token : Token) :
    Traced FrobeniusMatrix := do
  requirePrime p
  let f ← Poly.ofIntegers coefficients p
  FrobeniusMatrix.ofPoly token f

def frobenius (coefficients : List Int) (p : Nat) (token : Token) : Derivation FrobeniusMatrix :=
  Derivation.ofTraced (frobeniusSteps coefficients p token)

def discreteLogSteps (g a n : Nat) (settings : Settings) (token : Token) :
    Traced LogSolution := do
  let base ← settings.factorBase
  let solver : LogSolver := ⟨base, settings.relationBound, settings.targetBound, token⟩
  solver.solve g a n

def discreteLog (g a n : Nat) (settings : Settings) (token : Token) : Derivation LogSolution :=
  Derivation.ofTraced (discreteLogSteps g a n settings token)

/-- Independent queries `(g, a, n)`, answered in order. -/
def discreteLogs (queries : List (Nat × Nat × Nat)) (settings : Settings) (token : Token) :
    List (Derivation LogSolution) :=
  queries.map fun (g, a, n) => discreteLog g a n settings token

end ResidueAlgebra.Engine
