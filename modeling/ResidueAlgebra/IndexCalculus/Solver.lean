import ResidueAlgebra.IndexCalculus.Relation
import ResidueAlgebra.Linear.Solution
import ResidueAlgebra.Cancellation
import ResidueAlgebra.Trace

/-!
# Discrete logarithms by index calculus

For a prime `n`, powers of the generator that split over the factor base give linear equations for
the logarithms of the base modulo `n - 1`. Once they determine the base, the logarithm of the
generator is read off its factorization, and that of the target off the first product of the target
with a power of the generator that splits.
-/
set_option autoImplicit false
namespace ResidueAlgebra

structure LogSolution where
  log : Nat
  baseLogs : List (Nat × Nat)
  generatorLog : Nat
  relations : List Relation
  targetShift : Nat
  deriving DecidableEq

/-- The factor base and the optional bounds of the two searches. Relations are searched below their
bound, by default below `n`; the target up to and including its bound, by default `n - 1`. -/
structure LogSolver where
  base : FactorBase
  relationBound : Option Nat
  targetBound : Option Nat
  token : Token

namespace LogSolver

def validate (g a n : Nat) : Outcome Unit := do
  if n < 3 then
    Outcome.fault (.modulusNotPrime n)
  else do
    if ← TrialDivision.isPrime n then
      if g % n = 0 then
        Outcome.reject (.generatorZero g n)
      else if a % n = 0 then
        Outcome.reject (.targetZero a n)
      else
        .ok ()
    else
      Outcome.fault (.modulusNotPrime n)

/-! ## Logarithms of factorizations -/

def baseLog (solver : LogSolver) (logs : List Nat) (prime : Nat) : Outcome Nat :=
  match solver.base.indexOf prime with
  | none => .ok 0
  | some index =>
      match logs[index]? with
      | some log => .ok log
      | none => Outcome.breach .outOfRange

def sumOfLogs (solver : LogSolver) (factorization : Factorization) (logs : List Nat) (m : Nat) :
    Outcome Nat :=
  factorization.entries.foldlM
    (fun sum (prime, power) => do
      let log ← solver.baseLog logs prime
      let power ← Residue.reduce power m
      let product ← Residue.mul power log m
      Residue.add sum product m)
    0

def substitutedTerms (solver : LogSolver) (factorization : Factorization) (logs : List Nat) :
    Outcome String :=
  if factorization.isEmpty then
    .ok "0"
  else do
    let known := factorization.entries.filter fun (prime, _) => solver.base.contains prime
    let terms ← known.mapM fun (prime, power) => do
      let log ← solver.baseLog logs prime
      .ok s!"{power}*{log}"
    .ok (" + ".intercalate terms)

/-! ## Gathering relations -/

/-- Tries the exponents from `k` on until the system is full. -/
def searchRelations (solver : LogSolver) (g n : Nat) (k : Nat) (system : RelationSystem) :
    Nat → Traced RelationSystem
  | 0 => pure system
  | remaining + 1 => do
      solver.token.check
      let value ← Residue.pow g k n
      if value = 1 then
        searchRelations solver g n (k + 1) system remaining
      else do
        let factorization ← TrialDivision.factor value
        let relation : Relation := ⟨value, k, factorization⟩
        let (admission, system) ← system.offer relation
        match admission with
        | .accepted =>
            Traced.note s!"k = {k}: b = {g}^{k} = {value} mod {n} => {relation.equation}"
            if system.isFull then
              Traced.blank
              Traced.note s!"Full rank reached (rank = {system.rank})."
              pure system
            else
              searchRelations solver g n (k + 1) system remaining
        | .linearlyDependent =>
            Traced.note
              s!"k = {k}: equation for b = {value} is linearly dependent, not added"
            searchRelations solver g n (k + 1) system remaining
        | .notSmooth | .duplicateValue =>
            searchRelations solver g n (k + 1) system remaining

def gatherRelations (solver : LogSolver) (g n : Nat) : Traced RelationSystem := do
  let bound := solver.relationBound.getD n
  let m ← Word.minus n 1
  let system ← searchRelations solver g n 1 (RelationSystem.empty solver.base m) (bound - 1)
  if system.isFull then
    Traced.blank
    Traced.note "System of equations:"
    Traced.notes (system.relations.map fun relation =>
      s!"log({relation.value}) = {relation.exponent} ({relation.factorization.logTerms})")
    return system
  else
    Traced.blank
    Traced.note
      s!"Relation search exhausted k < {bound} at rank {system.rank} (need {solver.base.size})."
    throw (.fault (.tooFewRelations system.rank solver.base.size))

/-! ## Logarithms of the base, the generator and the target -/

def solveBaseLogs (solver : LogSolver) (system : RelationSystem) : Traced (List Nat) := do
  Traced.note s!"Solving the system mod {system.modulus} for the base logarithms:"
  Traced.note "A ="
  Traced.notes (system.matrix.map fun row => s!"    {listText row}")
  Traced.note "b ="
  Traced.notes (system.sides.map fun value => s!"    {value}")
  match LinearSystem.solve system.matrix system.sides system.modulus with
  | .ok solution => do
      Traced.notes ((solver.base.primes.zip solution).map fun (prime, log) =>
        s!"log({prime}) = {log}")
      return solution
  | .error (.fault cause) => do
      Traced.note s!"The system could not be solved: {cause.message}"
      throw (.fault cause)
  | .error (.breach cause) => throw (.breach cause)

def generatorLog (solver : LogSolver) (g m : Nat) (logs : List Nat) : Traced Nat := do
  let factorization ← TrialDivision.factor g
  if solver.base.splits factorization then
    let log ← solver.sumOfLogs factorization logs m
    Traced.note s!"log({g}) = {factorization.logTerms} = {log} mod {m}"
    return log
  else
    Traced.note s!"Generator g = {g} does not split over S = {solver.base.text}."
    throw (.fault (.generatorOutsideBase g))

/-- The answer from a product with the `k`-th power of the generator that splits. -/
def finish (solver : LogSolver) (g a n m k : Nat) (generatorLog : Nat) (logs : List Nat)
    (factorization : Factorization) : Traced Nat := do
  let sum ← solver.sumOfLogs factorization logs m
  let shift ← Residue.reduce k m
  let offset ← Residue.mul shift generatorLog m
  let log ← Residue.sub sum offset m
  let substituted ← solver.substitutedTerms factorization logs
  Traced.note s!"log({a}) + {k}*log({g}) = {factorization.logTerms} mod {m}"
  Traced.note "Substituting the base logarithms:"
  Traced.note s!"log({a}) + {k}*{generatorLog} = {substituted} mod {m}"
  Traced.note
    s!"log({a}) = ({substituted}) - {k}*{generatorLog} mod {m} = {log} mod {m}"
  let check ← Residue.pow g log n
  Traced.note s!"Check: {g}^{log} mod {n} = {check}"
  if check = a then
    Traced.note s!"Answer: {log}"
    return log
  else
    throw (.fault (.wrongAnswer log check))

/-- Tries the shifts from `k` on; the shift that splits and the logarithm it gives. -/
def searchTarget (solver : LogSolver) (g a n m : Nat) (generatorLog : Nat) (logs : List Nat)
    (k : Nat) : Nat → Traced (Option (Nat × Nat))
  | 0 => pure none
  | remaining + 1 => do
      solver.token.check
      let power ← Residue.pow g k n
      let product ← Residue.mul a power n
      let factorization ← TrialDivision.factor product
      if solver.base.splits factorization then
        Traced.note s!"k = {k}: {a} * {g}^{k} = {product} mod {n}, splits over S"
        let log ← solver.finish g a n m k generatorLog logs factorization
        return some (k, log)
      else
        Traced.note s!"k = {k}: {a} * {g}^{k} = {product} mod {n}, does not split over S"
        searchTarget solver g a n m generatorLog logs (k + 1) remaining

def targetLog (solver : LogSolver) (g a n m : Nat) (generatorLog : Nat) (logs : List Nat) :
    Traced (Nat × Nat) := do
  let bound := solver.targetBound.getD m
  match ← searchTarget solver g a n m generatorLog logs 1 bound with
  | some found => return found
  | none =>
      Traced.note s!"No k <= {bound} makes {a} * {g}^k split over S."
      throw (.fault (.targetNotReachable a))

def solve (solver : LogSolver) (g a n : Nat) : Traced LogSolution := do
  validate g a n
  let g ← Residue.reduce g n
  let a ← Residue.reduce a n
  let m ← Word.minus n 1
  Traced.note s!"Find L = log_{g}({a}) mod {m}, i.e. {g}^L = {a} (mod {n})"
  Traced.blank
  Traced.note "1)"
  Traced.note s!"Factor base: S = {solver.base.text}"
  Traced.blank
  Traced.note "2)"
  let system ← solver.gatherRelations g n
  Traced.blank
  Traced.note "3)"
  let logs ← solver.solveBaseLogs system
  let generatorLog ← solver.generatorLog g m logs
  Traced.blank
  Traced.note "4) Computing log(a):"
  let (targetShift, log) ← solver.targetLog g a n m generatorLog logs
  return ⟨log, solver.base.primes.zip logs, generatorLog, system.relations, targetShift⟩

end LogSolver

end ResidueAlgebra
