import ResidueAlgebra.Linear.System

/-!
# Solutions of linear systems

A solution sets the columns without a pivot to zero and reads the others off the reduced sides. It is
checked against every equation as it was given, which catches the columns that elimination gave up
although they had a part in a solution.
-/
set_option autoImplicit false
namespace ResidueAlgebra.LinearSystem

/-- Index, from `row` on, of the first equation that does not hold. -/
def firstUnsatisfied (modulus : Nat) (solution : List Nat) (row : Nat) :
    List (List Nat × Nat) → Outcome (Option Nat)
  | [] => .ok none
  | (entries, expected) :: rest => do
      let value ← Residue.dot modulus entries solution
      let expected ← Residue.reduce expected modulus
      if value = expected then
        firstUnsatisfied modulus solution (row + 1) rest
      else
        .ok (some row)

def contradictory (equation : Equation) : Bool :=
  equation.entries.all (· == 0) && equation.side != 0

/-- The side of the equation that owns `column`, zero when none does. -/
def pivotValue (system : LinearSystem) (column : Nat) : Nat :=
  ((system.solved.find? fun owned => owned.1 == column).map fun owned => owned.2.side).getD 0

def candidate (system : LinearSystem) : List Nat :=
  (List.range system.columns).map system.pivotValue

def solve (rows : List (List Nat)) (sides : List Nat) (modulus : Nat) : Outcome (List Nat) :=
  if rows.isEmpty then
    Outcome.fault .noSolution
  else do
    let system ← ofEquations rows sides modulus
    let finished ← system.eliminate
    if finished.equations.any contradictory then
      Outcome.fault .noSolution
    else do
      match ← firstUnsatisfied modulus finished.candidate 0 (rows.zip sides) with
      | some row => Outcome.fault (.equationFails row)
      | none => .ok finished.candidate

end ResidueAlgebra.LinearSystem
