import ResidueAlgebra.Residue.Inverse
import ResidueAlgebra.Residue.Row

/-!
# Linear systems over residues

Gauss-Jordan elimination modulo a number that need not be prime. A column gets a pivot only from an
entry that is a unit; columns whose remaining entries are all zero divisors are skipped, so over a
composite modulus the number of pivots can be lower than over a field. The first equation with a unit
changes places with the first pending one, is scaled to a leading one, and clears its column in every
other equation.
-/
set_option autoImplicit false
namespace ResidueAlgebra

structure Equation where
  entries : List Nat
  side : Nat
  deriving DecidableEq

/-- Equations that own a pivot column, in order, and those still without one. A system built from a
bare matrix has sides zero and is not `augmented`. -/
structure LinearSystem where
  modulus : Nat
  columns : Nat
  augmented : Bool
  solved : List (Nat × Equation)
  pending : List Equation
  reduced : Bool
  deriving DecidableEq

namespace Equation

def entry (equation : Equation) (column : Nat) : Outcome Nat :=
  match equation.entries[column]? with
  | some value => .ok value
  | none => Outcome.breach .outOfRange

def hasUnit (modulus column : Nat) (equation : Equation) : Outcome Bool := do
  let value ← equation.entry column
  .ok (value != 0 && Residue.coprime value modulus)

/-- Scales the entry in `column` to one; without an inverse the equation stays as it is. -/
def normalize (modulus column : Nat) (equation : Equation) : Outcome Equation := do
  let value ← equation.entry column
  match Residue.inverse value modulus with
  | none => .ok equation
  | some inverse => do
      let entries ← equation.entries.mapM fun entry => Residue.mul entry inverse modulus
      let side ← Residue.mul equation.side inverse modulus
      .ok ⟨entries, side⟩

/-- Subtracts the multiple of `pivot` that clears `column`. -/
def clear (modulus column : Nat) (equation pivot : Equation) : Outcome Equation := do
  let factor ← equation.entry column
  if factor = 0 then
    .ok equation
  else do
    let entries ← Residue.subtractMultiple modulus factor equation.entries pivot.entries
    let product ← Residue.mul factor pivot.side modulus
    let side ← Residue.sub equation.side product modulus
    .ok ⟨entries, side⟩

end Equation

namespace LinearSystem

def equations (system : LinearSystem) : List Equation :=
  system.solved.map Prod.snd ++ system.pending

def rows (system : LinearSystem) : List (List Nat) :=
  system.equations.map Equation.entries

def sides (system : LinearSystem) : Option (List Nat) :=
  if system.augmented then some (system.equations.map Equation.side) else none

/-- Row and column of every pivot, in order of the columns. -/
def pivots (system : LinearSystem) : List (Nat × Nat) :=
  system.solved.zipIdx.map fun (owned, row) => (row, owned.1)

def rank (system : LinearSystem) : Nat :=
  system.solved.length

/-! ## Construction -/

def build (rows : List (List Nat)) (sides : List Nat) (augmented : Bool) (modulus : Nat) :
    Outcome LinearSystem :=
  if modulus = 0 then
    Outcome.fault (.modulusNotPrime modulus)
  else
    let columns := (rows.head?.map List.length).getD 0
    if rows.any fun row => row.length != columns then
      Outcome.reject .raggedRows
    else do
      let pending ← (rows.zip sides).mapM fun (row, side) => do
        let entries ← row.mapM fun entry => Residue.reduce entry modulus
        let side ← Residue.reduce side modulus
        .ok (Equation.mk entries side)
      .ok ⟨modulus, columns, augmented, [], pending, false⟩

def ofRows (rows : List (List Nat)) (modulus : Nat) : Outcome LinearSystem :=
  build rows (List.replicate rows.length 0) false modulus

def ofEquations (rows : List (List Nat)) (sides : List Nat) (modulus : Nat) :
    Outcome LinearSystem :=
  if rows.length = sides.length then
    build rows sides true modulus
  else
    Outcome.reject (.sidesDiffer rows.length sides.length)

/-! ## Elimination -/

/-- The first equation with a unit in `column`, `first` taking its place among the others. -/
def exchange (modulus column : Nat) (first : Equation) :
    List Equation → Outcome (Option (Equation × List Equation))
  | [] => .ok none
  | equation :: rest => do
      if ← equation.hasUnit modulus column then
        .ok (some (equation, first :: rest))
      else do
        match ← exchange modulus column first rest with
        | none => .ok none
        | some (pivot, others) => .ok (some (pivot, equation :: others))

def choosePivot (modulus column : Nat) :
    List Equation → Outcome (Option (Equation × List Equation))
  | [] => .ok none
  | first :: rest => do
      if ← first.hasUnit modulus column then
        .ok (some (first, rest))
      else
        exchange modulus column first rest

def processColumn (system : LinearSystem) (column : Nat) : Outcome LinearSystem := do
  match ← choosePivot system.modulus column system.pending with
  | none => .ok system
  | some (chosen, others) => do
      let pivot ← chosen.normalize system.modulus column
      let solved ← system.solved.mapM fun (owned, equation) => do
        let cleared ← equation.clear system.modulus column pivot
        .ok (owned, cleared)
      let pending ← others.mapM fun equation => equation.clear system.modulus column pivot
      .ok { system with solved := solved ++ [(column, pivot)], pending := pending }

def eliminate (system : LinearSystem) : Outcome LinearSystem :=
  if system.reduced then
    .ok system
  else do
    let finished ← (List.range system.columns).foldlM processColumn system
    .ok { finished with reduced := true }

end LinearSystem

/-- Number of unit pivots that elimination finds. -/
def matrixRank (rows : List (List Nat)) (modulus : Nat) : Outcome Nat := do
  let system ← LinearSystem.ofRows rows modulus
  let finished ← system.eliminate
  .ok finished.rank

end ResidueAlgebra
