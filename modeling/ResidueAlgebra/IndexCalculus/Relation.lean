import ResidueAlgebra.Prime.FactorBase
import ResidueAlgebra.Linear.System

/-!
# Relations

A relation says that a power of the generator, with the given exponent, is `value`, and how `value`
factors; read in logarithms it is a linear equation. `RelationSystem` collects relations that split
over a factor base, have values not seen before and raise the rank of the matrix of exponents.
-/
set_option autoImplicit false
namespace ResidueAlgebra

structure Relation where
  value : Nat
  exponent : Nat
  factorization : Factorization
  deriving DecidableEq

namespace Relation

/-- At least one prime, and all of them in the base. -/
def isSmooth (relation : Relation) (base : FactorBase) : Bool :=
  !relation.factorization.isEmpty && base.splits relation.factorization

def exponentVector (relation : Relation) (base : FactorBase) : List Nat :=
  base.exponentVector relation.factorization

def equation (relation : Relation) : String :=
  s!"log({relation.value}) = {relation.factorization.logTerms} = {relation.exponent}"

end Relation

inductive Admission where
  | accepted
  | notSmooth
  | duplicateValue
  | linearlyDependent
  deriving DecidableEq

/-- Accepted relations in order, with the matrix of their exponent vectors and its rank. -/
structure RelationSystem where
  base : FactorBase
  modulus : Nat
  relations : List Relation
  matrix : List (List Nat)
  rank : Nat
  deriving DecidableEq

namespace RelationSystem

def empty (base : FactorBase) (modulus : Nat) : RelationSystem :=
  ⟨base, modulus, [], [], 0⟩

def containsValue (system : RelationSystem) (value : Nat) : Bool :=
  system.relations.any fun relation => relation.value == value

/-- Adds the relation when it splits over the base, its value is new and its row raises the rank;
otherwise the system stays as it is. -/
def offer (system : RelationSystem) (relation : Relation) : Outcome (Admission × RelationSystem) :=
  if !relation.isSmooth system.base then
    .ok (.notSmooth, system)
  else if system.containsValue relation.value then
    .ok (.duplicateValue, system)
  else do
    let matrix := system.matrix ++ [relation.exponentVector system.base]
    let rank ← matrixRank matrix system.modulus
    if rank ≤ system.rank then
      .ok (.linearlyDependent, system)
    else
      .ok (.accepted,
        { system with relations := system.relations ++ [relation], matrix := matrix, rank := rank })

def isFull (system : RelationSystem) : Bool :=
  system.rank == system.base.size

def sides (system : RelationSystem) : List Nat :=
  system.relations.map Relation.exponent

end RelationSystem

end ResidueAlgebra
