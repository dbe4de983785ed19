import ResidueAlgebra.Residue

/-!
# Greatest common divisors and inverses of residues

`bezout` carries the coefficients of its arguments through the Euclidean algorithm; an inverse
exists exactly when the greatest common divisor with the modulus is one, and is then the coefficient
of the value, reduced into the window of the modulus. Any other way to find coefficients will do:
`inverseBy` takes it as an argument.
-/
set_option autoImplicit false
namespace ResidueAlgebra.Residue

def gcdList (values : List Nat) : Nat :=
  values.foldl Nat.gcd 0

def coprime (left right : Nat) : Bool :=
  Nat.gcd left right == 1

/-- Coefficients `(x, y)` with `x * left + y * right` the greatest common divisor. -/
def bezout (left right : Nat) : Int × Int :=
  if _ : 0 < right then
    let inner := bezout right (left % right)
    (inner.2, inner.1 - (left / right : Nat) * inner.2)
  else
    (1, 0)
  termination_by right
  decreasing_by
    rename_i positive
    exact Nat.mod_lt left positive

/-- A greatest common divisor and the coefficients that combine two numbers to it. -/
structure ExtendedGcd where
  divisor : Int
  left : Int
  right : Int
  deriving DecidableEq

/-- Euclid's algorithm for numbers that are not negative. -/
def euclid (left right : Int) : ExtendedGcd :=
  let coefficients := bezout left.toNat right.toNat
  ⟨Nat.gcd left.toNat right.toNat, coefficients.1, coefficients.2⟩

/-- The residue whose product with `value` is one, from the coefficients that `extended` finds;
nothing is invertible modulo zero. -/
def inverseBy (extended : Int → Int → ExtendedGcd) (value modulus : Nat) : Option Nat :=
  if modulus = 0 then
    none
  else if modulus = 1 then
    some 0
  else
    let found := extended (value % modulus : Nat) modulus
    if found.divisor = 1 then some (found.left.fmod modulus).toNat else none

def inverse (value modulus : Nat) : Option Nat :=
  inverseBy euclid value modulus

end ResidueAlgebra.Residue
