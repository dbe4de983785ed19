import ResidueAlgebra.Poly.Basic

/-!
# Polynomials in words

Terms run from the highest degree down and are joined by a plus sign. Terms with coefficient zero are
left out, a coefficient one is written only in the constant term, and the zero polynomial is `0`.
-/
set_option autoImplicit false
namespace ResidueAlgebra.Poly

def termText (coefficient exponent : Nat) : String :=
  let factor := if coefficient = 1 then "" else s!"{coefficient}"
  match exponent with
  | 0 => s!"{coefficient}"
  | 1 => s!"{factor}x"
  | _ => s!"{factor}x^{exponent}"

/-- The terms of a list of coefficients that ends with the constant one. -/
def termTexts : List Nat → List String
  | [] => []
  | coefficient :: rest =>
      if coefficient = 0 then termTexts rest
      else termText coefficient rest.length :: termTexts rest

def text (f : Poly) : String :=
  match termTexts f.coefficients with
  | [] => "0"
  | terms => " + ".intercalate terms

def productText (factors : List Poly) : String :=
  " * ".intercalate (factors.map fun factor => s!"({factor.text})")

end ResidueAlgebra.Poly
