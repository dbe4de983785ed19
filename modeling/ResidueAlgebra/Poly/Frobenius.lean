import ResidueAlgebra.Poly.Euclid
import ResidueAlgebra.Linear.System
import ResidueAlgebra.Cancellation
import ResidueAlgebra.Prime.FactorBase

/-!
# The Frobenius matrix

Row `j` of the matrix of a polynomial `f` of degree `n` holds the remainder of `x^(p*j)` by `f`, from
the lowest degree up. Only `x^p` is computed by squaring; each row is the one before times `x^p`. The
rank of the matrix less the identity tells how many irreducible factors a square-free `f` has.
-/
set_option autoImplicit false
namespace ResidueAlgebra

structure FrobeniusMatrix where
  rows : List (List Nat)
  rank : Nat
  kernelDimension : Nat
  deriving DecidableEq

namespace FrobeniusMatrix

def powerText (exponent : Nat) : String :=
  match exponent with
  | 0 => "1"
  | 1 => "x"
  | _ => s!"x^{exponent}"

/-- The rows from `index` on, `power` being the row before the first of them. -/
def gatherRows (token : Token) (f frobenius : Poly) (power : Poly) (index : Nat) :
    Nat → Traced (List (List Nat))
  | 0 => pure []
  | remaining + 1 => do
      token.check
      let power ←
        if index = 0 then
          pure power
        else do
          let product ← power.multiply frobenius
          product.rem f
      let row := power.ascending f.degree
      let exponent ← Word.fit Word.wide (f.modulus * index)
      Traced.note
        s!"{index}: {powerText exponent} mod f(x) = {power.text} -> {listText row}"
      let rest ← gatherRows token f frobenius power (index + 1) remaining
      return row :: rest

def minusIdentity (rows : List (List Nat)) (modulus : Nat) : Outcome (List (List Nat)) :=
  rows.zipIdx.mapM fun (row, i) =>
    row.zipIdx.mapM fun (entry, j) =>
      if i = j then Residue.sub entry 1 modulus else .ok entry

def noteRows (rows : List (List Nat)) : Traced Unit :=
  Traced.notes (rows.map fun row => s!"    {listText row}")

def ofPoly (token : Token) (f : Poly) : Traced FrobeniusMatrix := do
  if f.isZero || f.degree < 1 then
    throw (.fault (.invalidInput .constantPolynomial))
  Traced.note s!"Factor the polynomial {f.text} over Z_{f.modulus}[x]"
  Traced.blank
  Traced.note "n = deg(f)"
  Traced.note s!"n = {f.degree}"
  Traced.blank
  let x ← Poly.monomial 1 1 f.modulus
  let frobenius ← x.powMod f.modulus f
  let unit ← Poly.one f.modulus
  let start ← unit.rem f
  let rows ← gatherRows token f frobenius start 0 f.degree
  Traced.blank
  Traced.note "Matrix Q:"
  noteRows rows
  let shifted ← minusIdentity rows f.modulus
  let rank ← matrixRank shifted f.modulus
  let kernelDimension ← Word.minus f.degree rank
  Traced.blank
  Traced.note s!"Matrix Q - E mod {f.modulus}:"
  noteRows shifted
  Traced.note s!"r = rank(Q - E) = {rank}"
  Traced.note s!"k = n - r = {f.degree} - {rank} = {kernelDimension}"
  if kernelDimension = 1 then
    Traced.note "k = 1: a square-free f(x) is irreducible"
  Traced.blank
  Traced.note "Factor extraction from the null space of Q - E is not implemented."
  return ⟨rows, rank, kernelDimension⟩

end FrobeniusMatrix

end ResidueAlgebra
