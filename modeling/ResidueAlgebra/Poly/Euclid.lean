import ResidueAlgebra.Poly.Division
import ResidueAlgebra.Poly.Text
import ResidueAlgebra.Trace

/-!
# The Euclidean algorithm and modular powers

`gcd` is the Euclidean algorithm with a monic result; it is zero only when both operands are.
`gcdTraced` takes the same steps and writes each of them down; a step has a number that is at most one
above the degree of the second operand. `powMod` raises a polynomial to a power modulo another one by
squaring.
-/
set_option autoImplicit false
namespace ResidueAlgebra.Poly

/-- The last non-zero polynomial of the remainder sequence. -/
def lastRemainder (f g : Poly) : Outcome Poly :=
  if g.isZero then
    .ok f
  else
    match _ : f.divMod g with
    | .error halt => .error halt
    | .ok (_, remainder) => lastRemainder g remainder
  termination_by g.weight
  decreasing_by
    rename_i divided
    exact weight_remainder_lt divided

def gcd (f g : Poly) : Outcome Poly := do
  let last ← lastRemainder f g
  last.monic

/-- The remainder sequence, writing the pair, the quotient and the remainder of each step. -/
def lastRemainderTraced (step : Nat) (f g : Poly) : Traced Poly :=
  if g.isZero then
    pure f
  else do
    Traced.note s!"Step {step}:"
    Traced.note s!"gcd({f.text}, {g.text})"
    let ⟨(quotient, remainder), _⟩ ← (f.divMod g).attach
    Traced.note s!"{f.text} ÷ {g.text} = {quotient.text} remainder {remainder.text}"
    lastRemainderTraced (step + 1) g remainder
  termination_by g.weight
  decreasing_by
    rename_i divided
    exact weight_remainder_lt divided

def gcdTraced (f g : Poly) : Traced Poly := do
  let last ← lastRemainderTraced 1 f g
  let result ← last.monic
  if result ≠ last then
    Traced.note s!"Last non-zero remainder {last.text} made monic: {result.text}"
  Traced.blank
  Traced.note s!"gcd = {result.text}"
  return result

/-- Square and multiply modulo `divisor`, reading the exponent from its lowest bit. -/
def powModLoop (divisor result square : Poly) (exponent : Nat) : Outcome Poly :=
  if exponent = 0 then
    .ok result
  else do
    let result ←
      if exponent % 2 = 1 then do
        let product ← result.multiply square
        product.rem divisor
      else
        .ok result
    let product ← square.multiply square
    let square ← product.rem divisor
    powModLoop divisor result square (exponent / 2)
  termination_by exponent

def powMod (base : Poly) (exponent : Nat) (divisor : Poly) : Outcome Poly := do
  let unit ← one base.modulus
  let result ← unit.rem divisor
  let square ← base.rem divisor
  powModLoop divisor result square exponent

/-! ## Sizes -/

theorem degree_le_of_weight_lt {f g : Poly} (smaller : f.weight < g.weight) :
    f.degree ≤ g.degree ∨ f.isZero = true := by
  by_cases zero : f.isZero = true
  · exact Or.inr zero
  · left
    simp only [weight] at smaller
    rw [if_neg zero] at smaller
    split at smaller
    · omega
    · omega

theorem degree_lastRemainder_le {f g last : Poly} (nonzero : g.isZero = false)
    (success : lastRemainder f g = .ok last) : last.degree ≤ g.degree := by
  have general : ∀ (bound : Nat) (f g last : Poly), g.weight ≤ bound → g.isZero = false →
      lastRemainder f g = .ok last → last.degree ≤ g.degree := by
    intro bound
    induction bound with
    | zero =>
        intro f g last small nonzero _
        rw [weight, nonzero] at small
        simp at small
    | succ bound ih =>
        intro f g last small nonzero success
        rw [lastRemainder, nonzero] at success
        simp only [Bool.false_eq_true, ↓reduceIte] at success
        split at success
        · cases success
        · rename_i quotient remainder divided
          have smaller := weight_remainder_lt divided
          cases zero : remainder.isZero with
          | true =>
              rw [lastRemainder, zero] at success
              simp only [↓reduceIte] at success
              cases success
              exact Nat.le_refl _
          | false =>
              have next := ih g remainder last (by omega) zero success
              rcases degree_le_of_weight_lt smaller with le | isZero
              · omega
              · rw [zero] at isZero
                cases isZero
  exact general g.weight f g last (Nat.le_refl _) nonzero success

theorem degree_gcd_le {f g result : Poly} (nonzero : g.isZero = false)
    (success : gcd f g = .ok result) : result.degree ≤ g.degree := by
  rw [gcd] at success
  obtain ⟨last, ended, success⟩ := Outcome.bind_eq_ok success
  exact Nat.le_trans (degree_monic_le success) (degree_lastRemainder_le nonzero ended)

end ResidueAlgebra.Poly
