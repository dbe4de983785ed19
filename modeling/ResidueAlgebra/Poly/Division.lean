import ResidueAlgebra.Poly.Basic
import ResidueAlgebra.Residue.Row

/-!
# Long division

Division by a polynomial whose leading coefficient is invertible. Each pass scales the divisor to the
current leading coefficient and drops that coefficient, so the number of passes is known from the two
degrees and the remainder ends shorter than the divisor.
-/
set_option autoImplicit false
namespace ResidueAlgebra.Poly

/-- Quotient and remainder coefficients after the given number of passes; `lower` are the divisor's
coefficients below its leading one. -/
def longDivision (modulus inverse : Nat) (lower : List Nat) :
    Nat → List Nat → Outcome (List Nat × List Nat)
  | passes + 1, entry :: entries => do
      let factor ← Residue.mul entry inverse modulus
      let reduced ← Residue.subtractMultiple modulus factor entries lower
      let (quotient, remainder) ← longDivision modulus inverse lower passes reduced
      .ok (factor :: quotient, remainder)
  | _, entries => .ok ([], entries)

def divMod (f divisor : Poly) : Outcome (Poly × Poly) :=
  if f.modulus ≠ divisor.modulus then
    Outcome.reject (.fieldsDiffer f.modulus divisor.modulus)
  else if divisor.isZero then
    Outcome.fault .zeroDivisor
  else do
    let inverse ← divisor.leadingInverse
    let passes := f.coefficients.length - divisor.lower.length
    let (quotient, remainder) ←
      longDivision f.modulus inverse divisor.lower passes f.coefficients
    let quotient ← ofResidues quotient f.modulus
    let remainder ← ofResidues remainder f.modulus
    .ok (quotient, remainder)

def div (f divisor : Poly) : Outcome Poly := do
  let (quotient, _) ← f.divMod divisor
  .ok quotient

def rem (f divisor : Poly) : Outcome Poly := do
  let (_, remainder) ← f.divMod divisor
  .ok remainder

/-! ## The remainder is smaller than the divisor -/

/-- Zero for the zero polynomial, else one more than the degree. -/
def weight (f : Poly) : Nat :=
  if f.isZero then 0 else f.degree + 1

theorem longDivision_remainder_length {modulus inverse : Nat} {lower : List Nat} {passes : Nat}
    {entries quotient remainder : List Nat}
    (success : longDivision modulus inverse lower passes entries = .ok (quotient, remainder)) :
    remainder.length = entries.length - passes := by
  induction passes generalizing entries quotient remainder with
  | zero =>
      cases entries <;> cases success <;> simp
  | succ passes ih =>
      cases entries with
      | nil =>
          cases success
          simp
      | cons entry entries =>
          rw [longDivision] at success
          obtain ⟨factor, _, success⟩ := Outcome.bind_eq_ok success
          obtain ⟨reduced, lowered, success⟩ := Outcome.bind_eq_ok success
          obtain ⟨pair, inner, success⟩ := Outcome.bind_eq_ok success
          cases success
          rw [ih inner, Residue.subtractMultiple_length lowered]
          simp

theorem weight_trim_le (modulus : Nat) (coefficients : List Nat) :
    (trim modulus coefficients).weight ≤ coefficients.length := by
  induction coefficients with
  | nil => simp [trim, weight, isZero]
  | cons coefficient rest ih =>
      rw [trim]
      split
      · exact Nat.le_trans ih (by simp)
      · rename_i nonzero
        simp [weight, isZero, nonzero, degree]

theorem weight_ofResidues_le {coefficients : List Nat} {modulus : Nat} {f : Poly}
    (success : ofResidues coefficients modulus = .ok f) : f.weight ≤ coefficients.length := by
  rw [ofResidues] at success
  obtain ⟨residues, reduced, success⟩ := Outcome.bind_eq_ok success
  cases success
  rw [← Outcome.mapM_length reduced]
  exact weight_trim_le modulus residues

theorem weight_remainder_lt {f divisor quotient remainder : Poly}
    (success : f.divMod divisor = .ok (quotient, remainder)) :
    remainder.weight < divisor.weight := by
  rw [divMod] at success
  split at success
  · cases success
  · split at success
    · cases success
    · rename_i nonzero
      obtain ⟨inverse, _, success⟩ := Outcome.bind_eq_ok success
      obtain ⟨pair, divided, success⟩ := Outcome.bind_eq_ok success
      obtain ⟨first, _, success⟩ := Outcome.bind_eq_ok success
      obtain ⟨second, rest, success⟩ := Outcome.bind_eq_ok success
      cases success
      have bound := weight_ofResidues_le rest
      rw [longDivision_remainder_length divided] at bound
      have whole : divisor.weight = divisor.degree + 1 := by rw [weight, if_neg nonzero]
      rw [whole]
      simp only [degree, coefficients, List.length_cons] at bound ⊢
      omega

end ResidueAlgebra.Poly
