import ResidueAlgebra.Residue

/-!
# Rows of residues

Row operations shared by long division and elimination.
-/
set_option autoImplicit false
namespace ResidueAlgebra.Residue

/-- Subtracts a multiple of one row from another, entry by entry from the front. -/
def subtractMultiple (modulus factor : Nat) : List Nat → List Nat → Outcome (List Nat)
  | entry :: entries, coefficient :: coefficients => do
      let product ← mul factor coefficient modulus
      let difference ← sub entry product modulus
      let rest ← subtractMultiple modulus factor entries coefficients
      .ok (difference :: rest)
  | entries, [] => .ok entries
  | [], _ => .ok []

/-- Sum of the products of corresponding entries; the longer list is cut. -/
def dot (modulus : Nat) (left right : List Nat) : Outcome Nat :=
  (left.zip right).foldlM
    (fun sum (a, x) => do
      let product ← mul a x modulus
      add sum product modulus)
    0

theorem subtractMultiple_length {modulus factor : Nat} {entries coefficients result : List Nat}
    (success : subtractMultiple modulus factor entries coefficients = .ok result) :
    result.length = entries.length := by
  induction entries generalizing coefficients result with
  | nil =>
      cases coefficients <;> cases success <;> rfl
  | cons entry entries ih =>
      cases coefficients with
      | nil =>
          cases success
          rfl
      | cons coefficient coefficients =>
          rw [subtractMultiple] at success
          obtain ⟨product, _, success⟩ := Outcome.bind_eq_ok success
          obtain ⟨difference, _, success⟩ := Outcome.bind_eq_ok success
          obtain ⟨rest, inner, success⟩ := Outcome.bind_eq_ok success
          cases success
          simp [ih inner]

end ResidueAlgebra.Residue
