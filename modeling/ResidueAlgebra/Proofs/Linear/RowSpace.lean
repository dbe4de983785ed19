import Mathlib.Algebra.Field.ZMod
import Mathlib.LinearAlgebra.Matrix.Rank
import ResidueAlgebra.Proofs.Linear.FullRank

/-!
# Row spaces

Two systems with the same solutions over every module have the same row space: in the quotient of
the space of rows by the row space of one system, the unit vectors solve that system, and so the
other. The rows of the pivots are linearly independent, and they span the row space if nothing is
left of the other rows.
-/
set_option autoImplicit false
namespace ResidueAlgebra

variable {m columns : Nat}

/-! ## Rows as vectors -/

def Equation.vector (m columns : Nat) (equation : Equation) : Fin columns → ZMod m :=
  fun column => equation.coefficient m column

def toMatrix (m columns : Nat) (rows : List (List Nat)) :
    Matrix (Fin rows.length) (Fin columns) (ZMod m) :=
  Matrix.of fun row column => (((rows.get row).getD column 0 : Nat) : ZMod m)

namespace LinearSystem

def rowSpace (m columns : Nat) (system : LinearSystem) :
    Submodule (ZMod m) (Fin columns → ZMod m) :=
  Submodule.span (ZMod m) { row | ∃ equation ∈ system.equations, equation.vector m columns = row }

/-- The unit vectors satisfy a bare equation modulo a space exactly if its row lies in the space. -/
theorem holds_quotient_iff {space : Submodule (ZMod m) (Fin columns → ZMod m)}
    {equation : Equation} (fitted : equation.Fits m columns) :
    equation.Holds (m := m) (fun column => space.mkQ fun j => if (j : Nat) = column then 1 else 0) 0
      ↔ equation.vector m columns ∈ space := by
  have combination : ∑ column ∈ Finset.range columns, equation.coefficient m column •
        (fun j : Fin columns => if (j : Nat) = column then (1 : ZMod m) else 0)
      = equation.vector m columns := by
    ext j
    simp [Finset.sum_apply, Equation.vector]
  rw [Equation.Holds, fitted.length_eq, smul_zero]
  simp only [← map_smul, ← map_sum]
  rw [combination, Submodule.mkQ_apply, Submodule.Quotient.mk_eq_zero]

theorem Equivalent.rowSpace_le {left right : LinearSystem} (equivalent : Equivalent m left right)
    (leftSized : left.Sized m columns) (rightSized : right.Sized m columns) :
    right.rowSpace m columns ≤ left.rowSpace m columns := by
  have leftHolds : left.Satisfied (m := m) (fun column => (left.rowSpace m columns).mkQ
      fun j => if (j : Nat) = column then 1 else 0) 0 := by
    intro equation member
    rw [holds_quotient_iff (leftSized.fits equation member)]
    exact Submodule.subset_span ⟨equation, member, rfl⟩
  have rightHolds := (equivalent _ _ _).mp leftHolds
  apply Submodule.span_le.mpr
  rintro row ⟨equation, member, rfl⟩
  exact (holds_quotient_iff (rightSized.fits equation member)).mp (rightHolds equation member)

theorem Equivalent.rowSpace_eq {left right : LinearSystem} (equivalent : Equivalent m left right)
    (leftSized : left.Sized m columns) (rightSized : right.Sized m columns) :
    left.rowSpace m columns = right.rowSpace m columns := by
  have reversed : Equivalent m right left := fun M _ _ unknowns unit =>
    (equivalent M unknowns unit).symm
  exact le_antisymm (reversed.rowSpace_le rightSized leftSized)
    (equivalent.rowSpace_le leftSized rightSized)

/-! ## The pivot rows are a basis -/

def pivotRow (m columns : Nat) (system : LinearSystem) (position : Fin system.rank) :
    Fin columns → ZMod m :=
  (system.solved.get position).2.vector m columns

theorem Echelon.linearIndependent {system : LinearSystem} (echelon : system.Echelon m columns) :
    LinearIndependent (ZMod m) (system.pivotRow m columns) := by
  rw [Fintype.linearIndependent_iff]
  intro factors vanishes position
  have member := List.get_mem system.solved position
  have column : (system.solved.get position).1 < columns := echelon.columns_lt _ member
  -- In the column of one pivot only its own row contributes.
  have entry := congrFun vanishes ⟨_, column⟩
  rw [Finset.sum_apply, Finset.sum_eq_single position] at entry
  · simpa [pivotRow, Equation.vector, echelon.pivot_one _ member] using entry
  · intro other _ different
    have keys : (system.solved.get other).1 ≠ (system.solved.get position).1 := by
      intro same
      have equal := List.inj_on_of_nodup_map echelon.distinct
        (List.get_mem system.solved other) member same
      exact different (List.nodup_iff_injective_get.mp echelon.distinct.of_map equal)
    have zero := echelon.solved_zero _ member _ (List.get_mem system.solved other) keys
    simp [pivotRow, Equation.vector, zero]
  · intro absent
    exact absurd (Finset.mem_univ position) absent

theorem Echelon.finrank_pivots [Fact m.Prime] {system : LinearSystem}
    (echelon : system.Echelon m columns) :
    Module.finrank (ZMod m) (Submodule.span (ZMod m) (Set.range (system.pivotRow m columns)))
      = system.rank := by
  rw [finrank_span_eq_card echelon.linearIndependent, Fintype.card_fin]

theorem span_pivotRow_le (system : LinearSystem) :
    Submodule.span (ZMod m) (Set.range (system.pivotRow m columns))
      ≤ system.rowSpace m columns := by
  apply Submodule.span_mono
  rintro row ⟨position, rfl⟩
  exact ⟨_, List.mem_append_left _ (List.mem_map_of_mem (List.get_mem system.solved position)),
    rfl⟩

theorem Exhausted.rowSpace_eq {system : LinearSystem} (exhausted : system.Exhausted m columns) :
    system.rowSpace m columns
      = Submodule.span (ZMod m) (Set.range (system.pivotRow m columns)) := by
  refine le_antisymm ?_ (span_pivotRow_le system)
  apply Submodule.span_le.mpr
  rintro row ⟨equation, member, rfl⟩
  rcases List.mem_append.mp member with solved | pending
  · obtain ⟨owned, present, rfl⟩ := List.mem_map.mp solved
    obtain ⟨position, rfl⟩ := List.get_of_mem present
    exact Submodule.subset_span ⟨position, rfl⟩
  · have zero : equation.vector m columns = 0 :=
      funext fun column => exhausted equation pending column column.isLt
    rw [zero]
    exact Submodule.zero_mem _

end LinearSystem

end ResidueAlgebra
