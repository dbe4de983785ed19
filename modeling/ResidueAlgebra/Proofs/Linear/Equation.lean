import Mathlib.Algebra.BigOperators.Group.Finset.Basic
import Mathlib.Algebra.Module.BigOperators
import Mathlib.Data.List.GetD
import Mathlib.Tactic.Abel
import ResidueAlgebra.Linear.System
import ResidueAlgebra.Proofs.Residue.Row

/-!
# Equations over residues

The two row operations as operations on coefficients in `ZMod m`, and what an equation says. The
unknowns range over any module over `ZMod m`, and the side is a multiple of one fixed element of it:
with the ring itself this is an ordinary congruence, with a group written multiplicatively it is a
relation between powers. Scaling by a unit and subtracting a multiple of an equation that holds do
not change whether an equation holds.
-/
set_option autoImplicit false
namespace ResidueAlgebra.Equation

variable {m columns : Nat}

/-- The entry in a column as a residue; zero past the end. -/
def coefficient (m : Nat) (equation : Equation) (column : Nat) : ZMod m :=
  (equation.entries.getD column 0 : Nat)

structure Fits (m columns : Nat) (equation : Equation) : Prop where
  length_eq : equation.entries.length = columns
  entries_lt : ∀ entry ∈ equation.entries, entry < m
  side_lt : equation.side < m

def Usable (m column : Nat) (equation : Equation) : Prop :=
  equation.entries.getD column 0 ≠ 0 ∧ Nat.Coprime (equation.entries.getD column 0) m

instance (m column : Nat) (equation : Equation) : Decidable (equation.Usable m column) :=
  inferInstanceAs (Decidable (_ ∧ _))

theorem Usable.isUnit {column : Nat} {equation : Equation} (usable : equation.Usable m column) :
    IsUnit (equation.coefficient m column) :=
  (ZMod.isUnit_iff_coprime _ m).mpr usable.2

theorem Usable.isUnit_inv {column : Nat} {equation : Equation}
    (usable : equation.Usable m column) : IsUnit (equation.coefficient m column)⁻¹ :=
  IsUnit.of_mul_eq_one _ (by rw [mul_comm]; exact ZMod.mul_inv_of_unit _ usable.isUnit)

def scaled (factor : ZMod m) (equation : Equation) : Equation :=
  ⟨equation.entries.map fun entry : Nat => (entry * factor : ZMod m).val,
    (equation.side * factor : ZMod m).val⟩

def minus (factor : ZMod m) (equation pivot : Equation) : Equation :=
  ⟨Residue.rowMinus factor equation.entries pivot.entries,
    (equation.side - factor * pivot.side : ZMod m).val⟩

/-! ## The machine's operations -/

theorem Fits.entry_eq {equation : Equation} (fitted : equation.Fits m columns) {column : Nat}
    (inside : column < columns) :
    equation.entry column = .ok (equation.entries.getD column 0) := by
  have bound : column < equation.entries.length := fitted.length_eq ▸ inside
  rw [entry, List.getElem?_eq_getElem bound, List.getD_eq_getElem _ _ bound]

theorem Fits.entry_lt [NeZero m] {equation : Equation} (fitted : equation.Fits m columns)
    (column : Nat) : equation.entries.getD column 0 < m := by
  rcases Nat.lt_or_ge column equation.entries.length with inside | outside
  · rw [List.getD_eq_getElem _ _ inside]
    exact fitted.entries_lt _ (List.getElem_mem inside)
  · rw [List.getD_eq_default _ _ outside]
    exact NeZero.pos m

theorem Fits.one_lt_of_usable [NeZero m] {equation : Equation} (fitted : equation.Fits m columns)
    {column : Nat} (usable : equation.Usable m column) : 1 < m := by
  have small := fitted.entry_lt column
  have nonzero := usable.1
  omega

theorem Fits.hasUnit_eq {equation : Equation} (fitted : equation.Fits m columns) {column : Nat}
    (inside : column < columns) :
    equation.hasUnit m column = .ok (decide (equation.Usable m column)) := by
  rw [hasUnit, fitted.entry_eq inside, Outcome.ok_bind]
  congr 1
  rw [Bool.eq_iff_iff, Bool.and_eq_true, bne_iff_ne, Residue.coprime, beq_iff_eq,
    decide_eq_true_eq]
  rfl

theorem Fits.normalize_eq [NeZero m] (fits : m < Word.long) {equation : Equation}
    (fitted : equation.Fits m columns) {column : Nat} (inside : column < columns)
    (usable : equation.Usable m column) :
    equation.normalize m column = .ok (equation.scaled (equation.coefficient m column)⁻¹) := by
  have small := Residue.val_lt_long fits (equation.coefficient m column)⁻¹
  have entries : equation.entries.mapM
      (fun entry => Residue.mul entry (equation.coefficient m column)⁻¹.val m)
      = .ok (equation.scaled (equation.coefficient m column)⁻¹).entries := by
    refine Outcome.mapM_eq_map _ fun entry member => ?_
    rw [Residue.mul_val (Nat.lt_trans (fitted.entries_lt entry member) fits) small,
      ZMod.natCast_zmod_val]
  have side : Residue.mul equation.side (equation.coefficient m column)⁻¹.val m
      = .ok (equation.scaled (equation.coefficient m column)⁻¹).side := by
    rw [Residue.mul_val (Nat.lt_trans fitted.side_lt fits) small, ZMod.natCast_zmod_val]
    rfl
  rw [normalize, fitted.entry_eq inside, Outcome.ok_bind, Residue.inverse_val usable.isUnit]
  dsimp only
  rw [← coefficient, entries, Outcome.ok_bind, side, Outcome.ok_bind]

theorem Fits.clear_eq [NeZero m] (fits : m < Word.long) {equation pivot : Equation}
    (fitted : equation.Fits m columns) (pivotFitted : pivot.Fits m columns) {column : Nat}
    (inside : column < columns) :
    equation.clear m column pivot = .ok (equation.minus (equation.coefficient m column) pivot) := by
  rw [clear, fitted.entry_eq inside, Outcome.ok_bind]
  split
  · -- The code leaves the equation alone; subtracting nothing returns the same entries.
    rename_i zero
    have nothing : equation.coefficient m column = 0 := by rw [coefficient, zero, Nat.cast_zero]
    simp [nothing, minus, Residue.rowMinus_zero _ fitted.entries_lt,
      ZMod.val_cast_of_lt fitted.side_lt]
  · have small := Nat.lt_trans (fitted.entry_lt column) fits
    have entriesFit : ∀ entry ∈ pivot.entries, entry < Word.long := fun entry member =>
      Nat.lt_trans (pivotFitted.entries_lt entry member) fits
    rw [Residue.subtractMultiple_val small _ entriesFit, Outcome.ok_bind,
      Residue.mul_val small (Nat.lt_trans pivotFitted.side_lt fits), Outcome.ok_bind,
      Residue.sub_val, Outcome.ok_bind, ZMod.natCast_zmod_val]
    rfl

theorem Fits.scaled [NeZero m] {equation : Equation} (fitted : equation.Fits m columns)
    (factor : ZMod m) : (equation.scaled factor).Fits m columns where
  length_eq := by rw [Equation.scaled, List.length_map, fitted.length_eq]
  entries_lt := by
    intro entry member
    obtain ⟨old, _, rfl⟩ := List.mem_map.mp member
    exact ZMod.val_lt _
  side_lt := ZMod.val_lt _

theorem Fits.minus [NeZero m] {equation : Equation} (fitted : equation.Fits m columns)
    (factor : ZMod m) (pivot : Equation) : (equation.minus factor pivot).Fits m columns where
  length_eq := by rw [Equation.minus, Residue.rowMinus_length, fitted.length_eq]
  entries_lt := Residue.rowMinus_lt factor pivot.entries fitted.entries_lt
  side_lt := ZMod.val_lt _

/-! ## Coefficients -/

theorem coefficient_scaled [NeZero m] (factor : ZMod m) (equation : Equation) (column : Nat) :
    (equation.scaled factor).coefficient m column = equation.coefficient m column * factor := by
  rcases Nat.lt_or_ge column equation.entries.length with inside | outside
  · simp [coefficient, scaled, inside]
  · simp [coefficient, scaled, outside]

theorem coefficient_minus [NeZero m] (factor : ZMod m) {equation pivot : Equation}
    (fitted : equation.Fits m columns) (pivotFitted : pivot.Fits m columns) (column : Nat) :
    (equation.minus factor pivot).coefficient m column
      = equation.coefficient m column - factor * pivot.coefficient m column :=
  Residue.rowMinus_getD factor (by rw [fitted.length_eq, pivotFitted.length_eq]) column

/-! ## What an equation says -/

section Solutions

variable {M : Type} [AddCommGroup M] [Module (ZMod m) M]

/-- The combination of the unknowns is the side times `unit`. -/
def Holds (unknowns : Nat → M) (unit : M) (equation : Equation) : Prop :=
  ∑ column ∈ Finset.range equation.entries.length,
    equation.coefficient m column • unknowns column = (equation.side : ZMod m) • unit

theorem holds_scaled_iff [NeZero m] {factor : ZMod m} (invertible : IsUnit factor)
    (equation : Equation) (unknowns : Nat → M) (unit : M) :
    (equation.scaled factor).Holds (m := m) unknowns unit ↔
      equation.Holds (m := m) unknowns unit := by
  have length : (equation.scaled factor).entries.length = equation.entries.length := by
    simp [scaled]
  have side : ((equation.scaled factor).side : ZMod m) = factor * equation.side := by
    rw [scaled, ZMod.natCast_zmod_val, mul_comm]
  rw [Holds, Holds, length, side]
  simp only [coefficient_scaled, mul_comm _ factor, mul_smul, ← Finset.smul_sum]
  exact invertible.smul_left_cancel

theorem holds_minus_iff [NeZero m] (factor : ZMod m) {equation pivot : Equation}
    (fitted : equation.Fits m columns) (pivotFitted : pivot.Fits m columns) {unknowns : Nat → M}
    {unit : M} (holds : pivot.Holds (m := m) unknowns unit) :
    (equation.minus factor pivot).Holds (m := m) unknowns unit ↔
      equation.Holds (m := m) unknowns unit := by
  have side : ((equation.minus factor pivot).side : ZMod m)
      = equation.side - factor * pivot.side := by
    rw [minus, ZMod.natCast_zmod_val]
  rw [Holds, pivotFitted.length_eq] at holds
  rw [Holds, Holds, (fitted.minus factor pivot).length_eq, fitted.length_eq, side]
  simp only [coefficient_minus factor fitted pivotFitted, sub_smul, mul_smul,
    Finset.sum_sub_distrib, ← Finset.smul_sum, holds]
  exact sub_left_inj

end Solutions

end ResidueAlgebra.Equation
