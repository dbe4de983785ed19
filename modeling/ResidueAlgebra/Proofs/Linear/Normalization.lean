import ResidueAlgebra.Proofs.Linear.ReducedForm

/-!
# Inverses and pivots

One test asks for a greatest common divisor of one, the other for a coefficient found on the way to
it. They agree over the whole word, with any algorithm that finds the divisor and coefficients of
it, and the residue found is the only inverse. An entry that passes the first test as a pivot
therefore has the inverse that scales it to one: no equation chosen in an elimination is left as it
was for want of an inverse.
-/
set_option autoImplicit false
namespace ResidueAlgebra

namespace Residue

variable {m : Nat} {extended : Int → Int → ExtendedGcd}

theorem coprime_iff_isUnit {value : Nat} :
    coprime value m = true ↔ IsUnit (value : ZMod m) := by
  rw [coprime, beq_iff_eq, ZMod.isUnit_iff_coprime, Nat.Coprime]

theorem inverseBy_eq_some_iff [NeZero m] (sound : ExactInWords extended) (fits : m < Word.long)
    {value x : Nat} :
    inverseBy extended value m = some x ↔ x < m ∧ value * x ≡ 1 [MOD m] := by
  have combines := sound.combines_mod fits value
  rw [← ZMod.natCast_eq_natCast_iff, Nat.cast_mul, Nat.cast_one]
  by_cases unit : IsUnit (value : ZMod m)
  · rw [inverseBy_val combines unit, Option.some.injEq]
    constructor
    · rintro rfl
      exact ⟨ZMod.val_lt _, by rw [ZMod.natCast_zmod_val, ZMod.mul_inv_of_unit _ unit]⟩
    · rintro ⟨small, product⟩
      rw [ZMod.inv_eq_of_mul_eq_one m _ _ product, ZMod.val_cast_of_lt small]
  · rw [inverseBy_eq_none combines unit]
    refine iff_of_false (by simp) ?_
    rintro ⟨_, product⟩
    exact unit (IsUnit.of_mul_eq_one _ product)

theorem exists_inverseBy_iff_coprime [NeZero m] (sound : ExactInWords extended)
    (fits : m < Word.long) {value : Nat} :
    (∃ x, inverseBy extended value m = some x) ↔ coprime value m = true := by
  have combines := sound.combines_mod fits value
  rw [coprime_iff_isUnit]
  constructor
  · rintro ⟨x, found⟩
    by_contra zeroDivisor
    cases found.symm.trans (inverseBy_eq_none combines zeroDivisor)
  · exact fun unit => ⟨_, inverseBy_val combines unit⟩

end Residue

namespace LinearSystem

variable {m columns : Nat} {extended : Int → Int → Residue.ExtendedGcd}

theorem normalize_usable [NeZero m] (sound : Residue.ExactInWords extended) (fits : m < Word.long)
    {chosen : Equation} (fitted : chosen.Fits m columns) {column : Nat} (inside : column < columns)
    (usable : chosen.Usable m column) :
    ∃ value x pivot, chosen.entry column = .ok value ∧
      Residue.inverseBy extended value m = some x ∧
      chosen.normalize m column = .ok pivot ∧ pivot.entry column = .ok 1 := by
  have combines := sound.combines_mod fits (chosen.entries.getD column 0)
  have one := (fitted.scaled _).getElem?_eq inside (fitted.one_lt_of_usable usable)
    (by rw [coefficient_scaled_inv usable, Nat.cast_one])
  refine ⟨_, _, _, fitted.entry_eq inside, Residue.inverseBy_val combines usable.isUnit,
    fitted.normalize_eq fits inside usable, ?_⟩
  rw [Equation.entry, one]

theorem fresh_of_built [NeZero m] {rows : List (List Nat)} {start : LinearSystem}
    (built : ofRows rows m = .ok start ∨ ∃ sides, ofEquations rows sides m = .ok start) :
    start.Fresh m (width rows) := by
  rcases built with bare | ⟨sides, augmented⟩
  · exact build_fresh bare
  · rw [ofEquations] at augmented
    split at augmented
    · exact build_fresh augmented
    · cases augmented

/-- An inverse is found exactly for the values coprime to the modulus, and is then the only one;
which exact algorithm finds the coefficients does not matter. In the elimination of a system, each
equation accepted as a pivot has an inverse for its entry and is scaled to a leading one. -/
theorem inverse_of_coprime_pivot (sound : Residue.ExactInWords extended) (positive : 0 < m)
    (fits : m < Word.long) :
    (∀ value,
      ((∃ x, Residue.inverseBy extended value m = some x) ↔ Residue.coprime value m = true) ∧
      (∀ x, Residue.inverseBy extended value m = some x →
        x < m ∧ value * x ≡ 1 [MOD m] ∧ ∀ y < m, value * y ≡ 1 [MOD m] → y = x) ∧
      Residue.inverseBy extended value m = Residue.inverse value m) ∧
    ∀ rows start, (ofRows rows m = .ok start ∨ ∃ sides, ofEquations rows sides m = .ok start) →
      ∀ column < start.columns, ∃ current,
        (List.range column).foldlM processColumn start = .ok current ∧
        ∀ chosen others,
          choosePivot current.modulus column current.pending = .ok (some (chosen, others)) →
          ∃ value x pivot, chosen.entry column = .ok value ∧
            Residue.inverseBy extended value current.modulus = some x ∧
            chosen.normalize current.modulus column = .ok pivot ∧ pivot.entry column = .ok 1 := by
  have : NeZero m := ⟨Nat.ne_of_gt positive⟩
  refine ⟨fun value => ⟨Residue.exists_inverseBy_iff_coprime sound fits, ?_, ?_⟩, ?_⟩
  · intro x found
    obtain ⟨small, product⟩ := (Residue.inverseBy_eq_some_iff sound fits).mp found
    refine ⟨small, product, fun y below other => ?_⟩
    have again := (Residue.inverseBy_eq_some_iff sound fits).mpr ⟨below, other⟩
    exact Option.some.inj (again.symm.trans found)
  · exact Residue.inverseBy_eq_inverse sound fits value
  · intro rows start built column inside
    have fresh := fresh_of_built built
    rw [fresh.sized.columns_eq] at inside
    obtain ⟨current, run, _, progress⟩ := fresh.initial.run fits (Nat.le_of_lt inside)
    refine ⟨current, run, fun chosen others selected => ?_⟩
    rw [progress.sized.modulus_eq] at selected ⊢
    rcases choosePivot_spec inside progress.sized.pending with
      ⟨none, _⟩ | ⟨_, _, found, usable, same⟩
    · cases selected.symm.trans none
    · cases selected.symm.trans found
      have chosenFits := progress.sized.pending chosen (same.subset (List.mem_cons_self ..))
      exact normalize_usable sound fits chosenFits inside usable

/-- An inverse modulo sixty, one of the last word modulo the largest prime below it, and none of a
zero divisor. Modulo six the second row is accepted in the second column for its five. -/
theorem inverse_of_coprime_pivot_composite :
    Residue.inverseBy Residue.euclid 7 60 = some 43 ∧
    Residue.inverseBy Residue.euclid 18446744073709551615 18446744073709551557
      = some 1590236558078409617 ∧
    (¬ ∃ x, Residue.inverseBy Residue.euclid 62 60 = some x) ∧
    choosePivot 6 1 [⟨[2, 3], 1⟩, ⟨[4, 5], 2⟩] = .ok (some (⟨[4, 5], 2⟩, [⟨[2, 3], 1⟩])) ∧
    ∃ x pivot, Residue.inverseBy Residue.euclid 5 6 = some x ∧
      Equation.normalize 6 1 ⟨[4, 5], 2⟩ = .ok pivot ∧ pivot.entry 1 = .ok 1 := by
  have sound := Residue.euclid_exactInWords
  have sixty := (@inverse_of_coprime_pivot 60 _ sound (by decide) (by decide)).1
  have large := (@inverse_of_coprime_pivot 18446744073709551557 _ sound (by decide) (by decide)).1
  have six := (@inverse_of_coprime_pivot 6 _ sound (by decide) (by decide)).2
  refine ⟨?_, ?_, ?_, by decide +kernel, ?_⟩
  · obtain ⟨x, found⟩ := (sixty 7).1.mpr (by decide +kernel)
    obtain rfl := ((sixty 7).2.1 x found).2.2 43 (by decide) (by decide)
    exact found
  · obtain ⟨x, found⟩ := (large 18446744073709551615).1.mpr (by decide +kernel)
    obtain rfl := ((large 18446744073709551615).2.1 x found).2.2 1590236558078409617
      (by decide) (by decide +kernel)
    exact found
  · rw [(sixty 62).1]
    decide +kernel
  · obtain ⟨current, run, accepted⟩ := six [[2, 3], [4, 5]]
      ⟨6, 2, true, [], [⟨[2, 3], 1⟩, ⟨[4, 5], 2⟩], false⟩
      (Or.inr ⟨[1, 2], by decide +kernel⟩) 1 (by decide)
    have skipped : (List.range 1).foldlM processColumn
        ⟨6, 2, true, [], [⟨[2, 3], 1⟩, ⟨[4, 5], 2⟩], false⟩
          = .ok ⟨6, 2, true, [], [⟨[2, 3], 1⟩, ⟨[4, 5], 2⟩], false⟩ := by
      decide +kernel
    cases skipped.symm.trans run
    obtain ⟨value, x, pivot, entry, found, scaled, one⟩ :=
      accepted ⟨[4, 5], 2⟩ [⟨[2, 3], 1⟩] (by decide +kernel)
    cases entry
    exact ⟨x, pivot, found, scaled, one⟩

end LinearSystem

end ResidueAlgebra
