import ResidueAlgebra.Poly.Division
import ResidueAlgebra.Proofs.Poly.Ring

/-!
# Exactness of long division

Long division by a polynomial with an invertible leading coefficient succeeds; the dividend is the
divisor times the quotient plus a remainder of smaller degree. Each pass removes the leading
coefficient of what is left, which is the invariant behind the identity. No other quotient and
remainder do the same, and without the invertible coefficient there is no result, for composite
moduli as for prime ones.
-/
set_option autoImplicit false
namespace ResidueAlgebra.Poly

open Polynomial

variable {m : Nat}

theorem descending_rowMinus [NeZero m] (factor : ZMod m) {entries lower : List Nat}
    (covered : lower.length ≤ entries.length) :
    descending m (Residue.rowMinus factor entries lower)
      = descending m entries
        - C factor * descending m lower * X ^ (entries.length - lower.length) := by
  induction entries generalizing lower with
  | nil =>
      have empty : lower = [] := List.length_eq_zero_iff.mp (Nat.le_zero.mp covered)
      simp [empty]
  | cons entry entries ih =>
      cases lower with
      | nil => simp
      | cons coefficient lower =>
          have lengths : lower.length ≤ entries.length := by simpa using covered
          have shift : (X : (ZMod m)[X]) ^ entries.length
              = X ^ lower.length * X ^ (entries.length - lower.length) := by
            rw [← pow_add, Nat.add_sub_cancel' lengths]
          rw [Residue.rowMinus, descending_cons, descending_cons, descending_cons, ih lengths,
            Residue.rowMinus_length, ZMod.natCast_zmod_val, List.length_cons, List.length_cons,
            Nat.add_sub_add_right, C_sub, C_mul, shift]
          ring

theorem longDivision_spec [NeZero m] (fits : m < Word.long) {inverse : Nat}
    (inverseBelow : inverse < m) {lead : ZMod m} (inverts : lead * inverse = 1) {lower : List Nat}
    (lowerBelow : ∀ entry ∈ lower, entry < m) {passes : Nat} {entries : List Nat}
    (below : ∀ entry ∈ entries, entry < m) (lengths : entries.length = passes + lower.length) :
    ∃ quotient remainder, longDivision m inverse lower passes entries = .ok (quotient, remainder) ∧
      quotient.length = passes ∧ remainder.length = lower.length ∧
      descending m entries
        = (C lead * X ^ lower.length + descending m lower) * descending m quotient
          + descending m remainder := by
  induction passes generalizing entries with
  | zero => exact ⟨[], entries, by cases entries <;> rfl, rfl, by omega, by simp⟩
  | succ passes ih =>
      cases entries with
      | nil =>
          rw [List.length_nil] at lengths
          omega
      | cons entry entries =>
          have shorter : entries.length = passes + lower.length := by
            rw [List.length_cons] at lengths
            omega
          have covered : lower.length ≤ entries.length := by omega
          obtain ⟨entryBelow, restBelow⟩ := List.forall_mem_cons.mp below
          have factored : Residue.mul entry inverse m = .ok (entry * inverse : ZMod m).val :=
            Residue.mul_val (Nat.lt_trans entryBelow fits) (Nat.lt_trans inverseBelow fits)
          have lowered : Residue.subtractMultiple m (entry * inverse : ZMod m).val entries lower
              = .ok (Residue.rowMinus (entry * inverse : ZMod m) entries lower) := by
            rw [Residue.subtractMultiple_val (Residue.val_lt_long fits _) entries fun coefficient
              member => Nat.lt_trans (lowerBelow coefficient member) fits, ZMod.natCast_zmod_val]
          obtain ⟨quotient, remainder, divided, count, rest, identity⟩ :=
            ih (Residue.rowMinus_lt (entry * inverse : ZMod m) lower restBelow)
              (by rw [Residue.rowMinus_length, shorter])
          refine ⟨(entry * inverse : ZMod m).val :: quotient, remainder, ?_, by simp [count], rest,
            ?_⟩
          · simp [longDivision, factored, lowered, divided]
          · have passesLeft : entries.length - lower.length = passes := by omega
            -- The pass never forms this difference, which is zero.
            have leading : C (entry : ZMod m) = C lead * C (entry * inverse : ZMod m) := by
              rw [← C_mul]
              congr 1
              linear_combination (-(entry : ZMod m)) * inverts
            rw [descending_rowMinus _ covered, passesLeft] at identity
            rw [descending_cons, descending_cons, ZMod.natCast_zmod_val, count, shorter, pow_add,
              leading]
            linear_combination identity

theorem leadingInverse_eq [NeZero m] {f : Poly} (reduced : f.Reduced m)
    (unit : IsUnit (f.leading : ZMod m)) :
    f.leadingInverse = .ok ((f.leading : ZMod m)⁻¹).val := by
  simp [leadingInverse, reduced.modulus_eq, Residue.inverse_val unit]

theorem leadingInverse_eq_error [NeZero m] {f : Poly} (reduced : f.Reduced m)
    (zeroDivisor : ¬ IsUnit (f.leading : ZMod m)) :
    f.leadingInverse = .error (.fault (.notInvertible f.leading m)) := by
  rw [leadingInverse, reduced.modulus_eq, Residue.inverse_eq_none zeroDivisor]
  rfl

theorem leadingInverse_sound [NeZero m] {f : Poly} {inverse : Nat} (reduced : f.Reduced m)
    (success : f.leadingInverse = .ok inverse) :
    IsUnit (f.leading : ZMod m) ∧ inverse = ((f.leading : ZMod m)⁻¹).val := by
  by_cases unit : IsUnit (f.leading : ZMod m)
  · rw [leadingInverse_eq reduced unit] at success
    cases success
    exact ⟨unit, rfl⟩
  · rw [leadingInverse_eq_error reduced unit] at success
    cases success

theorem Reduced.degree_eq {f : Poly} (reduced : f.Reduced m) (nonzero : f.isZero = false) :
    (toPolynomial m f).degree = f.lower.length := by
  rw [degree_eq_natDegree (reduced.ne_zero nonzero), reduced.natDegree_eq, degree]

theorem Reduced.leadingCoeff_eq {f : Poly} (reduced : f.Reduced m) :
    (toPolynomial m f).leadingCoeff = (f.leading : ZMod m) := by
  rw [leadingCoeff, reduced.natDegree_eq]
  exact coeff_descending_cons f.leading f.lower

theorem divMod_spec [NeZero m] (fits : m < Word.long) {f divisor : Poly} (dividend : f.Reduced m)
    (reduced : divisor.Reduced m) (nonzero : divisor.isZero = false)
    (unit : IsUnit (divisor.leading : ZMod m)) :
    ∃ quotient remainder, f.divMod divisor = .ok (quotient, remainder) ∧
      quotient.Reduced m ∧ remainder.Reduced m ∧
      toPolynomial m f
        = toPolynomial m divisor * toPolynomial m quotient + toPolynomial m remainder ∧
      (toPolynomial m remainder).degree < (toPolynomial m divisor).degree := by
  have sameField : f.modulus = divisor.modulus := by
    simp [dividend.modulus_eq, reduced.modulus_eq]
  have inverts : (divisor.leading : ZMod m) * (((divisor.leading : ZMod m)⁻¹).val : Nat) = 1 := by
    rw [ZMod.natCast_zmod_val, ZMod.mul_inv_of_unit _ unit]
  have lowerBelow : ∀ entry ∈ divisor.lower, entry < m :=
    (List.forall_mem_cons.mp reduced.below).2
  have division : ∃ quotient remainder,
      longDivision m ((divisor.leading : ZMod m)⁻¹).val divisor.lower
        (f.coefficients.length - divisor.lower.length) f.coefficients
        = .ok (quotient, remainder) ∧
      remainder.length ≤ divisor.lower.length ∧
      toPolynomial m f
        = toPolynomial m divisor * descending m quotient + descending m remainder := by
    rcases Nat.le_total divisor.lower.length f.coefficients.length with enough | short
    · obtain ⟨quotient, remainder, divided, _, length, identity⟩ :=
        longDivision_spec fits (ZMod.val_lt _) inverts lowerBelow dividend.below
          (Nat.sub_add_cancel enough).symm
      exact ⟨quotient, remainder, divided, Nat.le_of_eq length, identity⟩
    · -- The dividend is shorter than the divisor and no pass is made.
      rw [Nat.sub_eq_zero_of_le short]
      exact ⟨[], f.coefficients, rfl, short, by simp [toPolynomial]⟩
  obtain ⟨quotientTerms, remainderTerms, divided, length, identity⟩ := division
  obtain ⟨quotient, quotientBuilt, quotientReduced, quotientValue⟩ :=
    @ofResidues_spec m _ quotientTerms
  obtain ⟨remainder, remainderBuilt, remainderReduced, remainderValue⟩ :=
    @ofResidues_spec m _ remainderTerms
  refine ⟨quotient, remainder, ?_, quotientReduced, remainderReduced, ?_, ?_⟩
  · rw [divMod, if_neg (not_not.mpr sameField), nonzero, if_neg Bool.false_ne_true,
      leadingInverse_eq reduced unit, Outcome.ok_bind, dividend.modulus_eq]
    dsimp only
    rw [divided, Outcome.ok_bind]
    dsimp only
    simp [quotientBuilt, remainderBuilt]
  · simp [quotientValue, remainderValue, identity]
  · rw [reduced.degree_eq nonzero, remainderValue]
    apply lt_of_lt_of_le (degree_descending_lt remainderTerms)
    exact_mod_cast length

theorem isUnit_of_divMod [NeZero m] {f divisor quotient remainder : Poly}
    (reduced : divisor.Reduced m) (success : f.divMod divisor = .ok (quotient, remainder)) :
    divisor.isZero = false ∧ IsUnit (divisor.leading : ZMod m) := by
  unfold divMod at success
  split at success
  · cases success
  · split at success
    · cases success
    · rename_i nonzero
      obtain ⟨inverse, inverted, _⟩ := Outcome.bind_eq_ok success
      exact ⟨Bool.eq_false_iff.mpr nonzero, (leadingInverse_sound reduced inverted).1⟩

theorem divMod_sound [NeZero m] (fits : m < Word.long) {f divisor quotient remainder : Poly}
    (dividend : f.Reduced m) (reduced : divisor.Reduced m)
    (success : f.divMod divisor = .ok (quotient, remainder)) :
    quotient.Reduced m ∧ remainder.Reduced m ∧
      toPolynomial m f
        = toPolynomial m divisor * toPolynomial m quotient + toPolynomial m remainder ∧
      (toPolynomial m remainder).degree < (toPolynomial m divisor).degree := by
  obtain ⟨nonzero, unit⟩ := isUnit_of_divMod reduced success
  obtain ⟨first, second, divided, spec⟩ := divMod_spec fits dividend reduced nonzero unit
  rw [success] at divided
  cases divided
  exact spec

/-! ## Which divisions have a result -/

theorem divMod_of_fields_differ {f divisor : Poly} (different : f.modulus ≠ divisor.modulus) :
    f.divMod divisor
      = .error (.fault (.invalidInput (.fieldsDiffer f.modulus divisor.modulus))) := by
  rw [divMod, if_pos different]
  rfl

theorem divMod_of_zero {f divisor : Poly} (sameField : f.modulus = divisor.modulus)
    (zero : divisor.isZero = true) : f.divMod divisor = .error (.fault .zeroDivisor) := by
  rw [divMod, if_neg (not_not.mpr sameField), if_pos zero]
  rfl

theorem divMod_of_not_isUnit [NeZero m] {f divisor : Poly} (sameField : f.modulus = divisor.modulus)
    (reduced : divisor.Reduced m) (nonzero : divisor.isZero = false)
    (zeroDivisor : ¬ IsUnit (divisor.leading : ZMod m)) :
    f.divMod divisor = .error (.fault (.notInvertible divisor.leading m)) := by
  rw [divMod, if_neg (not_not.mpr sameField), nonzero, if_neg Bool.false_ne_true,
    leadingInverse_eq_error reduced zeroDivisor]
  rfl

/-! ## Uniqueness -/

/-- Over a ring with zero divisors, it is the invertible leading coefficient of the divisor that
keeps the degree of a product from dropping. -/
theorem quotient_unique {divisor q r q' r' : (ZMod m)[X]} (unit : IsUnit divisor.leadingCoeff)
    (same : divisor * q + r = divisor * q' + r') (small : r.degree < divisor.degree)
    (small' : r'.degree < divisor.degree) : q = q' ∧ r = r' := by
  have quotients : q = q' := by
    by_contra different
    have product : divisor * (q - q') = r' - r := by linear_combination same
    have leading : divisor.leadingCoeff * (q - q').leadingCoeff ≠ 0 := by
      rw [Ne, unit.mul_right_eq_zero, leadingCoeff_eq_zero]
      exact sub_ne_zero.mpr different
    have grown : divisor.degree ≤ (r' - r).degree := by
      rw [← product, degree_mul' leading]
      exact le_add_of_nonneg_right (zero_le_degree_iff.mpr (sub_ne_zero.mpr different))
    have shrunk : (r' - r).degree < divisor.degree :=
      lt_of_le_of_lt (degree_sub_le r' r) (max_lt small' small)
    exact absurd grown (not_le_of_gt shrunk)
  subst quotients
  exact ⟨rfl, add_left_cancel same⟩

theorem Reduced.degree_lt_iff {f g : Poly} (left : f.Reduced m) (right : g.Reduced m)
    (nonzero : g.isZero = false) :
    (toPolynomial m f).degree < (toPolynomial m g).degree ↔
      f.isZero = true ∨ f.degree < g.degree := by
  rw [right.degree_eq nonzero]
  cases zero : f.isZero with
  | true => simp [toPolynomial_of_isZero zero]
  | false => simp [left.degree_eq zero, degree]

structure IsDivision (m : Nat) (f divisor quotient remainder : Poly) : Prop where
  quotient_reduced : quotient.Reduced m
  remainder_reduced : remainder.Reduced m
  identity : toPolynomial m f
    = toPolynomial m divisor * toPolynomial m quotient + toPolynomial m remainder
  smaller : remainder.isZero = true ∨ remainder.degree < divisor.degree

theorem IsDivision.unique {f divisor q r q' r' : Poly} (reduced : divisor.Reduced m)
    (nonzero : divisor.isZero = false) (unit : IsUnit (divisor.leading : ZMod m))
    (first : IsDivision m f divisor q r) (second : IsDivision m f divisor q' r') :
    q = q' ∧ r = r' := by
  have invertible : IsUnit (toPolynomial m divisor).leadingCoeff := by
    rwa [reduced.leadingCoeff_eq]
  obtain ⟨quotients, remainders⟩ := quotient_unique invertible
    (first.identity.symm.trans second.identity)
    ((first.remainder_reduced.degree_lt_iff reduced nonzero).mpr first.smaller)
    ((second.remainder_reduced.degree_lt_iff reduced nonzero).mpr second.smaller)
  exact ⟨first.quotient_reduced.eq_of_toPolynomial_eq second.quotient_reduced quotients,
    first.remainder_reduced.eq_of_toPolynomial_eq second.remainder_reduced remainders⟩

theorem divMod_isDivision [NeZero m] (fits : m < Word.long) {f divisor quotient remainder : Poly}
    (dividend : f.Reduced m) (reduced : divisor.Reduced m)
    (success : f.divMod divisor = .ok (quotient, remainder)) :
    IsDivision m f divisor quotient remainder := by
  obtain ⟨nonzero, _⟩ := isUnit_of_divMod reduced success
  obtain ⟨quotientReduced, remainderReduced, identity, smaller⟩ :=
    divMod_sound fits dividend reduced success
  exact ⟨quotientReduced, remainderReduced, identity,
    (remainderReduced.degree_lt_iff reduced nonzero).mp smaller⟩

/-- Division by a non-zero polynomial has a result exactly when the leading coefficient of the
divisor is coprime to the modulus, and the result is then the only quotient and remainder there are.
Every other pair of operands is turned down with a fault of its own. -/
theorem divMod_exact :
    (∀ {m : Nat} {f g : Poly}, m < Word.long → f.Reduced m → g.Reduced m → g.isZero = false →
      ((∃ quotient remainder, f.divMod g = .ok (quotient, remainder)) ↔ g.leading.Coprime m) ∧
      (¬ g.leading.Coprime m →
        f.divMod g = .error (.fault (.notInvertible g.leading m))) ∧
      ∀ quotient remainder, f.divMod g = .ok (quotient, remainder) ↔
        g.leading.Coprime m ∧ IsDivision m f g quotient remainder) ∧
    (∀ {f g : Poly}, f.modulus ≠ g.modulus →
      f.divMod g = .error (.fault (.invalidInput (.fieldsDiffer f.modulus g.modulus)))) ∧
    (∀ {f g : Poly}, f.modulus = g.modulus → g.isZero = true →
      f.divMod g = .error (.fault .zeroDivisor)) := by
  refine ⟨?_, divMod_of_fields_differ, divMod_of_zero⟩
  intro m f g fits dividend divisor nonzero
  have positive : 0 < m := Nat.zero_lt_of_lt (divisor.below g.leading (List.mem_cons_self ..))
  have : NeZero m := ⟨Nat.ne_of_gt positive⟩
  have sameField : f.modulus = g.modulus := by rw [dividend.modulus_eq, divisor.modulus_eq]
  have units := ZMod.isUnit_iff_coprime g.leading m
  have coprime_of_success : ∀ quotient remainder, f.divMod g = .ok (quotient, remainder) →
      g.leading.Coprime m := fun _ _ success => units.mp (isUnit_of_divMod divisor success).2
  refine ⟨⟨?_, ?_⟩, ?_, fun quotient remainder => ⟨?_, ?_⟩⟩
  · intro ⟨quotient, remainder, success⟩
    exact coprime_of_success quotient remainder success
  · intro coprime
    obtain ⟨quotient, remainder, success, _⟩ :=
      divMod_spec fits dividend divisor nonzero (units.mpr coprime)
    exact ⟨quotient, remainder, success⟩
  · intro common
    exact divMod_of_not_isUnit sameField divisor nonzero (mt units.mp common)
  · intro success
    exact ⟨coprime_of_success quotient remainder success,
      divMod_isDivision fits dividend divisor success⟩
  · intro ⟨coprime, division⟩
    obtain ⟨first, second, success, _⟩ :=
      divMod_spec fits dividend divisor nonzero (units.mpr coprime)
    obtain ⟨quotients, remainders⟩ := IsDivision.unique divisor nonzero (units.mpr coprime)
      (divMod_isDivision fits dividend divisor success) division
    rw [success, quotients, remainders]

/-- Modulo six, `x ^ 2` can be divided by `5x + 1` and cannot by `2x + 1`. -/
theorem divMod_exact_modulo_six :
    IsDivision 6 ⟨1, [0, 0], 6⟩ ⟨5, [1], 6⟩ ⟨5, [5], 6⟩ ⟨1, [], 6⟩ ∧
      divMod ⟨1, [0, 0], 6⟩ ⟨2, [1], 6⟩ = .error (.fault (.notInvertible 2 6)) := by
  have dividend : (⟨1, [0, 0], 6⟩ : Poly).Reduced 6 := ⟨rfl, by simp [Normalized, coefficients]⟩
  have fits : 6 < Word.long := by simp [Word.long]
  have invertible := @divMod_exact.1 6 _ ⟨5, [1], 6⟩ fits dividend
    ⟨rfl, by simp [Normalized, coefficients]⟩ rfl
  have common := @divMod_exact.1 6 _ ⟨2, [1], 6⟩ fits dividend
    ⟨rfl, by simp [Normalized, coefficients]⟩ rfl
  exact ⟨((invertible.2.2 _ _).mp (by decide +kernel)).2, common.2.1 (by decide)⟩

end ResidueAlgebra.Poly
