import Mathlib.Algebra.Field.ZMod
import Mathlib.Algebra.Polynomial.Monic
import Mathlib.RingTheory.Ideal.Span
import ResidueAlgebra.Poly.Euclid
import ResidueAlgebra.Proofs.Poly.Division

/-!
# Greatest common divisors

Every step of the Euclidean algorithm keeps the ideal of its two operands, so a result generates the
same ideal as the operands, for composite moduli as well. It divides both of them, and dividing by
it is exact. Over a prime modulus there always is a result, it does not depend on the order of the
operands, and it is one exactly for coprime operands.
-/
set_option autoImplicit false
namespace ResidueAlgebra.Poly

open Polynomial

variable {m : Nat}

theorem lastRemainder_sound [NeZero m] (fits : m < Word.long) {f g last : Poly}
    (left : f.Reduced m) (right : g.Reduced m) (success : lastRemainder f g = .ok last) :
    last.Reduced m ∧ Ideal.span {toPolynomial m f, toPolynomial m g}
      = Ideal.span {toPolynomial m last} := by
  fun_induction lastRemainder f g with
  | case1 f g zero =>
      cases success
      refine ⟨left, ?_⟩
      simp [right.eq_zero_iff.mpr zero]
  | case2 f g nonzero halt failed => cases success
  | case3 f g nonzero quotient remainder divided ih =>
      obtain ⟨_, reduced, identity, _⟩ := divMod_sound fits left right divided
      obtain ⟨kept, spans⟩ := ih right reduced success
      refine ⟨kept, ?_⟩
      rw [identity, Ideal.span_pair_right_mul_add, Ideal.span_pair_comm, spans]

theorem monic_sound [NeZero m] (fits : m < Word.long) {f result : Poly} (reduced : f.Reduced m)
    (success : f.monic = .ok result) :
    result.Reduced m ∧ Ideal.span {toPolynomial m f} = Ideal.span {toPolynomial m result} := by
  unfold monic at success
  split at success
  · cases success
    exact ⟨reduced, rfl⟩
  · obtain ⟨inverse, inverted, success⟩ := Outcome.bind_eq_ok success
    obtain ⟨unit, rfl⟩ := leadingInverse_sound reduced inverted
    obtain ⟨scaled, built, kept, value⟩ := scale_spec (reduced.stored fits)
      (Residue.val_lt_long fits (f.leading : ZMod m)⁻¹)
    rw [built] at success
    cases success
    have invertible : IsUnit (f.leading : ZMod m)⁻¹ :=
      IsUnit.of_mul_eq_one _ (ZMod.inv_mul_of_unit _ unit)
    refine ⟨kept, ?_⟩
    rw [value, ZMod.natCast_zmod_val,
      Ideal.span_singleton_mul_right_unit (isUnit_C.mpr invertible)]

theorem monic_leadingCoeff [NeZero m] (fits : m < Word.long) {f result : Poly}
    (reduced : f.Reduced m) (success : f.monic = .ok result) :
    result.isZero = true ∨ (toPolynomial m result).Monic := by
  unfold monic at success
  split at success
  · rename_i zero
    cases success
    exact Or.inl zero
  · right
    obtain ⟨inverse, inverted, success⟩ := Outcome.bind_eq_ok success
    obtain ⟨unit, rfl⟩ := leadingInverse_sound reduced inverted
    obtain ⟨scaled, built, _, value⟩ := scale_spec (reduced.stored fits)
      (Residue.val_lt_long fits (f.leading : ZMod m)⁻¹)
    rw [built] at success
    cases success
    rw [value, ZMod.natCast_zmod_val]
    apply monic_mul_C_of_leadingCoeff_mul_eq_one
    rw [reduced.leadingCoeff_eq, ZMod.mul_inv_of_unit _ unit]

theorem gcd_sound [NeZero m] (fits : m < Word.long) {f g result : Poly} (left : f.Reduced m)
    (right : g.Reduced m) (success : gcd f g = .ok result) :
    result.Reduced m ∧ Ideal.span {toPolynomial m f, toPolynomial m g}
      = Ideal.span {toPolynomial m result} := by
  unfold gcd at success
  obtain ⟨last, ended, success⟩ := Outcome.bind_eq_ok success
  obtain ⟨lastReduced, spans⟩ := lastRemainder_sound fits left right ended
  obtain ⟨reduced, scaled⟩ := monic_sound fits lastReduced success
  exact ⟨reduced, spans.trans scaled⟩

theorem gcd_dvd_left [NeZero m] (fits : m < Word.long) {f g result : Poly} (left : f.Reduced m)
    (right : g.Reduced m) (success : gcd f g = .ok result) :
    toPolynomial m result ∣ toPolynomial m f := by
  obtain ⟨_, spans⟩ := gcd_sound fits left right success
  rw [← Ideal.mem_span_singleton, ← spans]
  exact Ideal.subset_span (Set.mem_insert _ _)

theorem gcd_dvd_right [NeZero m] (fits : m < Word.long) {f g result : Poly} (left : f.Reduced m)
    (right : g.Reduced m) (success : gcd f g = .ok result) :
    toPolynomial m result ∣ toPolynomial m g := by
  obtain ⟨_, spans⟩ := gcd_sound fits left right success
  rw [← Ideal.mem_span_singleton, ← spans]
  exact Ideal.subset_span (Set.mem_insert_of_mem _ rfl)

theorem gcd_greatest [NeZero m] (fits : m < Word.long) {f g result : Poly} (left : f.Reduced m)
    (right : g.Reduced m) (success : gcd f g = .ok result) {c : (ZMod m)[X]}
    (leftMultiple : c ∣ toPolynomial m f) (rightMultiple : c ∣ toPolynomial m g) :
    c ∣ toPolynomial m result := by
  obtain ⟨_, spans⟩ := gcd_sound fits left right success
  obtain ⟨a, b, combination⟩ := Ideal.mem_span_pair.mp
    (spans ▸ Ideal.mem_span_singleton_self (toPolynomial m result))
  rw [← combination]
  exact dvd_add (dvd_mul_of_dvd_right leftMultiple a) (dvd_mul_of_dvd_right rightMultiple b)

theorem gcd_isZero_of_left [NeZero m] (fits : m < Word.long) {f g result : Poly}
    (left : f.Reduced m) (right : g.Reduced m) (success : gcd f g = .ok result)
    (nonconstant : 0 < f.degree) : result.isZero = false := by
  rw [Bool.eq_false_iff]
  intro zero
  have divides := gcd_dvd_left fits left right success
  rw [toPolynomial_of_isZero zero, zero_dvd_iff] at divides
  rw [← left.natDegree_eq, divides, natDegree_zero] at nonconstant
  exact Nat.lt_irrefl 0 nonconstant

theorem gcd_leadingCoeff [NeZero m] (fits : m < Word.long) {f g result : Poly} (left : f.Reduced m)
    (right : g.Reduced m) (success : gcd f g = .ok result) :
    result.isZero = true ∨ (toPolynomial m result).Monic := by
  unfold gcd at success
  obtain ⟨last, ended, success⟩ := Outcome.bind_eq_ok success
  exact monic_leadingCoeff fits (lastRemainder_sound fits left right ended).1 success

theorem unit_reduced (proper : 1 < m) : (Poly.mk 1 [] m).Reduced m :=
  ⟨rfl, by simpa [coefficients] using proper, fun zero => absurd zero Nat.one_ne_zero⟩

theorem toPolynomial_unit : toPolynomial m ⟨1, [], m⟩ = 1 := by
  simp [toPolynomial, coefficients, descending_cons]

theorem gcd_degree_pos [NeZero m] (large : 1 < m) (fits : m < Word.long) {f g d : Poly}
    (left : f.Reduced m) (right : g.Reduced m) (common : gcd f g = .ok d)
    (divisor : d.isZero = false) (proper : d.isOne = false) : 0 < d.degree := by
  have kept := (gcd_sound fits left right common).1
  rw [Nat.pos_iff_ne_zero]
  intro constant
  rcases gcd_leadingCoeff fits left right common with zero | leading
  · rw [divisor] at zero
    cases zero
  · have one : toPolynomial m d = 1 := by
      rw [← leading.natDegree_eq_zero, kept.natDegree_eq, constant]
    have same := kept.eq_of_toPolynomial_eq (unit_reduced large) (one.trans toPolynomial_unit.symm)
    rw [same] at proper
    cases proper

/-! ## Prime moduli -/

theorem Reduced.isUnit_leading [Fact m.Prime] {f : Poly} (reduced : f.Reduced m)
    (nonzero : f.isZero = false) : IsUnit (f.leading : ZMod m) := by
  rw [isUnit_iff_ne_zero, Ne, reduced.leading_cast_eq_zero_iff]
  intro zero
  rw [isZero, zero, reduced.normalized.2 zero] at nonzero
  cases nonzero

theorem lastRemainder_total [Fact m.Prime] (fits : m < Word.long) {f g : Poly}
    (left : f.Reduced m) (right : g.Reduced m) : ∃ last, lastRemainder f g = .ok last := by
  fun_induction lastRemainder f g with
  | case1 f g zero => exact ⟨f, rfl⟩
  | case2 f g nonzero halt failed =>
      have divisor : g.isZero = false := Bool.eq_false_iff.mpr nonzero
      obtain ⟨_, _, divided, _⟩ :=
        divMod_spec fits left right divisor (right.isUnit_leading divisor)
      cases failed.symm.trans divided
  | case3 f g nonzero quotient remainder divided ih =>
      exact ih right (divMod_sound fits left right divided).2.1

theorem monic_total [Fact m.Prime] (fits : m < Word.long) {f : Poly} (reduced : f.Reduced m) :
    ∃ result, f.monic = .ok result := by
  unfold monic
  split
  · exact ⟨f, rfl⟩
  · rename_i nonzero
    have unit := reduced.isUnit_leading (Bool.eq_false_iff.mpr nonzero)
    obtain ⟨scaled, built, _⟩ := scale_spec (reduced.stored fits)
      (Residue.val_lt_long fits (f.leading : ZMod m)⁻¹)
    exact ⟨scaled, by rw [leadingInverse_eq reduced unit, Outcome.ok_bind, built]⟩

theorem gcd_total [Fact m.Prime] (fits : m < Word.long) {f g : Poly} (left : f.Reduced m)
    (right : g.Reduced m) : ∃ result, gcd f g = .ok result := by
  obtain ⟨last, ended⟩ := lastRemainder_total fits left right
  obtain ⟨result, scaled⟩ := monic_total fits (lastRemainder_sound fits left right ended).1
  exact ⟨result, by rw [gcd, ended, Outcome.ok_bind, scaled]⟩

theorem gcd_eq_one_iff [Fact m.Prime] (fits : m < Word.long) {f g : Poly} (left : f.Reduced m)
    (right : g.Reduced m) :
    gcd f g = .ok ⟨1, [], m⟩ ↔ IsCoprime (toPolynomial m f) (toPolynomial m g) := by
  have proper : 1 < m := (Fact.out : m.Prime).one_lt
  have combination : IsCoprime (toPolynomial m f) (toPolynomial m g) ↔
      1 ∈ Ideal.span {toPolynomial m f, toPolynomial m g} := Ideal.mem_span_pair.symm
  rw [combination]
  constructor
  · intro success
    rw [(gcd_sound fits left right success).2, toPolynomial_unit]
    exact Ideal.mem_span_singleton_self 1
  · intro generated
    obtain ⟨result, success⟩ := gcd_total fits left right
    obtain ⟨reduced, spans⟩ := gcd_sound fits left right success
    rw [spans, Ideal.mem_span_singleton] at generated
    have unit : IsUnit (toPolynomial m result) := isUnit_of_dvd_one generated
    have one : toPolynomial m result = 1 := by
      rcases gcd_leadingCoeff fits left right success with zero | leading
      · exact absurd (toPolynomial_of_isZero zero) unit.ne_zero
      · exact leading.eq_one_of_isUnit unit
    rw [success, reduced.eq_of_toPolynomial_eq (unit_reduced proper) (one.trans
      toPolynomial_unit.symm)]

theorem div_total [Fact m.Prime] (fits : m < Word.long) {f divisor : Poly}
    (dividend : f.Reduced m) (reduced : divisor.Reduced m) (nonzero : divisor.isZero = false) :
    ∃ quotient, f.div divisor = .ok quotient := by
  obtain ⟨quotient, remainder, divided, _⟩ :=
    divMod_spec fits dividend reduced nonzero (reduced.isUnit_leading nonzero)
  exact ⟨quotient, by rw [div, divided, Outcome.ok_bind]⟩

theorem div_exact [Fact m.Prime] (fits : m < Word.long) {f divisor quotient : Poly}
    (dividend : f.Reduced m) (reduced : divisor.Reduced m)
    (divides : toPolynomial m divisor ∣ toPolynomial m f)
    (success : f.div divisor = .ok quotient) :
    quotient.Reduced m ∧
      toPolynomial m f = toPolynomial m divisor * toPolynomial m quotient := by
  unfold div at success
  obtain ⟨⟨first, remainder⟩, divided, success⟩ := Outcome.bind_eq_ok success
  cases success
  obtain ⟨kept, _, identity, smaller⟩ := divMod_sound fits dividend reduced divided
  refine ⟨kept, ?_⟩
  have zero : toPolynomial m remainder = 0 := by
    apply eq_zero_of_dvd_of_degree_lt _ smaller
    rw [identity] at divides
    exact (dvd_add_right (dvd_mul_right _ _)).mp divides
  simp [identity, zero]

/-! ## The greatest common divisor -/

theorem Reduced.leading_eq_one (proper : 1 < m) {f : Poly} (reduced : f.Reduced m)
    (monic : (toPolynomial m f).Monic) : f.leading = 1 := by
  have small : f.leading < m := reduced.below f.leading (List.mem_cons_self ..)
  have residue : (f.leading : ZMod m) = (1 : Nat) := by
    rw [← reduced.leadingCoeff_eq, monic.leadingCoeff, Nat.cast_one]
  have values := congrArg ZMod.val residue
  rwa [ZMod.val_cast_of_lt small, ZMod.val_cast_of_lt proper] at values

theorem Reduced.isZero_iff_of_span_eq {f g d : Poly} (left : f.Reduced m) (right : g.Reduced m)
    (result : d.Reduced m) (spans : Ideal.span {toPolynomial m f, toPolynomial m g}
      = Ideal.span {toPolynomial m d}) :
    d.isZero = true ↔ f.isZero = true ∧ g.isZero = true := by
  rw [← left.eq_zero_iff, ← right.eq_zero_iff, ← result.eq_zero_iff, ← Ideal.span_singleton_eq_bot,
    ← spans, Ideal.span_eq_bot]
  simp

/-- Two results generate the same ideal, and an ideal has one monic generator only. -/
theorem gcd_comm [Fact m.Prime] (fits : m < Word.long) {f g : Poly} (left : f.Reduced m)
    (right : g.Reduced m) : gcd f g = gcd g f := by
  obtain ⟨d, success⟩ := gcd_total fits left right
  obtain ⟨d', success'⟩ := gcd_total fits right left
  obtain ⟨reduced, spans⟩ := gcd_sound fits left right success
  obtain ⟨reduced', spans'⟩ := gcd_sound fits right left success'
  have associated : Associated (toPolynomial m d) (toPolynomial m d') := by
    rw [← Ideal.span_singleton_eq_span_singleton, ← spans, ← spans', Ideal.span_pair_comm]
  have same : toPolynomial m d = toPolynomial m d' := by
    rcases gcd_leadingCoeff fits left right success with zero | monic
    · rw [toPolynomial_of_isZero zero] at associated ⊢
      exact (associated_zero_iff_eq_zero _).mp associated.symm |>.symm
    · rcases gcd_leadingCoeff fits right left success' with zero | monic'
      · rw [toPolynomial_of_isZero zero] at associated
        exact absurd ((associated_zero_iff_eq_zero _).mp associated) monic.ne_zero
      · exact eq_of_monic_of_associated monic monic' associated
  rw [success, success', reduced.eq_of_toPolynomial_eq reduced' same]

/-- A result is a monic or zero generator of the ideal of the two operands, so it divides both and
every common divisor divides it. Over a prime modulus there is one, whatever the order of the
operands. -/
theorem gcd_generates_ideal (proper : 2 ≤ m) (fits : m < Word.long) {f g : Poly}
    (left : f.Reduced m) (right : g.Reduced m) :
    (∀ d, gcd f g = .ok d →
      d.Reduced m ∧ (d.isZero = true ∨ d.leading = 1) ∧
      Ideal.span {toPolynomial m f, toPolynomial m g} = Ideal.span {toPolynomial m d} ∧
      toPolynomial m d ∣ toPolynomial m f ∧ toPolynomial m d ∣ toPolynomial m g ∧
      (∀ common, common ∣ toPolynomial m f → common ∣ toPolynomial m g →
        common ∣ toPolynomial m d) ∧
      (d.isZero = true ↔ f.isZero = true ∧ g.isZero = true)) ∧
    (m.Prime → (∃ d, gcd f g = .ok d) ∧ gcd f g = gcd g f) := by
  have : NeZero m := ⟨by omega⟩
  constructor
  · intro d success
    obtain ⟨reduced, spans⟩ := gcd_sound fits left right success
    have leading := gcd_leadingCoeff fits left right success
    exact ⟨reduced, leading.imp_right (reduced.leading_eq_one proper), spans,
      gcd_dvd_left fits left right success, gcd_dvd_right fits left right success,
      fun common => gcd_greatest fits left right success,
      left.isZero_iff_of_span_eq right reduced spans⟩
  · intro prime
    have : Fact m.Prime := ⟨prime⟩
    exact ⟨gcd_total fits left right, gcd_comm fits left right⟩

/-- The first step only swaps `x + 1` and `x ^ 2 - 1`. Modulo six not every leading coefficient is
invertible, modulo five every one is. -/
theorem gcd_generates_ideal_swapped :
    (gcd ⟨1, [1], 6⟩ ⟨1, [0, 5], 6⟩ = .ok ⟨1, [1], 6⟩ ∧
      toPolynomial 6 ⟨1, [1], 6⟩ ∣ toPolynomial 6 ⟨1, [0, 5], 6⟩) ∧
    ∃ d, gcd ⟨3, [3], 5⟩ ⟨2, [0, 3], 5⟩ = .ok d ∧ gcd ⟨2, [0, 3], 5⟩ ⟨3, [3], 5⟩ = .ok d := by
  have success : gcd ⟨1, [1], 6⟩ ⟨1, [0, 5], 6⟩ = .ok ⟨1, [1], 6⟩ := by decide +kernel
  have six := @gcd_generates_ideal 6 (by simp) (by simp [Word.long]) ⟨1, [1], 6⟩ ⟨1, [0, 5], 6⟩
    ⟨rfl, by simp [Normalized, coefficients]⟩ ⟨rfl, by simp [Normalized, coefficients]⟩
  have five := @gcd_generates_ideal 5 (by simp) (by simp [Word.long]) ⟨3, [3], 5⟩ ⟨2, [0, 3], 5⟩
    ⟨rfl, by simp [Normalized, coefficients]⟩ ⟨rfl, by simp [Normalized, coefficients]⟩
  obtain ⟨_, _, _, _, divides, _⟩ := six.1 _ success
  obtain ⟨⟨d, found⟩, symmetric⟩ := five.2 Nat.prime_five
  exact ⟨⟨success, divides⟩, d, found, symmetric ▸ found⟩

end ResidueAlgebra.Poly
