import Mathlib.RingTheory.AdjoinRoot
import ResidueAlgebra.Poly.Euclid
import ResidueAlgebra.Proofs.Poly.Division

/-!
# Powers modulo a polynomial

Remainders by a divisor with an invertible leading coefficient stand for the elements of the
polynomial ring modulo that divisor. Reducing, multiplying and raising to a power always succeed,
and the remainder stands for the class, the product or the power, for composite moduli as well.
One remainder stands for each element, so square and multiply ends where plain multiplication and one
long division end.
-/
set_option autoImplicit false
namespace ResidueAlgebra.Poly

open Polynomial

variable {m : Nat}

/-- A polynomial to divide by: not zero, with an invertible leading coefficient. -/
structure Divisor (m : Nat) (d : Poly) : Prop where
  reduced : d.Reduced m
  nonzero : d.isZero = false
  unit : IsUnit (d.leading : ZMod m)

theorem Reduced.divisor_of_coprime {d : Poly} (reduced : d.Reduced m) (nonzero : d.isZero = false)
    (coprime : d.leading.Coprime m) : d.Divisor m :=
  ⟨reduced, nonzero, (ZMod.isUnit_iff_coprime d.leading m).mpr coprime⟩

/-- A reduced polynomial of degree below that of the divisor that stands for the given element of
the quotient. -/
structure Remainder (m : Nat) (r d : Poly) (value : AdjoinRoot (toPolynomial m d)) : Prop where
  reduced : r.Reduced m
  degree_lt : (toPolynomial m r).degree < (toPolynomial m d).degree
  value_eq : AdjoinRoot.mk (toPolynomial m d) (toPolynomial m r) = value

namespace Divisor

variable {d : Poly}

theorem rem_spec [NeZero m] (fits : m < Word.long) (divisor : d.Divisor m) {f : Poly}
    (reduced : f.Reduced m) :
    ∃ r, f.rem d = .ok r ∧ r.Remainder m d (AdjoinRoot.mk _ (toPolynomial m f)) := by
  obtain ⟨quotient, remainder, divided, _, kept, identity, smaller⟩ :=
    divMod_spec fits reduced divisor.reduced divisor.nonzero divisor.unit
  refine ⟨remainder, by rw [rem, divided, Outcome.ok_bind], kept, smaller, ?_⟩
  rw [AdjoinRoot.mk_eq_mk, identity]
  exact ⟨-toPolynomial m quotient, by ring⟩

theorem mulRem_spec [NeZero m] (fits : m < Word.long) (divisor : d.Divisor m) {f g : Poly}
    {a b : AdjoinRoot (toPolynomial m d)} (left : f.Remainder m d a) (right : g.Remainder m d b) :
    ∃ product r, f.multiply g = .ok product ∧ product.rem d = .ok r ∧ r.Remainder m d (a * b) := by
  obtain ⟨product, multiplied, kept, value⟩ :=
    multiply_spec fits (left.reduced.stored fits) (right.reduced.stored fits)
  obtain ⟨r, divided, remainder⟩ := divisor.rem_spec fits kept
  rw [value, map_mul, left.value_eq, right.value_eq] at remainder
  exact ⟨product, r, multiplied, divided, remainder⟩

/-- What was collected so far times the power that is left stays the same. -/
theorem powModLoop_spec [NeZero m] (fits : m < Word.long) (divisor : d.Divisor m)
    {result square : Poly} {a b : AdjoinRoot (toPolynomial m d)} (exponent : Nat)
    (collected : result.Remainder m d a) (squared : square.Remainder m d b) :
    ∃ r, powModLoop d result square exponent = .ok r ∧ r.Remainder m d (a * b ^ exponent) := by
  induction exponent using Nat.strong_induction_on generalizing result square a b with
  | h exponent ih =>
      rw [powModLoop]
      split
      · rename_i done
        exact ⟨result, rfl, by simpa [done] using collected⟩
      · rename_i more
        have smaller : exponent / 2 < exponent := by omega
        obtain ⟨product, next, multiplied, divided, nextSquare⟩ :=
          divisor.mulRem_spec fits squared squared
        rcases Nat.mod_two_eq_zero_or_one exponent with even | odd
        · obtain ⟨r, run, remainder⟩ := ih (exponent / 2) smaller collected nextSquare
          refine ⟨r, by simp [even, multiplied, divided, run], ?_⟩
          rwa [Residue.pow_lowest_bit b, even, pow_zero, one_mul]
        · obtain ⟨mixed, taken, joined, reduced, nextResult⟩ :=
            divisor.mulRem_spec fits collected squared
          obtain ⟨r, run, remainder⟩ := ih (exponent / 2) smaller nextResult nextSquare
          refine ⟨r, by simp [odd, joined, reduced, multiplied, divided, run], ?_⟩
          rwa [Residue.pow_lowest_bit b, odd, pow_one, ← mul_assoc]

theorem powMod_spec [NeZero m] (fits : m < Word.long) (divisor : d.Divisor m) {base : Poly}
    (reduced : base.Reduced m) (exponent : Nat) :
    ∃ r, base.powMod exponent d = .ok r ∧
      r.Remainder m d (AdjoinRoot.mk _ (toPolynomial m base) ^ exponent) := by
  obtain ⟨unit, built, unitReduced, unitValue⟩ := one_spec (m := m)
  obtain ⟨start, startRem, startsAt⟩ := divisor.rem_spec fits unitReduced
  obtain ⟨square, squareRem, squared⟩ := divisor.rem_spec fits reduced
  obtain ⟨r, run, remainder⟩ := divisor.powModLoop_spec fits exponent startsAt squared
  rw [unitValue, map_one, one_mul] at remainder
  refine ⟨r, ?_, remainder⟩
  rw [powMod, reduced.modulus_eq, built, Outcome.ok_bind, startRem, Outcome.ok_bind, squareRem,
    Outcome.ok_bind, run]

/-! ## The remainder of long division -/

theorem isUnit_leadingCoeff (divisor : d.Divisor m) : IsUnit (toPolynomial m d).leadingCoeff := by
  rw [divisor.reduced.leadingCoeff_eq]
  exact divisor.unit

theorem remainder_unique (divisor : d.Divisor m) {r s : Poly} {a : AdjoinRoot (toPolynomial m d)}
    (first : r.Remainder m d a) (second : s.Remainder m d a) : r = s := by
  have congruent := first.value_eq.trans second.value_eq.symm
  rw [AdjoinRoot.mk_eq_mk] at congruent
  obtain ⟨quotient, difference⟩ := congruent
  have same : toPolynomial m d * 0 + toPolynomial m r
      = toPolynomial m d * quotient + toPolynomial m s := by
    linear_combination difference
  have values := (quotient_unique divisor.isUnit_leadingCoeff same first.degree_lt
    second.degree_lt).2
  exact first.reduced.eq_of_toPolynomial_eq second.reduced values

theorem rem_eq_of_remainder [NeZero m] (fits : m < Word.long) (divisor : d.Divisor m) {f r : Poly}
    (reduced : f.Reduced m) (stands : r.Remainder m d (AdjoinRoot.mk _ (toPolynomial m f))) :
    f.rem d = .ok r ∧ ∃ quotient, IsDivision m f d quotient r := by
  obtain ⟨left, taken, leftStands⟩ := divisor.rem_spec fits reduced
  obtain rfl := divisor.remainder_unique stands leftStands
  refine ⟨taken, ?_⟩
  rw [rem] at taken
  obtain ⟨⟨quotient, remainder⟩, divided, same⟩ := Outcome.bind_eq_ok taken
  cases same
  exact ⟨quotient, divMod_isDivision fits reduced divisor.reduced divided⟩

end Divisor

/-! ## Powers one factor at a time -/

/-- The product of `exponent` copies of a polynomial, multiplied in one after the other. -/
def plainPower (base : Poly) : Nat → Outcome Poly
  | 0 => one base.modulus
  | exponent + 1 => do
      let power ← plainPower base exponent
      power.multiply base

theorem plainPower_spec [NeZero m] (fits : m < Word.long) {base : Poly} (reduced : base.Reduced m)
    (exponent : Nat) :
    ∃ power, base.plainPower exponent = .ok power ∧ power.Reduced m ∧
      toPolynomial m power = toPolynomial m base ^ exponent := by
  induction exponent with
  | zero =>
      obtain ⟨unit, built, unitReduced, value⟩ := one_spec (m := m)
      exact ⟨unit, by rw [plainPower, reduced.modulus_eq, built], unitReduced, by simp [value]⟩
  | succ exponent ih =>
      obtain ⟨power, raised, kept, value⟩ := ih
      obtain ⟨product, multiplied, productReduced, stands⟩ :=
        multiply_spec fits (kept.stored fits) (reduced.stored fits)
      refine ⟨product, ?_, productReduced, by rw [stands, value, pow_succ]⟩
      rw [plainPower, raised, Outcome.ok_bind, multiplied]

/-- Square and multiply modulo a divisor whose leading coefficient is coprime to the modulus always
has a result. It is what long division leaves of the product of that many copies of the base, which
is zero when the divisor is constant. -/
theorem powMod_eq_rem_plainPower {m : Nat} {base divisor : Poly} (fits : m < Word.long)
    (reduced : base.Reduced m) (divisorReduced : divisor.Reduced m)
    (nonzero : divisor.isZero = false) (coprime : divisor.leading.Coprime m) (exponent : Nat) :
    ∃ power quotient remainder,
      base.plainPower exponent = .ok power ∧
      toPolynomial m power = toPolynomial m base ^ exponent ∧
      power.rem divisor = .ok remainder ∧
      IsDivision m power divisor quotient remainder ∧
      base.powMod exponent divisor = .ok remainder ∧
      (divisor.isConstant = true → remainder = zero m) := by
  have : NeZero m := ⟨Nat.ne_of_gt reduced.modulus_pos⟩
  have proper := divisorReduced.divisor_of_coprime nonzero coprime
  obtain ⟨power, raised, powerReduced, value⟩ := plainPower_spec fits reduced exponent
  obtain ⟨remainder, run, stands⟩ := proper.powMod_spec fits reduced exponent
  rw [← map_pow, ← value] at stands
  obtain ⟨taken, quotient, division⟩ := proper.rem_eq_of_remainder fits powerReduced stands
  refine ⟨power, quotient, remainder, raised, value, taken, division, run, ?_⟩
  intro constant
  have flat : divisor.degree = 0 := by simpa [isConstant, degree] using constant
  have vanishes := division.smaller.resolve_right (by omega)
  exact stands.reduced.eq_zero_of_isZero vanishes

/-- The largest exponent of a word, for `x + 1` modulo nine and the divisor `2x ^ 2 + 1`: a product
too long to be multiplied out, and the remainder it leaves. -/
theorem powMod_eq_rem_plainPower_largest_exponent :
    powMod ⟨1, [1], 9⟩ 18446744073709551615 ⟨2, [0, 1], 9⟩ = .ok ⟨7, [4], 9⟩ ∧
    ∃ power, plainPower ⟨1, [1], 9⟩ 18446744073709551615 = .ok power ∧
      power.rem ⟨2, [0, 1], 9⟩ = .ok ⟨7, [4], 9⟩ := by
  have run : powMod ⟨1, [1], 9⟩ 18446744073709551615 ⟨2, [0, 1], 9⟩ = .ok ⟨7, [4], 9⟩ := by
    decide +kernel
  obtain ⟨power, quotient, remainder, raised, _, taken, _, same, _⟩ :=
    @powMod_eq_rem_plainPower 9 ⟨1, [1], 9⟩ ⟨2, [0, 1], 9⟩ (by decide) ⟨rfl, by decide, by decide⟩
      ⟨rfl, by decide, by decide⟩ rfl (by decide) 18446744073709551615
  cases same.symm.trans run
  exact ⟨run, power, raised, taken⟩

end ResidueAlgebra.Poly
