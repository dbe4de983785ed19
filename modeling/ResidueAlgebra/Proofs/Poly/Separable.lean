import Mathlib.FieldTheory.Perfect
import ResidueAlgebra.Proofs.Poly.SquareFree

/-!
# Factors of a square-free decomposition

Every factor that a decomposition over a prime field lists is coprime to its derivative. No rule of
the recursion tests the cofactor it appends; it is square-free because a factor repeated `e` times
in a polynomial is repeated at least `e - 1` times in the derivative, and so in the common divisor. A
polynomial coprime to its derivative is its own decomposition.
-/
set_option autoImplicit false
namespace ResidueAlgebra.Poly

open Polynomial

variable {m : Nat}

/-! ## The cofactor of the common divisor -/

/-- Dividing out all that a polynomial shares with its derivative leaves every factor once. -/
theorem squarefree_cofactor {F : Type} [Field F] {f d h : F[X]} (nonzero : f ≠ 0)
    (product : f = d * h) (greatest : ∀ c, c ∣ f → c ∣ Polynomial.derivative f → c ∣ d) :
    Squarefree h := by
  have cofactorNonzero : h ≠ 0 := by
    rintro rfl
    exact nonzero (by rw [product, mul_zero])
  rw [squarefree_iff_irreducible_sq_not_dvd_of_ne_zero cofactorNonzero]
  intro q irreducible square
  obtain ⟨count, rest, coprime, whole⟩ := WfDvdMonoid.max_power_factor nonzero irreducible
  have power : q ^ count ∣ f := ⟨rest, whole⟩
  have positive : 0 < count := by
    rw [Nat.pos_iff_ne_zero]
    rintro rfl
    rw [pow_zero, one_mul] at whole
    apply coprime
    rw [← whole, product]
    exact dvd_mul_of_dvd_right (dvd_trans (dvd_mul_right q q) square) d
  have common : q ^ (count - 1) ∣ d :=
    greatest _ (dvd_trans (pow_dvd_pow q (Nat.sub_le count 1)) power)
      (pow_sub_one_dvd_derivative_of_pow_dvd power)
  -- The square in the cofactor adds two to the multiplicity in the common divisor.
  have tooMany : q ^ count * q ∣ q ^ count * rest := by
    have split : q ^ count * q = q ^ (count - 1) * (q * q) := by
      rw [← mul_assoc, pow_sub_one_mul (Nat.ne_of_gt positive)]
    rw [split, ← whole, product]
    exact mul_dvd_mul common square
  exact coprime ((mul_dvd_mul_iff_left (pow_ne_zero count irreducible.ne_zero)).mp tooMany)

/-! ## Every listed factor is separable -/

theorem separable_of_degree_lt_two [Fact m.Prime] {f : Poly} (reduced : f.Reduced m)
    (nonzero : f.isZero = false) (low : f.degree < 2) : (toPolynomial m f).Separable := by
  rw [PerfectField.separable_iff_squarefree]
  have degree := reduced.degree_eq nonzero
  have cases : f.lower.length = 0 ∨ f.lower.length = 1 := by
    rw [Poly.degree] at low
    omega
  rcases cases with constant | linear
  · rw [constant] at degree
    exact (isUnit_iff_degree_eq_zero.mpr degree).squarefree
  · rw [linear] at degree
    exact (irreducible_of_degree_eq_one degree).squarefree

theorem eq_unit_of_isOne {d : Poly} (reduced : d.Reduced m) (unit : d.isOne = true) :
    d = ⟨1, [], m⟩ := by
  rw [isOne, Bool.and_eq_true, beq_iff_eq, List.isEmpty_iff] at unit
  obtain ⟨leading, lower⟩ := unit
  cases d
  cases leading
  cases lower
  cases reduced.modulus_eq
  rfl

theorem Decomposition.separable [Fact m.Prime] (fits : m < Word.long) {f : Poly}
    {factors : List Poly} (decomposition : Decomposition f factors) (reduced : f.Reduced m)
    (nonzero : f.isZero = false) :
    ∀ factor ∈ factors, (toPolynomial m factor).Separable ∧ (0 < f.degree → 0 < factor.degree) := by
  induction decomposition with
  | small low =>
      intro factor member
      rw [List.mem_singleton.mp member]
      exact ⟨separable_of_degree_lt_two reduced nonzero low, id⟩
  | @power f slope v factors high derived flat rooted inner ih =>
      obtain ⟨kept, power⟩ := pthRoot_sound reduced rooted
      have notZero := reduced.ne_zero nonzero
      rw [power] at notZero
      have rootNonzero := kept.isZero_eq_false (ne_zero_pow (NeZero.ne m) notZero)
      have rootDegree : 0 < v.degree := one_le_degree_of_pthRoot reduced rooted (by omega)
      intro factor member
      rw [repeated, List.mem_flatten] at member
      obtain ⟨copy, isCopy, inside⟩ := member
      rw [List.eq_of_mem_replicate isCopy] at inside
      obtain ⟨separable, positive⟩ := ih kept rootNonzero factor inside
      exact ⟨separable, fun _ => positive rootDegree⟩
  | @coprime f slope d high derived steep common unit =>
      obtain ⟨slopeReduced, slopeValue⟩ := derivative_sound fits (reduced.stored fits) derived
      intro factor member
      rw [List.mem_singleton.mp member]
      refine ⟨?_, id⟩
      rw [eq_unit_of_isOne (gcd_sound fits reduced slopeReduced common).1 unit,
        gcd_eq_one_iff fits reduced slopeReduced, slopeValue] at common
      exact common
  | @split f slope d h factors high derived steep common proper divided inner ih =>
      obtain ⟨slopeReduced, slopeValue⟩ := derivative_sound fits (reduced.stored fits) derived
      obtain ⟨kept, divisorDegree⟩ :=
        gcd_derivative_proper fits reduced (by omega) derived common proper
      have divisor := gcd_isZero_of_left fits reduced slopeReduced common (by omega)
      have divides := gcd_dvd_left fits reduced slopeReduced common
      obtain ⟨cofactor, identity⟩ := div_exact fits reduced kept divides divided
      intro factor member
      rcases List.mem_append.mp member with listed | last
      · obtain ⟨separable, positive⟩ := ih kept divisor factor listed
        exact ⟨separable, fun _ => positive divisorDegree⟩
      · rw [List.mem_singleton.mp last]
        constructor
        · rw [PerfectField.separable_iff_squarefree]
          refine squarefree_cofactor (reduced.ne_zero nonzero) identity ?_
          intro c inPolynomial inDerivative
          rw [← slopeValue] at inDerivative
          exact gcd_greatest fits reduced slopeReduced common inPolynomial inDerivative
        · intro _
          have notZero := reduced.ne_zero nonzero
          have degrees : f.degree = d.degree + h.degree := by
            rw [identity] at notZero
            rw [← reduced.natDegree_eq, identity, natDegree_mul (left_ne_zero_of_mul notZero)
              (right_ne_zero_of_mul notZero), kept.natDegree_eq, cofactor.natDegree_eq]
          have slopeSmaller := degree_derivative_lt derived (by omega)
          have commonSmaller := degree_gcd_le steep common
          omega

/-! ## Separable polynomials are their own decomposition -/

theorem gcd_derivative_of_separable [Fact m.Prime] (fits : m < Word.long) {u slope : Poly}
    (reduced : u.Reduced m) (separable : (toPolynomial m u).Separable)
    (derived : u.derivative = .ok slope) : gcd u slope = .ok ⟨1, [], m⟩ := by
  obtain ⟨slopeReduced, slopeValue⟩ := derivative_sound fits (reduced.stored fits) derived
  rw [gcd_eq_one_iff fits reduced slopeReduced, slopeValue]
  exact separable

theorem Decomposition.eq_singleton [Fact m.Prime] (fits : m < Word.long) {u : Poly}
    {factors : List Poly} (decomposition : Decomposition u factors) (reduced : u.Reduced m)
    (separable : (toPolynomial m u).Separable) : factors = [u] := by
  cases decomposition with
  | small low => rfl
  | power high derived flat rooted inner =>
      have one := gcd_derivative_of_separable fits reduced separable derived
      rw [gcd_eq_one_iff fits reduced (derivative_sound fits (reduced.stored fits) derived).1,
        toPolynomial_of_isZero flat, isCoprime_zero_right] at one
      have constant := natDegree_eq_zero_of_isUnit one
      rw [reduced.natDegree_eq] at constant
      omega
  | coprime high derived steep common unit => rfl
  | split high derived steep common proper divided inner =>
      cases common.symm.trans (gcd_derivative_of_separable fits reduced separable derived)
      cases proper

/-- Decomposing a non-zero polynomial over a prime field always ends. Every listed factor is
square-free, coprime to its derivative, not constant unless the polynomial is, and decomposes into
itself alone. -/
theorem decompose_square_free {p : Nat} (prime : p.Prime) (fits : p < Word.long) {f : Poly}
    (reduced : f.Reduced p) (nonzero : f.isZero = false) {token : Token}
    (live : token.requested = false) (trace : Trace) :
    ∃ factors, ((f.decompose token).runFrom trace).1 = .ok factors ∧
      ∀ u ∈ factors, u.Reduced p ∧ Squarefree (toPolynomial p u) ∧
        (do let slope ← u.derivative; gcd u slope) = .ok ⟨1, [], p⟩ ∧
        (1 ≤ f.degree → 1 ≤ u.degree) ∧
        ∀ later, ((u.decompose token).runFrom later).1 = .ok [u] := by
  have : Fact p.Prime := ⟨prime⟩
  obtain ⟨factors, success, decomposition⟩ := (decomposeAt_spec fits live reduced 0).outcome trace
  refine ⟨factors, success, ?_⟩
  intro u member
  have kept := (decomposition.factors fits reduced).reduced u member
  obtain ⟨separable, positive⟩ := decomposition.separable fits reduced nonzero u member
  refine ⟨kept, separable.squarefree, ?_, positive, ?_⟩
  · obtain ⟨slope, derived, _⟩ := derivative_spec fits (kept.stored fits)
    rw [derived, Outcome.ok_bind, gcd_derivative_of_separable fits kept separable derived]
  · intro later
    obtain ⟨again, same, inner⟩ := (decomposeAt_spec fits live kept 0).outcome later
    rw [decompose, same, inner.eq_singleton fits kept separable]

/-- One multiplicity of `x ^ 2 * (x + 1) ^ 3` over three elements is divisible by three and one is
not. -/
theorem decompose_square_free_mixed_multiplicities :
    ((decompose ⟨1, [0, 0, 1, 0, 0], 3⟩ .fresh).runFrom .empty).1
      = .ok [⟨1, [1], 3⟩, ⟨1, [1], 3⟩, ⟨1, [1], 3⟩, ⟨1, [0], 3⟩, ⟨1, [0], 3⟩] ∧
    ∀ u ∈ [(⟨1, [1], 3⟩ : Poly), ⟨1, [1], 3⟩, ⟨1, [1], 3⟩, ⟨1, [0], 3⟩, ⟨1, [0], 3⟩],
      Squarefree (toPolynomial 3 u) ∧ 1 ≤ u.degree := by
  have run : ((decompose ⟨1, [0, 0, 1, 0, 0], 3⟩ .fresh).runFrom .empty).1
      = .ok [⟨1, [1], 3⟩, ⟨1, [1], 3⟩, ⟨1, [1], 3⟩, ⟨1, [0], 3⟩, ⟨1, [0], 3⟩] := by
    decide +kernel
  obtain ⟨factors, success, listed⟩ := @decompose_square_free 3 Nat.prime_three (by decide)
    ⟨1, [0, 0, 1, 0, 0], 3⟩ ⟨rfl, by decide, by decide⟩ rfl .fresh rfl .empty
  refine ⟨run, ?_⟩
  cases success.symm.trans run
  intro u member
  obtain ⟨_, squarefree, _, positive, _⟩ := listed u member
  exact ⟨squarefree, positive (by decide)⟩

end ResidueAlgebra.Poly
