import Mathlib.Algebra.Polynomial.Expand
import ResidueAlgebra.Proofs.Poly.Power
import ResidueAlgebra.Proofs.Poly.SquareFree

/-!
# Roots undo the substitution of a power

For a modulus `m`, prime or not, a reduced polynomial has a root exactly when `m` divides the exponent
of each of its terms, and the root `v` is then the one reduced polynomial with `f(x) = v(x ^ m)`.
Otherwise the failure names the highest exponent that `m` does not divide. Over a prime modulus the
polynomials with a root are those with derivative zero, and `f` is the `m`-fold product of its root.
-/
set_option autoImplicit false
namespace ResidueAlgebra.Poly

open Polynomial

variable {m : Nat}

/-! ## Terms that are in the way of a root -/

def Offends (p : Nat) (entries : List Nat) (exponent : Nat) : Prop :=
  entries.reverse.getD exponent 0 ≠ 0 ∧ ¬ p ∣ exponent

theorem offends_cons_iff {p entry : Nat} {rest : List Nat} {exponent : Nat} :
    Offends p (entry :: rest) exponent ↔
      (exponent = rest.length ∧ entry ≠ 0 ∧ ¬ p ∣ exponent) ∨ Offends p rest exponent := by
  have bounded : Offends p rest exponent → exponent ≠ rest.length := by
    rintro ⟨nonzero, _⟩ rfl
    exact nonzero (List.getD_eq_default _ _ (by simp))
  unfold Offends at bounded ⊢
  rw [getD_reverse_cons]
  split
  · rename_i same
    simp only [same, true_and]
    exact ⟨Or.inl, fun either => either.resolve_right fun later => bounded (same ▸ later) same⟩
  · rename_i different
    simp [different]

theorem Offends.lt_length {p : Nat} {entries : List Nat} {exponent : Nat}
    (offends : Offends p entries exponent) : exponent < entries.length := by
  by_contra outside
  exact offends.1 (List.getD_eq_default _ _ (by simpa using outside))

theorem offendingExponent_cases (p : Nat) (entries : List Nat) :
    (offendingExponent p entries = none ∧ ∀ exponent, ¬ Offends p entries exponent) ∨
      ∃ exponent, offendingExponent p entries = some exponent ∧
        IsGreatest {other | Offends p entries other} exponent := by
  induction entries with
  | nil => exact Or.inl ⟨rfl, fun exponent offends => offends.1 (by simp)⟩
  | cons entry rest ih =>
      unfold offendingExponent
      split
      · rename_i first
        have remains : ¬ p ∣ rest.length := fun divides =>
          first.2 (Nat.mod_eq_zero_of_dvd divides)
        refine Or.inr ⟨rest.length, rfl, offends_cons_iff.mpr (Or.inl ⟨rfl, first.1, remains⟩), ?_⟩
        intro other offends
        exact Nat.le_of_lt_succ offends.lt_length
      · rename_i harmless
        have same : ∀ exponent, Offends p (entry :: rest) exponent ↔ Offends p rest exponent := by
          intro exponent
          rw [offends_cons_iff, or_iff_right]
          rintro ⟨rfl, nonzero, remains⟩
          exact harmless ⟨nonzero, fun divides => remains (Nat.dvd_of_mod_eq_zero divides)⟩
        simpa only [same] using ih

theorem offends_coefficients_iff {f : Poly} {exponent : Nat} :
    Offends m f.coefficients exponent ↔ f.coefficient exponent ≠ 0 ∧ ¬ m ∣ exponent := by
  rw [Offends, List.getD_eq_getElem?_getD, coefficient]

theorem pthRoot_cases [NeZero m] {f : Poly} (reduced : f.Reduced m) :
    ((∃ v, f.pthRoot = .ok v) ∧ ∀ exponent, f.coefficient exponent ≠ 0 → m ∣ exponent) ∨
      ∃ exponent, f.pthRoot = .error (.fault (.notPthPower exponent m)) ∧
        IsGreatest {other | f.coefficient other ≠ 0 ∧ ¬ m ∣ other} exponent := by
  rw [pthRoot, reduced.modulus_eq, if_neg (NeZero.ne m)]
  rcases offendingExponent_cases m f.coefficients with ⟨clean, harmless⟩ | ⟨exponent, found, highest⟩
  · left
    obtain ⟨v, built, _⟩ := @ofResidues_spec m _ (stride m 0 f.coefficients)
    refine ⟨⟨v, by rw [clean]; exact built⟩, ?_⟩
    intro exponent nonzero
    by_contra remains
    exact harmless exponent (offends_coefficients_iff.mpr ⟨nonzero, remains⟩)
  · right
    refine ⟨exponent, by rw [found]; rfl, ?_⟩
    simpa only [offends_coefficients_iff] using highest

/-! ## The root as a polynomial -/

theorem Reduced.coefficient_lt {f : Poly} (reduced : f.Reduced m) (exponent : Nat) :
    f.coefficient exponent < m := by
  rw [coefficient]
  cases found : f.coefficients.reverse[exponent]? with
  | none => exact reduced.modulus_pos
  | some entry => exact reduced.below entry (List.mem_reverse.mp (List.mem_of_getElem? found))

theorem Reduced.coeff_eq_zero_iff {f : Poly} (reduced : f.Reduced m) (exponent : Nat) :
    (toPolynomial m f).coeff exponent = 0 ↔ f.coefficient exponent = 0 := by
  rw [coeff_toPolynomial, ZMod.natCast_eq_zero_iff]
  constructor
  · exact fun divides => Nat.eq_zero_of_dvd_of_lt divides (reduced.coefficient_lt exponent)
  · intro zero
    rw [zero]
    exact dvd_zero m

theorem Reduced.dvd_of_expand [NeZero m] {f : Poly} (reduced : f.Reduced m) {value : (ZMod m)[X]}
    (expanded : toPolynomial m f = expand (ZMod m) m value) {exponent : Nat}
    (nonzero : f.coefficient exponent ≠ 0) : m ∣ exponent := by
  by_contra remains
  apply nonzero
  rw [← reduced.coeff_eq_zero_iff, expanded, coeff_expand (NeZero.pos m), if_neg remains]

theorem pthRoot_eq_ok_iff [NeZero m] {f v : Poly} (reduced : f.Reduced m) :
    f.pthRoot = .ok v ↔ v.Reduced m ∧ toPolynomial m f = expand (ZMod m) m (toPolynomial m v) := by
  refine ⟨pthRoot_expand reduced, ?_⟩
  rintro ⟨kept, expanded⟩
  rcases pthRoot_cases reduced with ⟨⟨root, success⟩, _⟩ | ⟨exponent, _, ⟨nonzero, remains⟩, _⟩
  · obtain ⟨rootReduced, same⟩ := pthRoot_expand reduced success
    have values := expand_injective (NeZero.pos m) (expanded.symm.trans same)
    rw [success, rootReduced.eq_of_toPolynomial_eq kept values.symm]
  · exact absurd (reduced.dvd_of_expand expanded nonzero) remains

theorem derivative_of_pthRoot [NeZero m] (fits : m < Word.long) {f v : Poly}
    (reduced : f.Reduced m) (success : f.pthRoot = .ok v) : f.derivative = .ok (zero m) := by
  obtain ⟨slope, derived, slopeReduced, value⟩ := derivative_spec fits (reduced.stored fits)
  rw [(pthRoot_expand reduced success).2, derivative_expand, CharP.cast_eq_zero, zero_mul,
    mul_zero] at value
  rw [derived, slopeReduced.eq_zero_of_isZero (slopeReduced.eq_zero_iff.mp value)]

/-- A reduced polynomial has a root exactly when the modulus divides the exponent of each of its
terms, and the root is the polynomial that gives it back with `x ^ m` for `x`. Otherwise the failure
names the highest exponent that the modulus does not divide. Over a prime modulus those with a root
are those with derivative zero, and the root multiplied by itself `m` times is the polynomial. -/
theorem pthRoot_inverts_substitution (proper : 2 ≤ m) (fits : m < Word.long) {f : Poly}
    (reduced : f.Reduced m) :
    ((∃ v, f.pthRoot = .ok v) ↔ ∀ exponent, f.coefficient exponent ≠ 0 → m ∣ exponent) ∧
    (∀ v, f.pthRoot = .ok v ↔
      v.Reduced m ∧ toPolynomial m f = (toPolynomial m v).comp (X ^ m)) ∧
    (∀ v, f.pthRoot = .ok v → f.degree = m * v.degree) ∧
    ((¬ ∃ v, f.pthRoot = .ok v) →
      ∃ exponent, f.pthRoot = .error (.fault (.notPthPower exponent m)) ∧
        IsGreatest {other | f.coefficient other ≠ 0 ∧ ¬ m ∣ other} exponent) ∧
    (m.Prime →
      (f.derivative = .ok (zero m) ↔ ∃ v, f.pthRoot = .ok v) ∧
      ∀ v, f.pthRoot = .ok v → v.plainPower m = .ok f) := by
  have : NeZero m := ⟨by omega⟩
  refine ⟨⟨?_, ?_⟩, ?_, fun v => degree_of_pthRoot reduced, ?_, ?_⟩
  · rintro ⟨v, success⟩ exponent
    exact reduced.dvd_of_expand (pthRoot_expand reduced success).2
  · intro divides
    rcases pthRoot_cases reduced with ⟨rooted, _⟩ | ⟨exponent, _, ⟨nonzero, remains⟩, _⟩
    · exact rooted
    · exact absurd (divides exponent nonzero) remains
  · intro v
    rw [pthRoot_eq_ok_iff reduced, expand_eq_comp_X_pow]
  · intro rootless
    exact (pthRoot_cases reduced).resolve_left fun rooted => rootless rooted.1
  · intro prime
    have : Fact m.Prime := ⟨prime⟩
    constructor
    · constructor
      · intro derived
        apply pthRoot_total reduced
        rw [← (derivative_sound fits (reduced.stored fits) derived).2, toPolynomial_zero]
      · rintro ⟨v, success⟩
        exact derivative_of_pthRoot fits reduced success
    · intro v success
      obtain ⟨kept, power⟩ := pthRoot_sound reduced success
      obtain ⟨product, raised, productReduced, value⟩ := plainPower_spec fits kept m
      rw [raised, productReduced.eq_of_toPolynomial_eq reduced (value.trans power.symm)]

/-- Modulo four `2x ^ 8 + 3x ^ 4 + 1` has a root, and `2x ^ 6 + x ^ 4` has none although its
derivative vanishes. Modulo three the root of `x ^ 6 + 1` is a cube root. -/
theorem pthRoot_inverts_substitution_composite :
    (pthRoot ⟨2, [0, 0, 0, 3, 0, 0, 0, 1], 4⟩ = .ok ⟨2, [3, 1], 4⟩ ∧
      toPolynomial 4 ⟨2, [0, 0, 0, 3, 0, 0, 0, 1], 4⟩
        = (toPolynomial 4 ⟨2, [3, 1], 4⟩).comp (X ^ 4)) ∧
    (derivative ⟨2, [0, 1, 0, 0, 0, 0], 4⟩ = .ok (zero 4) ∧
      ∃ exponent, pthRoot ⟨2, [0, 1, 0, 0, 0, 0], 4⟩
        = .error (.fault (.notPthPower exponent 4))) ∧
    plainPower ⟨1, [0, 1], 3⟩ 3 = .ok ⟨1, [0, 0, 0, 0, 0, 1], 3⟩ := by
  have fourth := @pthRoot_inverts_substitution 4 (by decide) (by decide)
    ⟨2, [0, 0, 0, 3, 0, 0, 0, 1], 4⟩ ⟨rfl, by decide, by decide⟩
  have rootless := @pthRoot_inverts_substitution 4 (by decide) (by decide)
    ⟨2, [0, 1, 0, 0, 0, 0], 4⟩ ⟨rfl, by decide, by decide⟩
  have cube := @pthRoot_inverts_substitution 3 (by decide) (by decide)
    ⟨1, [0, 0, 0, 0, 0, 1], 3⟩ ⟨rfl, by decide, by decide⟩
  have found : pthRoot ⟨2, [0, 0, 0, 3, 0, 0, 0, 1], 4⟩ = .ok ⟨2, [3, 1], 4⟩ := by decide
  have failed : pthRoot ⟨2, [0, 1, 0, 0, 0, 0], 4⟩ = .error (.fault (.notPthPower 6 4)) := by
    decide
  obtain ⟨exponent, failure, _⟩ := rootless.2.2.2.1 (by simp [failed])
  exact ⟨⟨found, ((fourth.2.1 _).mp found).2⟩, ⟨by decide, exponent, failure⟩,
    (cube.2.2.2.2 Nat.prime_three).2 _ (by decide)⟩

end ResidueAlgebra.Poly
