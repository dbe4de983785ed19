import Mathlib.Algebra.Polynomial.Degree.Lemmas
import Mathlib.Tactic.LinearCombination
import ResidueAlgebra.Poly.Basic
import ResidueAlgebra.Proofs.Residue.Row

/-!
# Polynomials as elements of the polynomial ring

`toPolynomial m f` is the polynomial over `ZMod m` with the coefficients of `f`. On reduced
polynomials it is injective, and construction and multiplication always succeed with a reduced
result that stands for the expected one. Operands need not be reduced, as long as their coefficients
fit a word.
-/
set_option autoImplicit false
namespace ResidueAlgebra.Poly

open Polynomial

variable {m : Nat}

/-! ## Lists of coefficients -/

/-- The polynomial with the given coefficients, from the highest degree down. -/
noncomputable def descending (m : Nat) : List Nat → (ZMod m)[X]
  | [] => 0
  | coefficient :: rest => C (coefficient : ZMod m) * X ^ rest.length + descending m rest

@[simp] theorem descending_nil : descending m [] = 0 := rfl

theorem descending_cons (coefficient : Nat) (rest : List Nat) :
    descending m (coefficient :: rest)
      = C (coefficient : ZMod m) * X ^ rest.length + descending m rest := rfl

@[simp] theorem descending_zero_cons (rest : List Nat) :
    descending m (0 :: rest) = descending m rest := by
  simp [descending_cons]

theorem degree_descending_lt (coefficients : List Nat) :
    (descending m coefficients).degree < coefficients.length := by
  induction coefficients with
  | nil => simp
  | cons coefficient rest ih =>
      rw [descending_cons, List.length_cons]
      apply lt_of_le_of_lt (degree_add_le _ _)
      rw [max_lt_iff]
      constructor
      · apply lt_of_le_of_lt (degree_C_mul_X_pow_le _ _)
        exact_mod_cast Nat.lt_succ_self rest.length
      · apply lt_trans ih
        exact_mod_cast Nat.lt_succ_self rest.length

theorem coeff_descending_cons (coefficient : Nat) (rest : List Nat) :
    (descending m (coefficient :: rest)).coeff rest.length = coefficient := by
  rw [descending_cons, coeff_add, coeff_C_mul_X_pow, if_pos rfl,
    coeff_eq_zero_of_degree_lt (degree_descending_lt rest), add_zero]

theorem descending_injective {left right : List Nat} (lengths : left.length = right.length)
    (leftBelow : ∀ entry ∈ left, entry < m) (rightBelow : ∀ entry ∈ right, entry < m)
    (same : descending m left = descending m right) : left = right := by
  induction left generalizing right with
  | nil => exact (List.length_eq_zero_iff.mp lengths.symm).symm
  | cons entry left ih =>
      cases right with
      | nil => simp at lengths
      | cons other right =>
          obtain ⟨entryBelow, leftRest⟩ := List.forall_mem_cons.mp leftBelow
          obtain ⟨otherBelow, rightRest⟩ := List.forall_mem_cons.mp rightBelow
          have shorter : left.length = right.length := by simpa using lengths
          have leadings : (entry : ZMod m) = other := by
            rw [← coeff_descending_cons entry left, same, shorter, coeff_descending_cons]
          have entries : entry = other := by
            have values := congrArg ZMod.val leadings
            rwa [ZMod.val_cast_of_lt entryBelow, ZMod.val_cast_of_lt otherBelow] at values
          have rests : descending m left = descending m right := by
            rw [descending_cons, descending_cons, leadings, shorter] at same
            exact add_left_cancel same
          rw [entries, ih shorter leftRest rightRest rests]

theorem descending_replicate_zero (count : Nat) : descending m (List.replicate count 0) = 0 := by
  induction count with
  | zero => rfl
  | succ count ih => rw [List.replicate_succ, descending_zero_cons, ih]

theorem descending_map {transform : Nat → Nat} {factor : ZMod m} {coefficients : List Nat}
    (scaled : ∀ coefficient ∈ coefficients,
      (transform coefficient : ZMod m) = coefficient * factor) :
    descending m (coefficients.map transform) = descending m coefficients * C factor := by
  induction coefficients with
  | nil => simp
  | cons coefficient rest ih =>
      obtain ⟨head, tail⟩ := List.forall_mem_cons.mp scaled
      rw [List.map_cons, descending_cons, descending_cons, List.length_map, head, ih tail, C_mul]
      ring

/-! ## Reduced polynomials -/

noncomputable def toPolynomial (m : Nat) (f : Poly) : (ZMod m)[X] :=
  descending m f.coefficients

theorem toPolynomial_of_isZero {f : Poly} (vanishes : f.isZero = true) : toPolynomial m f = 0 := by
  rw [isZero, Bool.and_eq_true, beq_iff_eq, List.isEmpty_iff] at vanishes
  simp [toPolynomial, coefficients, vanishes]

theorem isZero_of_degree_pos {f : Poly} (nonconstant : 0 < f.degree) : f.isZero = false := by
  have filled : f.lower ≠ [] := List.length_pos_iff_ne_nil.mp nonconstant
  simp [isZero, filled]

structure Reduced (m : Nat) (f : Poly) : Prop where
  modulus_eq : f.modulus = m
  normalized : f.Normalized

/-- The given modulus, with coefficients that fit a word. -/
structure Stored (m : Nat) (f : Poly) : Prop where
  modulus_eq : f.modulus = m
  coefficients_lt : ∀ coefficient ∈ f.coefficients, coefficient < Word.long

namespace Reduced

variable {f g : Poly}

theorem below (reduced : f.Reduced m) : ∀ coefficient ∈ f.coefficients, coefficient < m := by
  rw [← reduced.modulus_eq]
  exact reduced.normalized.1

theorem modulus_pos (reduced : f.Reduced m) : 0 < m :=
  Nat.zero_lt_of_lt (reduced.below f.leading (List.mem_cons_self ..))

/-- Modulo one every polynomial is constant. -/
theorem one_lt_of_degree_pos (reduced : f.Reduced m) (nonconstant : 0 < f.degree) : 1 < m := by
  by_contra trivial
  have small : f.leading < m := reduced.below f.leading (List.mem_cons_self ..)
  have lower := reduced.normalized.2 (by omega)
  simp [degree, lower] at nonconstant

theorem stored (reduced : f.Reduced m) (fits : m < Word.long) : f.Stored m where
  modulus_eq := reduced.modulus_eq
  coefficients_lt := fun coefficient member => Nat.lt_trans (reduced.below coefficient member) fits

theorem leading_cast_eq_zero_iff (reduced : f.Reduced m) :
    (f.leading : ZMod m) = 0 ↔ f.leading = 0 := by
  have small : f.leading < m := reduced.below f.leading (List.mem_cons_self ..)
  rw [ZMod.natCast_eq_zero_iff]
  constructor
  · intro divides
    exact Nat.eq_zero_of_dvd_of_lt divides small
  · intro zero
    rw [zero]
    exact dvd_zero m

theorem eq_zero_iff (reduced : f.Reduced m) : toPolynomial m f = 0 ↔ f.isZero = true := by
  refine ⟨fun zero => ?_, toPolynomial_of_isZero⟩
  rw [isZero, Bool.and_eq_true, beq_iff_eq, List.isEmpty_iff]
  have leading : f.leading = 0 := by
    rw [← reduced.leading_cast_eq_zero_iff, ← coeff_descending_cons f.leading f.lower]
    exact congrArg (coeff · f.lower.length) zero
  exact ⟨leading, reduced.normalized.2 leading⟩

theorem ne_zero (reduced : f.Reduced m) (nonzero : f.isZero = false) : toPolynomial m f ≠ 0 := by
  rw [Ne, reduced.eq_zero_iff, nonzero]
  exact Bool.false_ne_true

theorem isZero_eq_false (reduced : f.Reduced m) (nonzero : toPolynomial m f ≠ 0) :
    f.isZero = false := by
  rw [Bool.eq_false_iff]
  exact fun zero => nonzero (reduced.eq_zero_iff.mpr zero)

theorem natDegree_eq (reduced : f.Reduced m) : (toPolynomial m f).natDegree = f.degree := by
  by_cases zero : f.leading = 0
  · have lower := reduced.normalized.2 zero
    simp [toPolynomial, coefficients, degree, zero, lower]
  · apply le_antisymm
    · have bound := degree_descending_lt (m := m) f.coefficients
      rw [coefficients, List.length_cons] at bound
      exact natDegree_le_iff_degree_le.mpr (Order.le_of_lt_succ bound)
    · apply le_natDegree_of_ne_zero
      rw [toPolynomial, coefficients, degree, coeff_descending_cons, Ne,
        reduced.leading_cast_eq_zero_iff]
      exact zero

theorem eq_of_toPolynomial_eq (left : f.Reduced m) (right : g.Reduced m)
    (same : toPolynomial m f = toPolynomial m g) : f = g := by
  have degrees : f.degree = g.degree := by rw [← left.natDegree_eq, same, right.natDegree_eq]
  have entries : f.coefficients = g.coefficients := by
    apply descending_injective _ left.below right.below same
    simpa [coefficients, degree] using degrees
  have moduli : f.modulus = g.modulus := by rw [left.modulus_eq, right.modulus_eq]
  obtain ⟨leading, lower⟩ := List.cons.inj entries
  cases f
  cases g
  simp_all

end Reduced

/-! ## Construction -/

theorem toPolynomial_trim (entries : List Nat) :
    toPolynomial m (trim m entries) = descending m entries := by
  induction entries with
  | nil => simp [trim, toPolynomial, coefficients]
  | cons entry rest ih =>
      unfold trim
      split
      · rename_i zero
        simp [ih, zero]
      · rfl

theorem trim_reduced (positive : 0 < m) {entries : List Nat}
    (below : ∀ entry ∈ entries, entry < m) : (trim m entries).Reduced m := by
  induction entries with
  | nil => exact ⟨rfl, by simpa [coefficients, trim] using positive, fun _ => rfl⟩
  | cons entry rest ih =>
      unfold trim
      split
      · exact ih (List.forall_mem_cons.mp below).2
      · rename_i nonzero
        exact ⟨rfl, below, fun zero => absurd zero nonzero⟩

theorem ofResidues_spec [NeZero m] (entries : List Nat) :
    ∃ f, ofResidues entries m = .ok f ∧ f.Reduced m ∧ toPolynomial m f = descending m entries := by
  have residues : entries.mapM (fun entry => Residue.reduce entry m)
      = .ok (entries.map (· % m)) :=
    Outcome.mapM_eq_map _ fun entry _ => Residue.reduce_eq (NeZero.pos m)
  have below : ∀ entry ∈ entries.map (· % m), entry < m := by
    intro entry member
    obtain ⟨old, _, rfl⟩ := List.mem_map.mp member
    exact Nat.mod_lt old (NeZero.pos m)
  refine ⟨trim m (entries.map (· % m)), ?_, trim_reduced (NeZero.pos m) below, ?_⟩
  · simp [ofResidues, residues]
  · have unchanged : descending m (entries.map (· % m)) = descending m entries * C 1 :=
      descending_map fun entry _ => by rw [ZMod.natCast_mod, mul_one]
    simp [toPolynomial_trim, unchanged]

theorem ofIntegers_spec [NeZero m] (fits : m < Word.long) (integers : List Int) :
    ∃ f, ofIntegers integers m = .ok f ∧ f.Reduced m := by
  have residues := @Outcome.mapM_eq_map _ _ _ (fun value : Int => (value : ZMod m).val) integers
    fun value _ => Residue.ofInt_val fits value
  obtain ⟨f, built, reduced, _⟩ :=
    @ofResidues_spec m _ (integers.map fun value : Int => (value : ZMod m).val)
  exact ⟨f, by rw [ofIntegers, residues, Outcome.ok_bind, built], reduced⟩

theorem one_spec [NeZero m] : ∃ f, one m = .ok f ∧ f.Reduced m ∧ toPolynomial m f = 1 := by
  obtain ⟨f, built, reduced, value⟩ := @ofResidues_spec m _ [1]
  exact ⟨f, built, reduced, by simp [value, descending_cons]⟩

theorem zero_reduced [NeZero m] : (zero m).Reduced m :=
  @trim_reduced m (NeZero.pos m) [] (by simp)

theorem Reduced.eq_zero_of_isZero {f : Poly} (reduced : f.Reduced m) (vanishes : f.isZero = true) :
    f = zero m := by
  rw [isZero, Bool.and_eq_true, beq_iff_eq, List.isEmpty_iff] at vanishes
  obtain ⟨leading, lower⟩ := vanishes
  rw [zero, ← reduced.modulus_eq, ← leading, ← lower]

theorem toPolynomial_zero : toPolynomial m (zero m) = 0 := by
  simp [toPolynomial, coefficients, zero]

/-! ## Products -/

/-- The shorter list starts at the same exponent as the longer one, so it stands for itself times a
power of `X`. -/
theorem addAligned_spec [NeZero m] (fits : m < Word.long) {lefts rights : List Nat}
    (shorter : lefts.length ≤ rights.length) (leftsBelow : ∀ entry ∈ lefts, entry < m)
    (rightsBelow : ∀ entry ∈ rights, entry < m) :
    ∃ sums, addAligned m lefts rights = .ok sums ∧ sums.length = rights.length ∧
      (∀ entry ∈ sums, entry < m) ∧
      descending m sums
        = descending m lefts * X ^ (rights.length - lefts.length) + descending m rights := by
  induction lefts generalizing rights with
  | nil => exact ⟨rights, by cases rights <;> rfl, rfl, rightsBelow, by simp⟩
  | cons left lefts ih =>
      cases rights with
      | nil => simp at shorter
      | cons right rights =>
          obtain ⟨leftBelow, leftRest⟩ := List.forall_mem_cons.mp leftsBelow
          obtain ⟨rightBelow, rightRest⟩ := List.forall_mem_cons.mp rightsBelow
          have lengths : lefts.length ≤ rights.length := by simpa using shorter
          obtain ⟨sums, added, length, below, value⟩ := ih lengths leftRest rightRest
          refine ⟨(left + right : ZMod m).val :: sums, ?_, by simp [length], ?_, ?_⟩
          · rw [addAligned, Residue.add_val (Nat.lt_trans leftBelow fits)
              (Nat.lt_trans rightBelow fits), Outcome.ok_bind, added, Outcome.ok_bind]
          · rw [List.forall_mem_cons]
            exact ⟨ZMod.val_lt _, below⟩
          · have shift : (X : (ZMod m)[X]) ^ rights.length
                = X ^ lefts.length * X ^ (rights.length - lefts.length) := by
              rw [← pow_add, Nat.add_sub_cancel' lengths]
            rw [descending_cons, descending_cons, descending_cons, value, length,
              ZMod.natCast_zmod_val, List.length_cons, List.length_cons, Nat.add_sub_add_right,
              C_add, shift]
            ring

theorem productTerms_spec [NeZero m] (fits : m < Word.long) {right left : List Nat}
    (nonempty : right ≠ []) (rightFits : ∀ entry ∈ right, entry < Word.long)
    (leftFits : ∀ entry ∈ left, entry < Word.long) :
    ∃ terms, productTerms m right left = .ok terms ∧
      terms.length = left.length + (right.length - 1) ∧ (∀ entry ∈ terms, entry < m) ∧
      descending m terms = descending m left * descending m right := by
  have filled : 0 < right.length := List.length_pos_iff_ne_nil.mpr nonempty
  induction left with
  | nil =>
      refine ⟨List.replicate (right.length - 1) 0, rfl, by simp, ?_, ?_⟩
      · intro entry member
        rw [List.eq_of_mem_replicate member]
        exact NeZero.pos m
      · simp [descending_replicate_zero]
  | cons coefficient rest ih =>
      obtain ⟨coefficientFits, restFit⟩ := List.forall_mem_cons.mp leftFits
      obtain ⟨terms, multiplied, length, below, value⟩ := ih restFit
      have row : right.mapM (fun factor => Residue.mul coefficient factor m)
          = .ok (right.map fun factor : Nat => (coefficient * factor : ZMod m).val) :=
        Outcome.mapM_eq_map _ fun factor member =>
          Residue.mul_val coefficientFits (rightFits factor member)
      have rowBelow : ∀ entry ∈ right.map fun factor : Nat => (coefficient * factor : ZMod m).val,
          entry < m := by
        intro entry member
        obtain ⟨old, _, rfl⟩ := List.mem_map.mp member
        exact ZMod.val_lt _
      have rowValue :
          descending m (right.map fun factor : Nat => (coefficient * factor : ZMod m).val)
            = descending m right * C (coefficient : ZMod m) :=
        descending_map fun factor _ => by rw [ZMod.natCast_zmod_val, mul_comm]
      -- A zero in front lets the product of the other coefficients start where this row starts.
      have shiftedBelow : ∀ entry ∈ 0 :: terms, entry < m := by
        rw [List.forall_mem_cons]
        exact ⟨NeZero.pos m, below⟩
      obtain ⟨sums, added, sumsLength, sumsBelow, sumsValue⟩ :=
        addAligned_spec fits (by simp [length]; omega) rowBelow shiftedBelow
      refine ⟨sums, ?_, ?_, sumsBelow, ?_⟩
      · simp [productTerms, row, multiplied, added]
      · rw [sumsLength, List.length_cons, List.length_cons, length]
        omega
      · have exponent : (0 :: terms).length
            - (right.map fun factor : Nat => (coefficient * factor : ZMod m).val).length
            = rest.length := by
          rw [List.length_cons, List.length_map, length]
          omega
        rw [sumsValue, exponent, rowValue, descending_zero_cons, value, descending_cons]
        ring

theorem multiply_spec [NeZero m] (fits : m < Word.long) {f g : Poly} (left : f.Stored m)
    (right : g.Stored m) :
    ∃ product, f.multiply g = .ok product ∧ product.Reduced m ∧
      toPolynomial m product = toPolynomial m f * toPolynomial m g := by
  have sameField : f.modulus = g.modulus := by rw [left.modulus_eq, right.modulus_eq]
  rw [multiply, if_pos sameField, left.modulus_eq]
  by_cases vanishes : (f.isZero || g.isZero) = true
  · rw [if_pos vanishes]
    refine ⟨zero m, rfl, zero_reduced, ?_⟩
    rw [toPolynomial_zero, eq_comm]
    rcases (Bool.or_eq_true ..).mp vanishes with zero | zero
    · simp [toPolynomial_of_isZero zero]
    · simp [toPolynomial_of_isZero zero]
  · rw [if_neg vanishes]
    obtain ⟨terms, multiplied, _, _, value⟩ := productTerms_spec fits
      (List.cons_ne_nil g.leading g.lower) right.coefficients_lt left.coefficients_lt
    obtain ⟨product, built, reduced, stands⟩ := @ofResidues_spec m _ terms
    refine ⟨product, ?_, reduced, stands.trans value⟩
    rw [coefficients, multiplied, Outcome.ok_bind, built]

theorem scale_spec [NeZero m] {f : Poly} (stored : f.Stored m) {factor : Nat}
    (factorFits : factor < Word.long) :
    ∃ scaled, f.scale factor = .ok scaled ∧ scaled.Reduced m ∧
      toPolynomial m scaled = toPolynomial m f * C (factor : ZMod m) := by
  have products : f.coefficients.mapM (fun coefficient => Residue.mul coefficient factor m)
      = .ok (f.coefficients.map fun coefficient : Nat => (coefficient * factor : ZMod m).val) :=
    Outcome.mapM_eq_map _ fun coefficient member =>
      Residue.mul_val (stored.coefficients_lt coefficient member) factorFits
  obtain ⟨scaled, built, kept, value⟩ := @ofResidues_spec m _
    (f.coefficients.map fun coefficient : Nat => (coefficient * factor : ZMod m).val)
  refine ⟨scaled, ?_, kept, value.trans ?_⟩
  · simp [scale, stored.modulus_eq, products, built]
  · exact descending_map fun coefficient _ => ZMod.natCast_zmod_val _

end ResidueAlgebra.Poly
