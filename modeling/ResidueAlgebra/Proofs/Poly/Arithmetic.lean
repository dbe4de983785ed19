import Mathlib.Algebra.Polynomial.Derivative
import Mathlib.Data.List.GetD
import ResidueAlgebra.Proofs.Poly.Ring

/-!
# Arithmetic stands for arithmetic in the polynomial ring

Sum, derivative and value of stored polynomials, to go with the product and the multiples of
`Proofs.Poly.Ring`. `arithmetic_faithful` collects all of them: polynomials with a positive modulus
that fits a word are a faithful copy of the polynomial ring over the residues, zero divisors
included, and every operation leaves its result reduced.
-/
set_option autoImplicit false
namespace ResidueAlgebra.Poly

open Polynomial

variable {m : Nat}

/-! ## Coefficients -/

theorem getD_reverse_cons (coefficient : Nat) (rest : List Nat) (exponent : Nat) :
    (coefficient :: rest).reverse.getD exponent 0
      = if exponent = rest.length then coefficient else rest.reverse.getD exponent 0 := by
  rw [List.reverse_cons]
  rcases Nat.lt_trichotomy exponent rest.length with lower | same | higher
  · have inside : exponent < rest.reverse.length := by simpa using lower
    rw [if_neg (Nat.ne_of_lt lower), List.getD_append _ _ _ _ inside]
  · subst same
    simp
  · have outside : rest.reverse.length ≤ exponent := by simpa using Nat.le_of_lt higher
    have beyond : (rest.reverse ++ [coefficient]).length ≤ exponent := by simpa using higher
    rw [if_neg (Nat.ne_of_gt higher), List.getD_eq_default _ _ outside,
      List.getD_eq_default _ _ beyond]

theorem coeff_descending (coefficients : List Nat) (exponent : Nat) :
    (descending m coefficients).coeff exponent
      = ((coefficients.reverse.getD exponent 0 : Nat) : ZMod m) := by
  induction coefficients with
  | nil => simp
  | cons coefficient rest ih =>
      rw [descending_cons, coeff_add, coeff_C_mul_X_pow, ih, getD_reverse_cons]
      split
      · rename_i same
        have outside : rest.reverse.length ≤ exponent := by simp [same]
        rw [List.getD_eq_default _ _ outside, Nat.cast_zero, add_zero]
      · rw [zero_add]

theorem coeff_toPolynomial (f : Poly) (exponent : Nat) :
    (toPolynomial m f).coeff exponent = (f.coefficient exponent : ZMod m) := by
  rw [toPolynomial, coeff_descending, List.getD_eq_getElem?_getD, coefficient]

theorem coeff_ofIntegers [NeZero m] (fits : m < Word.long) {integers : List Int} {f : Poly}
    (built : ofIntegers integers m = .ok f) (exponent : Nat) :
    (toPolynomial m f).coeff exponent = ((integers.reverse.getD exponent 0 : Int) : ZMod m) := by
  have residues := @Outcome.mapM_eq_map _ _ _ (fun value : Int => (value : ZMod m).val) integers
    fun value _ => Residue.ofInt_val fits value
  obtain ⟨same, constructed, _, value⟩ :=
    @ofResidues_spec m _ (integers.map fun value : Int => (value : ZMod m).val)
  rw [ofIntegers, residues, Outcome.ok_bind, constructed] at built
  cases built
  have zero : 0 = (fun value : Int => (value : ZMod m).val) 0 := by simp
  rw [value, coeff_descending, ← List.map_reverse, zero, List.getD_map, ZMod.natCast_zmod_val]

theorem term_spec [NeZero m] (coefficient exponent : Nat) :
    ∃ f, ofResidues (coefficient :: List.replicate exponent 0) m = .ok f ∧ f.Reduced m ∧
      toPolynomial m f = Polynomial.monomial exponent (coefficient : ZMod m) := by
  obtain ⟨f, built, reduced, value⟩ :=
    @ofResidues_spec m _ (coefficient :: List.replicate exponent 0)
  refine ⟨f, built, reduced, ?_⟩
  rw [value, descending_cons, descending_replicate_zero, List.length_replicate, add_zero,
    C_mul_X_pow_eq_monomial]

theorem monomial_spec [NeZero m] (coefficient : Nat) {exponent : Nat}
    (room : exponent + 1 < Word.long) :
    ∃ f, monomial coefficient exponent m = .ok f ∧ f.Reduced m ∧
      toPolynomial m f = Polynomial.monomial exponent (coefficient : ZMod m) := by
  rw [monomial, Word.fit_of_lt room, Outcome.ok_bind, List.replicate_succ, List.set_cons_zero]
  exact term_spec coefficient exponent

/-! ## Sums -/

theorem descending_padded (width : Nat) (coefficients : List Nat) :
    descending m (padded width coefficients) = descending m coefficients := by
  unfold padded
  induction width - coefficients.length with
  | zero => rfl
  | succ count ih => rw [List.replicate_succ, List.cons_append, descending_zero_cons, ih]

theorem length_padded {width : Nat} {coefficients : List Nat}
    (covered : coefficients.length ≤ width) : (padded width coefficients).length = width := by
  rw [padded, List.length_append, List.length_replicate]
  omega

theorem padded_lt {width bound : Nat} {coefficients : List Nat} (positive : 0 < bound)
    (below : ∀ coefficient ∈ coefficients, coefficient < bound) :
    ∀ coefficient ∈ padded width coefficients, coefficient < bound := by
  intro coefficient member
  rcases List.mem_append.mp member with filled | original
  · rw [List.eq_of_mem_replicate filled]
    exact positive
  · exact below coefficient original

theorem descending_zip_sum [NeZero m] {lefts rights : List Nat}
    (lengths : lefts.length = rights.length) :
    descending m ((lefts.zip rights).map fun pair => (pair.1 + pair.2 : ZMod m).val)
      = descending m lefts + descending m rights := by
  induction lefts generalizing rights with
  | nil =>
      rw [List.length_eq_zero_iff.mp lengths.symm]
      simp
  | cons left lefts ih =>
      cases rights with
      | nil => simp at lengths
      | cons right rights =>
          have shorter : lefts.length = rights.length := by simpa using lengths
          rw [List.zip_cons_cons, List.map_cons, descending_cons, descending_cons, descending_cons,
            ih shorter, List.length_map, List.length_zip, shorter, Nat.min_self,
            ZMod.natCast_zmod_val, C_add]
          ring

theorem add_spec [NeZero m] {f g : Poly} (left : f.Stored m) (right : g.Stored m) :
    ∃ sum, f.add g = .ok sum ∧ sum.Reduced m ∧
      toPolynomial m sum = toPolynomial m f + toPolynomial m g := by
  have sameField : f.modulus = g.modulus := by rw [left.modulus_eq, right.modulus_eq]
  have positive : 0 < Word.long := by decide
  rw [add, if_pos sameField, left.modulus_eq]
  generalize wide : max f.coefficients.length g.coefficients.length = width
  have lengths : (padded width f.coefficients).length = (padded width g.coefficients).length := by
    rw [length_padded (by omega), length_padded (by omega)]
  have steps : ∀ pair ∈ (padded width f.coefficients).zip (padded width g.coefficients),
      Residue.add pair.1 pair.2 m = .ok (pair.1 + pair.2 : ZMod m).val := by
    intro pair member
    obtain ⟨inLeft, inRight⟩ := List.of_mem_zip member
    exact Residue.add_val (padded_lt positive left.coefficients_lt _ inLeft)
      (padded_lt positive right.coefficients_lt _ inRight)
  obtain ⟨sum, built, reduced, value⟩ := @ofResidues_spec m _
    (((padded width f.coefficients).zip (padded width g.coefficients)).map
      fun pair => (pair.1 + pair.2 : ZMod m).val)
  refine ⟨sum, ?_, reduced, ?_⟩
  · exact (congrArg (· >>= (ofResidues · m)) (Outcome.mapM_eq_map _ steps)).trans built
  · rw [value, descending_zip_sum lengths, descending_padded, descending_padded]
    rfl

/-! ## Derivatives -/

theorem derivative_descending_cons (coefficient : Nat) (rest : List Nat) :
    Polynomial.derivative (descending m (coefficient :: rest))
      = C (rest.length * coefficient : ZMod m) * X ^ (rest.length - 1)
        + Polynomial.derivative (descending m rest) := by
  rw [descending_cons, derivative_add, derivative_C_mul_X_pow, mul_comm (coefficient : ZMod m)]

theorem derivativeTerms_spec [NeZero m] (fits : m < Word.long) {coefficients : List Nat}
    (small : ∀ coefficient ∈ coefficients, coefficient < Word.long) :
    ∃ terms, derivativeTerms m coefficients = .ok terms ∧
      descending m terms = Polynomial.derivative (descending m coefficients) := by
  induction coefficients with
  | nil => exact ⟨[], rfl, by simp⟩
  | cons coefficient rest ih =>
      obtain ⟨coefficientFits, restFit⟩ := List.forall_mem_cons.mp small
      cases rest with
      | nil => exact ⟨[], rfl, by simp [descending_cons]⟩
      | cons next others =>
          obtain ⟨terms, weighted, value⟩ := ih restFit
          have length := derivativeTerms_length weighted
          refine ⟨((next :: others).length * coefficient : ZMod m).val :: terms, ?_, ?_⟩
          · rw [derivativeTerms, Residue.reduce_val, Outcome.ok_bind,
              Residue.mul_val (Residue.val_lt_long fits _) coefficientFits, Outcome.ok_bind,
              weighted, Outcome.ok_bind, ZMod.natCast_zmod_val]
            simp
          · rw [derivative_descending_cons, descending_cons, value, length, ZMod.natCast_zmod_val]

theorem derivative_spec [NeZero m] (fits : m < Word.long) {f : Poly} (stored : f.Stored m) :
    ∃ slope, f.derivative = .ok slope ∧ slope.Reduced m ∧
      toPolynomial m slope = Polynomial.derivative (toPolynomial m f) := by
  unfold derivative
  rw [stored.modulus_eq]
  split
  · rename_i constant
    have lower : f.lower = [] := List.length_eq_zero_iff.mp constant
    refine ⟨zero m, rfl, zero_reduced, ?_⟩
    simp [toPolynomial, coefficients, zero, lower, descending_cons]
  · obtain ⟨terms, weighted, value⟩ := derivativeTerms_spec fits stored.coefficients_lt
    obtain ⟨slope, built, reduced, stands⟩ := @ofResidues_spec m _ terms
    refine ⟨slope, ?_, reduced, stands.trans value⟩
    rw [weighted, Outcome.ok_bind, built]

theorem derivative_sound [NeZero m] (fits : m < Word.long) {f slope : Poly} (stored : f.Stored m)
    (success : f.derivative = .ok slope) :
    slope.Reduced m ∧ toPolynomial m slope = Polynomial.derivative (toPolynomial m f) := by
  obtain ⟨same, derived, spec⟩ := derivative_spec fits stored
  rw [success] at derived
  cases derived
  exact spec

/-! ## Values -/

/-- Horner's rule: what was collected so far moves up by one power with each coefficient. -/
theorem horner_val [NeZero m] (fits : m < Word.long) {x : Nat} (xFits : x < Word.long)
    {coefficients : List Nat} (small : ∀ coefficient ∈ coefficients, coefficient < Word.long)
    (start : ZMod m) :
    coefficients.foldlM (fun value coefficient => do
        let shifted ← Residue.mul value x m
        Residue.add shifted coefficient m) start.val
      = .ok (start * x ^ coefficients.length
          + (descending m coefficients).eval (x : ZMod m)).val := by
  induction coefficients generalizing start with
  | nil =>
      simp only [descending_nil, eval_zero, List.length_nil, pow_zero, mul_one, add_zero]
      rfl
  | cons coefficient rest ih =>
      obtain ⟨coefficientFits, restFit⟩ := List.forall_mem_cons.mp small
      rw [List.foldlM_cons, Residue.mul_val (Residue.val_lt_long fits start) xFits, Outcome.ok_bind,
        Residue.add_val (Residue.val_lt_long fits _) coefficientFits, Outcome.ok_bind, ih restFit,
        ZMod.natCast_zmod_val, ZMod.natCast_zmod_val, descending_cons, List.length_cons]
      congr 2
      simp only [eval_add, eval_mul, eval_C, eval_pow, eval_X]
      ring

theorem evaluate_spec [NeZero m] (fits : m < Word.long) {f : Poly} (stored : f.Stored m) {x : Nat}
    (xFits : x < Word.long) :
    f.evaluate x = .ok ((toPolynomial m f).eval (x : ZMod m)).val := by
  have run := horner_val fits xFits stored.coefficients_lt 0
  rw [ZMod.val_zero, zero_mul, zero_add] at run
  rw [evaluate, stored.modulus_eq, run]
  rfl

/-! ## The polynomial ring -/

def Represents (m : Nat) (outcome : Outcome Poly) (value : (ZMod m)[X]) : Prop :=
  ∃ f, outcome = .ok f ∧ f.Reduced m ∧ toPolynomial m f = value

/-- Reduced polynomials are told apart by the polynomial they stand for, and every operation on
stored polynomials has a reduced result that stands for the operation of the polynomial ring. -/
theorem arithmetic_faithful {m : Nat} (positive : 0 < m) (fits : m < Word.long) :
    Set.InjOn (toPolynomial m) { f | f.Reduced m } ∧
    (∀ f exponent, (toPolynomial m f).coeff exponent = (f.coefficient exponent : ZMod m)) ∧
    (∀ integers : List Int, ∃ f, ofIntegers integers m = .ok f ∧ f.Reduced m ∧
      ∀ exponent, (toPolynomial m f).coeff exponent
        = ((integers.reverse.getD exponent 0 : Int) : ZMod m)) ∧
    (∀ entries : List Nat, ∃ f, ofResidues entries m = .ok f ∧ f.Reduced m ∧
      ∀ exponent, (toPolynomial m f).coeff exponent
        = ((entries.reverse.getD exponent 0 : Nat) : ZMod m)) ∧
    Represents m (.ok (zero m)) 0 ∧
    Represents m (one m) 1 ∧
    (∀ coefficient exponent, exponent + 1 < Word.long →
      Represents m (monomial coefficient exponent m)
        (Polynomial.monomial exponent (coefficient : ZMod m))) ∧
    (∀ f : Poly, f.Reduced m → f.Stored m) ∧
    (∀ f g : Poly, f.Stored m → g.Stored m →
      Represents m (f.add g) (toPolynomial m f + toPolynomial m g) ∧
      Represents m (f.multiply g) (toPolynomial m f * toPolynomial m g)) ∧
    (∀ f : Poly, f.Stored m →
      Represents m f.derivative (Polynomial.derivative (toPolynomial m f)) ∧
      (∀ factor < Word.long,
        Represents m (f.scale factor) (toPolynomial m f * C (factor : ZMod m))) ∧
      ∀ x < Word.long, f.evaluate x = .ok ((toPolynomial m f).eval (x : ZMod m)).val) := by
  have : NeZero m := ⟨Nat.ne_of_gt positive⟩
  refine ⟨?_, coeff_toPolynomial, ?_, ?_, ⟨zero m, rfl, zero_reduced, toPolynomial_zero⟩, one_spec,
    fun coefficient _ room => monomial_spec coefficient room,
    fun f reduced => reduced.stored fits, ?_, ?_⟩
  · intro f left g right same
    exact left.eq_of_toPolynomial_eq right same
  · intro integers
    obtain ⟨f, built, reduced⟩ := ofIntegers_spec fits integers
    exact ⟨f, built, reduced, coeff_ofIntegers fits built⟩
  · intro entries
    obtain ⟨f, built, reduced, value⟩ := @ofResidues_spec m _ entries
    exact ⟨f, built, reduced, fun exponent => by rw [value, coeff_descending]⟩
  · intro f g left right
    exact ⟨add_spec left right, multiply_spec fits left right⟩
  · intro f stored
    refine ⟨derivative_spec fits stored, ?_, ?_⟩
    · intro factor factorFits
      exact scale_spec stored factorFits
    · intro x xFits
      exact evaluate_spec fits stored xFits

/-- Modulo six the leading terms of `2x + 1` and `3x + 1` multiply to zero. -/
theorem arithmetic_faithful_vanishing_leading_terms :
    (⟨2, [1], 6⟩ : Poly).multiply ⟨3, [1], 6⟩ = .ok ⟨5, [1], 6⟩ ∧
    Represents 6 ((⟨2, [1], 6⟩ : Poly).multiply ⟨3, [1], 6⟩)
      (toPolynomial 6 ⟨2, [1], 6⟩ * toPolynomial 6 ⟨3, [1], 6⟩) := by
  refine ⟨by decide, ?_⟩
  obtain ⟨_, _, _, _, _, _, _, _, binary, _⟩ :=
    arithmetic_faithful (m := 6) (by decide) (by decide)
  exact (binary ⟨2, [1], 6⟩ ⟨3, [1], 6⟩ ⟨rfl, by decide⟩ ⟨rfl, by decide⟩).2

end ResidueAlgebra.Poly
