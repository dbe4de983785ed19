import Mathlib.FieldTheory.Finite.Basic
import ResidueAlgebra.Engine
import ResidueAlgebra.Poly.SquareFree
import ResidueAlgebra.Proofs.Computation
import ResidueAlgebra.Proofs.Poly.Arithmetic
import ResidueAlgebra.Proofs.Poly.Euclid
import ResidueAlgebra.Proofs.Prime.Primality

/-!
# The product of a square-free decomposition

Over a prime field a decomposition always ends, and `Decomposition` records how its factors came
about. They multiply to the polynomial they came from. The two rules of the recursion keep the
product for different reasons: the common divisor with the derivative divides exactly, and a
polynomial in `x ^ p` is the `p`-th power of its root by the Frobenius identity, so the factors of
the root are repeated `p` times.
-/
set_option autoImplicit false
namespace ResidueAlgebra.Poly

open Polynomial

variable {m : Nat}

/-! ## Roots in the characteristic -/

theorem stride_length {step skip : Nat} (small : skip < step) (entries : List Nat) :
    (stride step skip entries).length = (entries.length + (step - 1 - skip)) / step := by
  have positive : 0 < step := Nat.zero_lt_of_lt small
  induction entries generalizing skip with
  | nil =>
      have below : step - 1 - skip < step := by omega
      simp [stride, Nat.div_eq_of_lt below]
  | cons entry rest ih =>
      cases skip with
      | zero =>
          have whole : rest.length + 1 + (step - 1 - 0) = rest.length + step := by omega
          rw [stride, List.length_cons, ih (Nat.sub_lt positive Nat.one_pos), List.length_cons, whole,
            Nat.add_div_right _ positive, Nat.sub_self, Nat.add_zero rest.length]
      | succ skip =>
          have shifted : rest.length + 1 + (step - 1 - (skip + 1))
              = rest.length + (step - 1 - skip) := by omega
          rw [stride, ih (Nat.lt_of_succ_lt small), List.length_cons, shifted]

/-- Without an offending term, the polynomial is the one that striding finds, with `x` replaced by
`x ^ p`, as long as the stride starts at an exponent that `p` divides. -/
theorem descending_eq_expand {p skip : Nat} (small : skip < p) {entries : List Nat}
    (aligned : p ∣ entries.length + (p - 1 - skip)) (clean : offendingExponent p entries = none) :
    descending m entries = expand (ZMod m) p (descending m (stride p skip entries)) := by
  have positive : 0 < p := Nat.zero_lt_of_lt small
  induction entries generalizing skip with
  | nil => simp [stride]
  | cons entry rest ih =>
      unfold offendingExponent at clean
      split at clean
      · cases clean
      · rename_i harmless
        rw [List.length_cons] at aligned
        cases skip with
        | zero =>
            have whole : rest.length + 1 + (p - 1 - 0) = rest.length + p := by omega
            rw [whole, Nat.dvd_add_left (dvd_refl p)] at aligned
            have exponent : p * (stride p (p - 1) rest).length = rest.length := by
              rw [stride_length (Nat.sub_lt positive Nat.one_pos), Nat.sub_self, Nat.add_zero,
                Nat.mul_div_cancel' aligned]
            rw [stride, descending_cons, descending_cons, map_add, map_mul, expand_C, map_pow,
              expand_X, ← pow_mul, exponent,
              ih (Nat.sub_lt positive Nat.one_pos) (by simpa using aligned) clean]
        | succ skip =>
            have shifted : rest.length + 1 + (p - 1 - (skip + 1))
                = rest.length + (p - 1 - skip) := by omega
            rw [shifted] at aligned
            have remains : rest.length % p ≠ 0 := by
              intro divides
              have gap := (Nat.dvd_add_right (Nat.dvd_of_mod_eq_zero divides)).mp aligned
              have short := Nat.le_of_dvd (by omega) gap
              omega
            have zero : entry = 0 := by
              by_contra nonzero
              exact harmless ⟨nonzero, remains⟩
            rw [stride, zero, descending_zero_cons, ih (Nat.lt_of_succ_lt small) aligned clean]

theorem reduced_of_ofResidues [NeZero m] {entries : List Nat} {f : Poly}
    (success : ofResidues entries m = .ok f) :
    f.Reduced m ∧ toPolynomial m f = descending m entries := by
  obtain ⟨built, same, spec⟩ := @ofResidues_spec m _ entries
  rw [success] at same
  cases same
  exact spec

theorem Reduced.dvd_degree {f : Poly} (reduced : f.Reduced m)
    (clean : offendingExponent m f.coefficients = none) : m ∣ f.degree := by
  by_cases zero : f.leading = 0
  · rw [degree, reduced.normalized.2 zero]
    exact dvd_zero m
  · unfold coefficients offendingExponent at clean
    split at clean
    · cases clean
    · rename_i harmless
      exact Nat.dvd_of_mod_eq_zero (not_not.mp fun remains => harmless ⟨zero, remains⟩)

theorem pthRoot_expand [NeZero m] {f v : Poly} (reduced : f.Reduced m)
    (success : f.pthRoot = .ok v) :
    v.Reduced m ∧ toPolynomial m f = expand (ZMod m) m (toPolynomial m v) := by
  rw [pthRoot, reduced.modulus_eq, if_neg (NeZero.ne m)] at success
  split at success
  · cases success
  · rename_i clean
    obtain ⟨kept, value⟩ := reduced_of_ofResidues success
    have start : f.coefficients.length + (m - 1 - 0) = f.degree + m := by
      have positive := NeZero.pos m
      rw [coefficients, List.length_cons, degree]
      omega
    have aligned : m ∣ f.coefficients.length + (m - 1 - 0) := by
      rw [start]
      exact dvd_add (reduced.dvd_degree clean) (dvd_refl m)
    exact ⟨kept, by rw [toPolynomial, descending_eq_expand (NeZero.pos m) aligned clean, ← value]⟩

theorem degree_of_pthRoot [NeZero m] {f v : Poly} (reduced : f.Reduced m)
    (success : f.pthRoot = .ok v) : f.degree = m * v.degree := by
  obtain ⟨kept, expanded⟩ := pthRoot_expand reduced success
  rw [← reduced.natDegree_eq, expanded, natDegree_expand, kept.natDegree_eq, mul_comm]

theorem one_le_degree_of_pthRoot [NeZero m] {f v : Poly} (reduced : f.Reduced m)
    (success : f.pthRoot = .ok v) (nonconstant : 1 ≤ f.degree) : 1 ≤ v.degree := by
  rw [degree_of_pthRoot reduced success] at nonconstant
  exact Nat.pos_of_mul_pos_left nonconstant

theorem pthRoot_sound [Fact m.Prime] {f v : Poly} (reduced : f.Reduced m)
    (success : f.pthRoot = .ok v) :
    v.Reduced m ∧ toPolynomial m f = toPolynomial m v ^ m := by
  obtain ⟨kept, expanded⟩ := pthRoot_expand reduced success
  exact ⟨kept, by rw [expanded, ZMod.expand_card]⟩

/-- A derivative vanishes only if every term does, and a term vanishes only if its coefficient or
its exponent does. -/
theorem offendingExponent_eq_none [Fact m.Prime] {entries : List Nat}
    (below : ∀ entry ∈ entries, entry < m)
    (flat : Polynomial.derivative (descending m entries) = 0) :
    offendingExponent m entries = none := by
  induction entries with
  | nil => rfl
  | cons entry rest ih =>
      obtain ⟨small, restBelow⟩ := List.forall_mem_cons.mp below
      have term : (rest.length * entry : ZMod m) = 0 := by
        rcases shape : rest.length with _ | lower
        · simp
        · have top := congrArg (coeff · lower) flat
          simp only [coeff_derivative, coeff_zero] at top
          rw [← shape, coeff_descending_cons, mul_comm] at top
          rw [← top, Nat.cast_add, Nat.cast_one]
      rw [derivative_descending_cons, term, C_0, zero_mul, zero_add] at flat
      rw [offendingExponent, if_neg, ih restBelow flat]
      rintro ⟨nonzero, remains⟩
      rcases mul_eq_zero.mp term with exponent | coefficient
      · exact remains (Nat.mod_eq_zero_of_dvd ((ZMod.natCast_eq_zero_iff _ _).mp exponent))
      · exact nonzero (Nat.eq_zero_of_dvd_of_lt ((ZMod.natCast_eq_zero_iff _ _).mp coefficient)
          small)

theorem pthRoot_total [Fact m.Prime] {f : Poly} (reduced : f.Reduced m)
    (flat : Polynomial.derivative (toPolynomial m f) = 0) : ∃ v, f.pthRoot = .ok v := by
  obtain ⟨v, built, _⟩ := @ofResidues_spec m _ (stride m 0 f.coefficients)
  refine ⟨v, ?_⟩
  rw [pthRoot, reduced.modulus_eq, if_neg (NeZero.ne m),
    offendingExponent_eq_none reduced.below flat]
  exact built

/-! ## Decomposition -/

structure Factors (m : Nat) (f : Poly) (factors : List Poly) : Prop where
  reduced : ∀ factor ∈ factors, factor.Reduced m
  product : (factors.map (toPolynomial m)).prod = toPolynomial m f

theorem Factors.single {f : Poly} (reduced : f.Reduced m) : Factors m f [f] where
  reduced := by simpa using reduced
  product := by simp

theorem Factors.repeated {f v : Poly} {factors : List Poly} (split : Factors m v factors)
    {count : Nat} (power : toPolynomial m f = toPolynomial m v ^ count) :
    Factors m f (Poly.repeated count factors) where
  reduced := by
    intro factor member
    rw [Poly.repeated, List.mem_flatten] at member
    obtain ⟨copy, isCopy, inside⟩ := member
    rw [List.eq_of_mem_replicate isCopy] at inside
    exact split.reduced factor inside
  product := by
    simp [Poly.repeated, List.prod_flatten, split.product, power]

theorem Factors.append {f d h : Poly} {factors : List Poly} (split : Factors m d factors)
    (reduced : h.Reduced m) (divided : toPolynomial m f = toPolynomial m d * toPolynomial m h) :
    Factors m f (factors ++ [h]) where
  reduced := by
    intro factor member
    rcases List.mem_append.mp member with old | new
    · exact split.reduced factor old
    · rw [List.mem_singleton.mp new]
      exact reduced
  product := by
    rw [List.map_append, List.prod_append, split.product, divided]
    simp

/-- How the factors of a polynomial come about, by the four rules of the recursion. -/
inductive Decomposition : Poly → List Poly → Prop where
  | small {f : Poly} (low : f.degree < 2) : Decomposition f [f]
  | power {f slope v : Poly} {factors : List Poly} (high : 2 ≤ f.degree)
      (derived : f.derivative = .ok slope) (flat : slope.isZero = true)
      (rooted : f.pthRoot = .ok v) (inner : Decomposition v factors) :
      Decomposition f (repeated f.modulus factors)
  | coprime {f slope d : Poly} (high : 2 ≤ f.degree) (derived : f.derivative = .ok slope)
      (steep : slope.isZero = false) (common : gcd f slope = .ok d) (unit : d.isOne = true) :
      Decomposition f [f]
  | split {f slope d h : Poly} {factors : List Poly} (high : 2 ≤ f.degree)
      (derived : f.derivative = .ok slope) (steep : slope.isZero = false)
      (common : gcd f slope = .ok d) (proper : d.isOne = false) (divided : f.div d = .ok h)
      (inner : Decomposition d factors) : Decomposition f (factors ++ [h])

theorem Decomposition.factors [Fact m.Prime] (fits : m < Word.long) {f : Poly}
    {factors : List Poly} (decomposition : Decomposition f factors) (reduced : f.Reduced m) :
    Factors m f factors := by
  induction decomposition with
  | small low => exact Factors.single reduced
  | power high derived flat rooted inner ih =>
      obtain ⟨kept, power⟩ := pthRoot_sound reduced rooted
      rw [reduced.modulus_eq]
      exact (ih kept).repeated power
  | coprime high derived steep common unit => exact Factors.single reduced
  | split high derived steep common proper divided inner ih =>
      have slopeReduced := (derivative_sound fits (reduced.stored fits) derived).1
      have kept := (gcd_sound fits reduced slopeReduced common).1
      have divides := gcd_dvd_left fits reduced slopeReduced common
      obtain ⟨cofactor, identity⟩ := div_exact fits reduced kept divides divided
      exact (ih kept).append cofactor identity

theorem gcd_derivative_proper [NeZero m] (fits : m < Word.long) {f slope d : Poly}
    (reduced : f.Reduced m) (positive : 0 < f.degree) (derived : f.derivative = .ok slope)
    (common : gcd f slope = .ok d) (proper : d.isOne = false) : d.Reduced m ∧ 1 ≤ d.degree := by
  have slopeReduced := (derivative_sound fits (reduced.stored fits) derived).1
  have nonzero := gcd_isZero_of_left fits reduced slopeReduced common positive
  exact ⟨(gcd_sound fits reduced slopeReduced common).1, gcd_degree_pos
    (reduced.one_lt_of_degree_pos positive) fits reduced slopeReduced common nonzero proper⟩

theorem decomposeAt_spec [Fact m.Prime] (fits : m < Word.long) {token : Token}
    (live : token.requested = false) {f : Poly} (reduced : f.Reduced m) (level : Nat) :
    Traced.Ends (decomposeAt token f level) fun outcome =>
      ∃ factors, outcome = .ok factors ∧ Decomposition f factors := by
  induction bound : f.degree using Nat.strong_induction_on generalizing f level with
  | _ degree ih =>
      unfold decomposeAt activation
      refine .after_ok (Token.check_live live) (.after_blank (.after_note ?_))
      split
      · rename_i low
        exact .after_note (.after_note (Traced.ends_pure ⟨[f], rfl, .small low⟩))
      · rename_i large
        have high : 2 ≤ f.degree := Nat.le_of_not_lt large
        obtain ⟨slope, derived, slopeReduced, slopeValue⟩ :=
          derivative_spec fits (reduced.stored fits)
        refine .after_note (.after_ok (Outcome.attach_eq derived) (.after_note ?_))
        split
        · rename_i flat
          have vanishes : Polynomial.derivative (toPolynomial m f) = 0 := by
            rw [← slopeValue, toPolynomial_of_isZero flat]
          obtain ⟨v, rooted⟩ := pthRoot_total reduced vanishes
          have smaller := degree_pthRoot_lt rooted high
          refine .after_ok (Outcome.attach_eq rooted) (.after_note (.after_note ?_))
          refine .bind_ok (ih v.degree (by omega) (pthRoot_sound reduced rooted).1 (level + 1) rfl)
            fun factors inner => ?_
          exact Traced.ends_pure ⟨_, rfl, .power high derived flat rooted inner⟩
        · rename_i nonzero
          have steep : slope.isZero = false := Bool.eq_false_iff.mpr nonzero
          obtain ⟨d, common⟩ := gcd_total fits reduced slopeReduced
          refine .after_note (.after_ok (Outcome.attach_eq common) (.after_note ?_))
          split
          · rename_i unit
            exact .after_note (Traced.ends_pure ⟨[f], rfl,
              .coprime high derived steep common unit⟩)
          · rename_i different
            have proper : d.isOne = false := Bool.eq_false_iff.mpr different
            have kept := (gcd_sound fits reduced slopeReduced common).1
            have divisor := gcd_isZero_of_left fits reduced slopeReduced common (by omega)
            obtain ⟨h, divided⟩ := div_total fits reduced kept divisor
            have slopeSmaller := degree_derivative_lt derived (by omega)
            have commonSmaller := degree_gcd_le steep common
            refine .after_note (.after_ok divided (.after_note ?_))
            refine .bind_ok (ih d.degree (by omega) kept (level + 1) rfl) fun factors inner => ?_
            exact Traced.ends_pure ⟨_, rfl, .split high derived steep common proper divided inner⟩

theorem decomposeAt_cancelled {token : Token} (stopped : token.requested = true) (f : Poly)
    (level : Nat) :
    Traced.Ends (decomposeAt token f level) fun outcome => outcome = .error (.fault .cancelled) := by
  unfold decomposeAt activation
  exact .after_error (Token.check_cancelled stopped) rfl

theorem decomposeAt_ensures (token : Token) (f : Poly) (level : Nat) :
    Traced.Ensures (decomposeAt token f level) (Decomposition f) := by
  -- On the degree, as the calls go; each branch of the body is one of the rules.
  induction bound : f.degree using Nat.strong_induction_on generalizing f level with
  | _ degree ih =>
      unfold decomposeAt activation
      refine .after fun _ => .after fun _ => .after fun _ => ?_
      split
      · rename_i low
        exact .after fun _ => .after fun _ => Traced.ensures_pure (.small low)
      · rename_i large
        have high : 2 ≤ f.degree := Nat.le_of_not_lt large
        refine .after fun _ => .after_step ?_
        rintro ⟨slope, derived⟩ _
        refine .after fun _ => ?_
        split
        · rename_i flat
          refine .after_step ?_
          rintro ⟨v, rooted⟩ _
          have smaller := degree_pthRoot_lt rooted high
          refine .after fun _ => .after fun _ => ?_
          refine .bind (ih v.degree (by omega) v (level + 1) rfl) fun factors inner => ?_
          exact Traced.ensures_pure (.power high derived flat rooted inner)
        · rename_i nonzero
          have steep : slope.isZero = false := Bool.eq_false_iff.mpr nonzero
          refine .after fun _ => .after_step ?_
          rintro ⟨d, common⟩ _
          refine .after fun _ => ?_
          split
          · rename_i unit
            exact .after fun _ => Traced.ensures_pure (.coprime high derived steep common unit)
          · rename_i different
            have proper : d.isOne = false := Bool.eq_false_iff.mpr different
            have slopeSmaller := degree_derivative_lt derived (by omega)
            have commonSmaller := degree_gcd_le steep common
            refine .after fun _ => .after_step fun h divided => .after fun _ => ?_
            refine .bind (ih d.degree (by omega) d (level + 1) rfl) fun factors inner => ?_
            exact Traced.ensures_pure (.split high derived steep common proper divided inner)

theorem decomposeAt_sound [Fact m.Prime] (fits : m < Word.long) (token : Token) {f : Poly}
    (reduced : f.Reduced m) (level : Nat) :
    Traced.Ensures (decomposeAt token f level) (Factors m f) := fun trace factors success =>
  (decomposeAt_ensures token f level trace factors success).factors fits reduced

/-! ## The number of factors -/

/-- There are no more factors than the degree, however often the power rule repeats them. -/
theorem Decomposition.length_le [NeZero m] (fits : m < Word.long) {f : Poly}
    {factors : List Poly} (decomposition : Decomposition f factors) (reduced : f.Reduced m) :
    factors.length ≤ max 1 f.degree := by
  induction decomposition with
  | small low => simp
  | @power f slope v factors high derived flat rooted inner ih =>
      have nonconstant := one_le_degree_of_pthRoot reduced rooted (by omega)
      have bound : factors.length ≤ v.degree := by
        simpa [nonconstant] using ih (pthRoot_expand reduced rooted).1
      have count : (repeated f.modulus factors).length = m * factors.length := by
        simp [Poly.repeated, reduced.modulus_eq]
      rw [count, degree_of_pthRoot reduced rooted]
      exact le_max_of_le_right (Nat.mul_le_mul_left m bound)
  | coprime high derived steep common unit => simp
  | @split f slope d h factors high derived steep common proper divided inner ih =>
      obtain ⟨kept, nonconstant⟩ :=
        gcd_derivative_proper fits reduced (by omega) derived common proper
      have slopeSmaller := degree_derivative_lt derived (by omega)
      have commonSmaller := degree_gcd_le steep common
      have bound := ih kept
      rw [List.length_append, List.length_singleton]
      omega

/-- What the power rule repeats has room in a list as long as the polynomial, so the product of the
two counts stays inside the word that holds the length of that list. -/
theorem repeated_capacity [NeZero m] (fits : m < Word.long) {f v : Poly} (reduced : f.Reduced m)
    (nonconstant : 1 ≤ f.degree) (rooted : f.pthRoot = .ok v) (token : Token) (level : Nat) :
    Traced.Ensures (decomposeAt token v level) fun factors =>
      factors.length * f.modulus ≤ f.degree := by
  intro trace factors success
  have kept := (pthRoot_expand reduced rooted).1
  have inner := one_le_degree_of_pthRoot reduced rooted nonconstant
  have bound := (decomposeAt_ensures token v level trace factors success).length_le fits kept
  rw [max_eq_right inner] at bound
  rw [reduced.modulus_eq, degree_of_pthRoot reduced rooted, mul_comm]
  exact Nat.mul_le_mul_left m bound

/-! ## The product of the factors -/

theorem foldlM_multiply_spec [NeZero m] (fits : m < Word.long) {factors : List Poly}
    (reduced : ∀ factor ∈ factors, factor.Reduced m) {start : Poly} (started : start.Reduced m) :
    ∃ product, factors.foldlM multiply start = .ok product ∧ product.Reduced m ∧
      toPolynomial m product = toPolynomial m start * (factors.map (toPolynomial m)).prod := by
  induction factors generalizing start with
  | nil => exact ⟨start, rfl, started, by simp⟩
  | cons factor rest ih =>
      obtain ⟨head, tail⟩ := List.forall_mem_cons.mp reduced
      obtain ⟨next, multiplied, kept, value⟩ :=
        multiply_spec fits (started.stored fits) (head.stored fits)
      obtain ⟨product, folded, final, stands⟩ := ih tail kept
      refine ⟨product, ?_, final, ?_⟩
      · simp [multiplied, folded]
      · simp [stands, value, mul_assoc]

theorem Factors.foldlM_eq [NeZero m] (fits : m < Word.long) {f : Poly} {factors : List Poly}
    (split : Factors m f factors) (reduced : f.Reduced m) :
    (do let unit ← one m; factors.foldlM multiply unit) = (.ok f : Outcome Poly) := by
  obtain ⟨unit, built, unitReduced, unitValue⟩ := @one_spec m _
  obtain ⟨product, folded, kept, value⟩ := foldlM_multiply_spec fits split.reduced unitReduced
  have same : toPolynomial m product = toPolynomial m f := by
    simp [value, unitValue, split.product]
  simp [built, folded, kept.eq_of_toPolynomial_eq reduced same]

end ResidueAlgebra.Poly

namespace ResidueAlgebra.Engine

theorem requirePrime_sound {p : Nat} (success : requirePrime p = .ok ()) : p.Prime := by
  unfold requirePrime at success
  obtain ⟨answer, tested, success⟩ := Outcome.bind_eq_ok success
  cases answer with
  | true => exact (TrialDivision.isPrime_sound tested).mp rfl
  | false => cases success

/-- The factors of a square-free decomposition multiply, with their repetitions, to the polynomial
with the given coefficients. -/
theorem squareFree_product {coefficients : List Int} {p : Nat} {token : Token}
    {factors : List Poly} (fits : p < Word.long)
    (success : (squareFree coefficients p token).result = .ok factors) :
    ∃ f, Poly.ofIntegers coefficients p = .ok f ∧
      (do let unit ← Poly.one p; factors.foldlM Poly.multiply unit) = (.ok f : Outcome Poly) := by
  have sound : Traced.Ensures (squareFreeSteps coefficients p token) fun factors =>
      ∃ f, Poly.ofIntegers coefficients p = .ok f ∧
        (do let unit ← Poly.one p; factors.foldlM Poly.multiply unit)
          = (.ok f : Outcome Poly) := by
    unfold squareFreeSteps
    refine .after_step fun _ accepted => .after_step fun f built => ?_
    have : Fact p.Prime := ⟨requirePrime_sound accepted⟩
    obtain ⟨same, constructed, reduced⟩ := Poly.ofIntegers_spec fits coefficients
    rw [built] at constructed
    cases constructed
    refine .after fun _ => .bind (Poly.decomposeAt_sound fits token reduced 0) ?_
    intro factors split
    refine .after fun _ => .after fun _ => Traced.ensures_pure ?_
    exact ⟨f, built, split.foldlM_eq fits reduced⟩
  exact sound Trace.empty factors success

/-- Both rules take part: the polynomial is `-x ^ 2 * (x + 1) ^ 3` over three elements. -/
theorem squareFree_product_both_rules :
    ∃ f, Poly.ofIntegers [-1, 0, 0, -1, 0, 0] 3 = .ok f ∧
      (do let unit ← Poly.one 3
          [⟨1, [1], 3⟩, ⟨1, [1], 3⟩, ⟨1, [1], 3⟩, ⟨1, [0], 3⟩, ⟨2, [0], 3⟩].foldlM Poly.multiply
            unit) = (.ok f : Outcome Poly) := by
  have success : (squareFree [-1, 0, 0, -1, 0, 0] 3 .fresh).result
      = .ok [⟨1, [1], 3⟩, ⟨1, [1], 3⟩, ⟨1, [1], 3⟩, ⟨1, [0], 3⟩, ⟨2, [0], 3⟩] := by
    decide +kernel
  exact squareFree_product (by decide) success

end ResidueAlgebra.Engine
