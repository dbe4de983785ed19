import Mathlib.Data.List.GetD
import ResidueAlgebra.Poly.Frobenius
import ResidueAlgebra.Proofs.Computation
import ResidueAlgebra.Proofs.Linear.FullRank
import ResidueAlgebra.Proofs.Poly.Arithmetic
import ResidueAlgebra.Proofs.Poly.Power

/-!
# Rows of the Frobenius matrix

Every row of the matrix is the one before times `x ^ m`, reduced, so each row stands for a power of
`x ^ m` modulo the polynomial. `FrobeniusMatrix.ofPoly_spec` is the whole run for a divisor over any
modulus: it always has a result, whose rank is that of the rows less the identity.
`FrobeniusMatrix.rows_direct` says that row `j` is the remainder of `x ^ (m * j)`, divided directly.
-/
set_option autoImplicit false
namespace ResidueAlgebra

variable {m : Nat}

namespace Poly

open Polynomial

/-! ## Coefficients from the lowest degree up -/

theorem getD_ascending (f : Poly) (width exponent : Nat) :
    (f.ascending width).getD exponent 0 = f.coefficient exponent := by
  rw [ascending, coefficient, ← List.getD_eq_getElem?_getD]
  rcases Nat.lt_or_ge exponent f.coefficients.reverse.length with inside | outside
  · rw [List.getD_append _ _ _ _ inside]
  · rw [List.getD_append_right _ _ _ _ outside, List.getD_eq_default _ _ outside]
    simp

theorem length_ascending {f : Poly} {width : Nat} (covered : f.degree < width) :
    (f.ascending width).length = width := by
  rw [degree] at covered
  rw [ascending, List.length_append, List.length_reverse, List.length_replicate, coefficients,
    List.length_cons]
  omega

theorem Remainder.degree_lt_degree {r d : Poly} {value : AdjoinRoot (toPolynomial m d)}
    (remainder : r.Remainder m d value) (reduced : d.Reduced m) (nonconstant : 0 < d.degree) :
    r.degree < d.degree := by
  rw [← remainder.reduced.natDegree_eq]
  by_cases zero : toPolynomial m r = 0
  · rwa [zero, natDegree_zero]
  · rw [← reduced.natDegree_eq]
    exact natDegree_lt_natDegree zero remainder.degree_lt

/-- The row lists the coefficients of the remainder that stands for the given element. -/
def Coordinates (m : Nat) (f : Poly) (value : AdjoinRoot (toPolynomial m f)) (row : List Nat) :
    Prop :=
  ∃ r : Poly, r.Remainder m f value ∧ row = r.ascending f.degree

theorem Coordinates.length_eq {f : Poly} {value : AdjoinRoot (toPolynomial m f)} {row : List Nat}
    (coordinates : Coordinates m f value row) (reduced : f.Reduced m) (nonconstant : 0 < f.degree) :
    row.length = f.degree := by
  obtain ⟨r, remainder, rfl⟩ := coordinates
  exact length_ascending (remainder.degree_lt_degree reduced nonconstant)

theorem ascending_lt {f : Poly} (reduced : f.Reduced m) (width : Nat) :
    ∀ entry ∈ f.ascending width, entry < m := by
  intro entry member
  rcases List.mem_append.mp member with stored | filled
  · exact reduced.below entry (List.mem_reverse.mp stored)
  · rw [List.eq_of_mem_replicate filled]
    exact reduced.modulus_pos

/-- The row lists, from the lowest degree up, the coefficients of what long division by `f` leaves of
`x ^ exponent`. -/
structure DirectRow (m : Nat) (f : Poly) (exponent : Nat) (row : List Nat) : Prop where
  length_eq : row.length = f.degree
  below : ∀ entry ∈ row, entry < m
  direct : ∃ power quotient remainder,
    ofResidues (1 :: List.replicate exponent 0) m = .ok power ∧ toPolynomial m power = X ^ exponent ∧
      power.rem f = .ok remainder ∧ IsDivision m power f quotient remainder ∧
      ∀ i < f.degree, row[i]? = some (remainder.coefficient i)

theorem Coordinates.directRow [NeZero m] (fits : m < Word.long) {f : Poly} (divisor : f.Divisor m)
    (nonconstant : 0 < f.degree) {exponent : Nat} {row : List Nat}
    (coordinates : Coordinates m f (AdjoinRoot.root _ ^ exponent) row) :
    DirectRow m f exponent row := by
  have length := coordinates.length_eq divisor.reduced nonconstant
  obtain ⟨r, stands, rfl⟩ := coordinates
  obtain ⟨power, built, reduced, value⟩ := term_spec (m := m) 1 exponent
  rw [Nat.cast_one, Polynomial.monomial_one_right_eq_X_pow] at value
  rw [← AdjoinRoot.mk_X, ← map_pow, ← value] at stands
  obtain ⟨taken, quotient, division⟩ := divisor.rem_eq_of_remainder fits reduced stands
  refine ⟨length, ascending_lt stands.reduced _, power, quotient, r, built, value, taken, division,
    ?_⟩
  intro i inside
  have held : i < (r.ascending f.degree).length := by omega
  rw [List.getElem?_eq_getElem held, ← getD_ascending r f.degree, List.getD_eq_getElem _ _ held]

end Poly

namespace FrobeniusMatrix

open ResidueAlgebra.Poly

/-! ## The rows less the identity -/

def lessIdentity (m : Nat) (rows : List (List Nat)) : List (List Nat) :=
  rows.zipIdx.map fun (row, i) =>
    row.zipIdx.map fun (entry, j) => if i = j then (entry - (1 : Nat) : ZMod m).val else entry

theorem minusIdentity_eq [NeZero m] (rows : List (List Nat)) :
    minusIdentity rows m = .ok (lessIdentity m rows) := by
  refine Outcome.mapM_eq_map _ fun ⟨row, i⟩ _ => Outcome.mapM_eq_map _ fun ⟨entry, j⟩ _ => ?_
  dsimp only
  split
  · exact Residue.sub_val entry 1
  · rfl

theorem length_lessIdentity (rows : List (List Nat)) :
    (lessIdentity m rows).length = rows.length := by
  simp [lessIdentity]

theorem lessIdentity_rectangular {rows : List (List Nat)} {columns : Nat}
    (rectangular : ∀ row ∈ rows, row.length = columns) :
    ∀ row ∈ lessIdentity m rows, row.length = columns := by
  intro row member
  obtain ⟨⟨old, index⟩, present, rfl⟩ := List.mem_map.mp member
  rw [List.length_map, List.length_zipIdx]
  exact rectangular old (List.fst_mem_of_mem_zipIdx present)

theorem getD_lessIdentity [NeZero m] {rows : List (List Nat)} {i j : Nat}
    (kept : i < (lessIdentity m rows).length) (row : i < rows.length)
    (column : j < rows[i].length) :
    (((lessIdentity m rows)[i].getD j 0 : Nat) : ZMod m)
      = (rows[i].getD j 0 : Nat) - if i = j then 1 else 0 := by
  rw [List.getD_eq_getElem _ _ column,
    List.getD_eq_getElem _ _ (by simpa [lessIdentity] using column)]
  simp only [lessIdentity, List.getElem_map, List.getElem_zipIdx, Nat.zero_add]
  split
  · simp
  · simp

/-! ## One power after the other -/

def PowerRows (m : Nat) (f : Poly) (image : AdjoinRoot (toPolynomial m f)) (exponents : List Nat)
    (rows : List (List Nat)) : Prop :=
  List.Forall₂ (fun exponent row => Coordinates m f (image ^ exponent) row) exponents rows

theorem gatherRows_spec [NeZero m] (fits : m < Word.long) {token : Token}
    (live : token.requested = false) {f frobenius : Poly} (divisor : f.Divisor m)
    {image : AdjoinRoot (toPolynomial m f)} (stands : frobenius.Remainder m f image)
    {power : Poly} {index : Nat} (before : power.Remainder m f (image ^ (index - 1)))
    (remaining : Nat) (bounded : index + remaining ≤ Word.long) :
    Traced.Ends (gatherRows token f frobenius power index remaining) fun outcome =>
      ∃ rows, outcome = .ok rows ∧ PowerRows m f image (List.range' index remaining) rows := by
  induction remaining generalizing power index with
  | zero => exact Traced.ends_pure ⟨[], rfl, .nil⟩
  | succ remaining ih =>
      unfold gatherRows
      refine .after_ok (Token.check_live live) ?_
      extract_lets follow
      -- The row is the same computation whether its power was kept or multiplied.
      have continued : ∀ current : Poly, current.Remainder m f (image ^ index) →
          Traced.Ends (follow current) fun outcome => ∃ rows, outcome = .ok rows ∧
            PowerRows m f image (List.range' index (remaining + 1)) rows := by
        intro current reached
        have narrow : f.modulus * index < Word.wide := by
          rw [divisor.reduced.modulus_eq]
          exact Word.mul_lt_wide fits (by omega)
        refine .after_ok (Word.fit_of_lt narrow) (.after_note ?_)
        refine .bind_ok (ih reached (by omega)) fun rest later => ?_
        exact Traced.ends_pure ⟨_, rfl, .cons ⟨current, reached, rfl⟩ later⟩
      split
      · rename_i first
        subst first
        exact .after (Traced.yields_pure power) (continued power before)
      · rename_i later
        obtain ⟨product, current, multiplied, divided, reached⟩ :=
          divisor.mulRem_spec fits before stands
        rw [pow_sub_one_mul later] at reached
        exact .after_ok multiplied (.after_ok divided (continued current reached))

/-! ## The whole matrix -/

/-- The matrix of a polynomial: a row for each power of `x ^ m` up to the degree, the rank of the
rows less the identity, and what the rank is short of the degree. -/
structure Describes (m : Nat) (f : Poly) (matrix : FrobeniusMatrix) : Prop where
  powers : PowerRows m f (AdjoinRoot.root _ ^ m) (List.range f.degree) matrix.rows
  rank_eq : matrixRank (lessIdentity m matrix.rows) m = .ok matrix.rank
  total : matrix.rank + matrix.kernelDimension = f.degree

namespace PowerRows

variable {f : Poly} {image : AdjoinRoot (toPolynomial m f)} {rows : List (List Nat)}

theorem length_eq (powers : PowerRows m f image (List.range f.degree) rows) :
    rows.length = f.degree := by
  rw [← List.Forall₂.length_eq powers, List.length_range]

theorem coordinates (powers : PowerRows m f image (List.range f.degree) rows) {i : Nat}
    (inside : i < rows.length) : Coordinates m f (image ^ i) rows[i] := by
  have found := List.Forall₂.get powers (by simpa [powers.length_eq] using inside) inside
  simpa using found

theorem rectangular (powers : PowerRows m f image (List.range f.degree) rows)
    (reduced : f.Reduced m) (nonconstant : 0 < f.degree) : ∀ row ∈ rows, row.length = f.degree := by
  intro row member
  obtain ⟨i, inside, rfl⟩ := List.getElem_of_mem member
  exact (powers.coordinates inside).length_eq reduced nonconstant

theorem lessIdentity_ne_nil (powers : PowerRows m f image (List.range f.degree) rows)
    (nonconstant : 0 < f.degree) : lessIdentity m rows ≠ [] := by
  rw [← List.length_pos_iff_ne_nil, length_lessIdentity, powers.length_eq]
  exact nonconstant

end PowerRows

theorem frobenius_spec [NeZero m] (fits : m < Word.long) {f : Poly} (divisor : f.Divisor m) :
    ∃ x frobenius, Poly.monomial 1 1 m = .ok x ∧ x.powMod m f = .ok frobenius ∧
      frobenius.Remainder m f (AdjoinRoot.root _ ^ m) := by
  obtain ⟨x, built, reduced, value⟩ := @monomial_spec m _ 1 1 (by decide)
  obtain ⟨frobenius, raised, remainder⟩ := divisor.powMod_spec fits reduced m
  rw [value, Nat.cast_one, Polynomial.monomial_one_one_eq_X, AdjoinRoot.mk_X] at remainder
  exact ⟨x, frobenius, built, raised, remainder⟩

theorem ofPoly_spec [NeZero m] (fits : m < Word.long) {token : Token}
    (live : token.requested = false) {f : Poly} (divisor : f.Divisor m)
    (nonconstant : 0 < f.degree) (sized : f.degree < Word.long) :
    Traced.Ends (ofPoly token f) fun outcome =>
      ∃ matrix, outcome = .ok matrix ∧ Describes m f matrix := by
  obtain ⟨x, frobenius, built, raised, stands⟩ := frobenius_spec fits divisor
  obtain ⟨unit, unitBuilt, unitReduced, unitValue⟩ := one_spec (m := m)
  obtain ⟨start, started, startsAt⟩ := divisor.rem_spec fits unitReduced
  have before : start.Remainder m f ((AdjoinRoot.root _ ^ m) ^ (0 - 1)) := by
    simpa [unitValue] using startsAt
  have gathered := gatherRows_spec fits live divisor stands before f.degree (by omega)
  have proper : ¬ ((f.isZero || decide (f.degree < 1)) = true) := by
    rw [divisor.nonzero]
    simpa using Nat.ne_of_gt nonconstant
  rw [ofPoly, if_neg proper]
  refine .after_note (.after_blank (.after_note (.after_note (.after_blank ?_))))
  rw [divisor.reduced.modulus_eq]
  refine .after_ok built (.after_ok raised (.after_ok unitBuilt (.after_ok started ?_)))
  rw [← List.range_eq_range'] at gathered
  refine .bind_ok gathered fun rows powers => ?_
  obtain ⟨rank, ranked, _, narrow⟩ := LinearSystem.matrixRank_spec fits
    (powers.lessIdentity_ne_nil nonconstant)
    (lessIdentity_rectangular (powers.rectangular divisor.reduced nonconstant))
  refine .after_blank (.after_note (.after_notes ?_))
  refine .after_ok (minusIdentity_eq rows) (.after_ok ranked ?_)
  refine .after_ok (Word.minus_of_le narrow) ?_
  refine .after_blank (.after_note (.after_notes (.after_note (.after_note ?_))))
  have described : Describes m f ⟨rows, rank, f.degree - rank⟩ :=
    ⟨powers, ranked, Nat.add_sub_of_le narrow⟩
  split
  · exact .after_note (.after_blank (.after_note (Traced.ends_pure ⟨_, rfl, described⟩)))
  · exact .after_blank (.after_note (Traced.ends_pure ⟨_, rfl, described⟩))

/-- Over any modulus, a polynomial of positive degree that fits a word, with a leading coefficient
coprime to the modulus, always has a matrix. It has one row for each exponent below the degree, and
row `j` is what long division leaves of `x ^ (m * j)`, although only `x ^ m` was raised to a power. -/
theorem rows_direct {m : Nat} (fits : m < Word.long) {f : Poly} (reduced : f.Reduced m)
    (nonconstant : 1 ≤ f.degree) (sized : f.degree < Word.long) (coprime : f.leading.Coprime m)
    {token : Token} (live : token.requested = false) (trace : Trace) :
    ∃ matrix, ((ofPoly token f).runFrom trace).1 = .ok matrix ∧
      matrix.rows.length = f.degree ∧
      ∀ j (inside : j < matrix.rows.length), DirectRow m f (m * j) matrix.rows[j] := by
  have : NeZero m := ⟨Nat.ne_of_gt reduced.modulus_pos⟩
  have divisor := reduced.divisor_of_coprime (isZero_of_degree_pos nonconstant) coprime
  obtain ⟨matrix, success, described⟩ :=
    (ofPoly_spec fits live divisor nonconstant sized).outcome trace
  refine ⟨matrix, success, described.powers.length_eq, fun j inside => ?_⟩
  have coordinates := described.powers.coordinates inside
  rw [← pow_mul] at coordinates
  exact coordinates.directRow fits divisor nonconstant

/-- Modulo six, the last row of `5x ^ 3 + x + 1` is the remainder of `x ^ 12`. -/
theorem rows_direct_modulo_six :
    ((ofPoly .fresh ⟨5, [0, 1, 1], 6⟩).runFrom .empty).1
      = .ok ⟨[[1, 0, 0], [1, 2, 1], [5, 3, 1]], 2, 1⟩ ∧
    DirectRow 6 ⟨5, [0, 1, 1], 6⟩ 12 [5, 3, 1] := by
  have run : ((ofPoly .fresh ⟨5, [0, 1, 1], 6⟩).runFrom .empty).1
      = .ok ⟨[[1, 0, 0], [1, 2, 1], [5, 3, 1]], 2, 1⟩ := by
    decide +kernel
  obtain ⟨matrix, success, _, direct⟩ := @rows_direct 6 (by decide) ⟨5, [0, 1, 1], 6⟩
    ⟨rfl, by decide, by decide⟩ (by decide) (by decide) (by decide) .fresh rfl .empty
  cases success.symm.trans run
  exact ⟨run, direct 2 (by decide)⟩

end FrobeniusMatrix

end ResidueAlgebra
