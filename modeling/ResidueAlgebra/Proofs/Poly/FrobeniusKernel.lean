import Mathlib.LinearAlgebra.Matrix.ToLin
import ResidueAlgebra.Proofs.Linear.PrimeDivisor
import ResidueAlgebra.Proofs.Poly.Euclid
import ResidueAlgebra.Proofs.Poly.FixedPoints
import ResidueAlgebra.Proofs.Poly.FrobeniusRows

/-!
# The kernel of the Frobenius matrix counts factors

Over a prime field the rows less the identity are the matrix of `a ↦ a ^ p - a` on the quotient by
the polynomial, in the basis of the powers of `x`. The rank is therefore the dimension of its range,
and what is missing to the degree is the dimension of the space of fixed points, which is the number
of monic irreducible factors.
-/
set_option autoImplicit false
namespace ResidueAlgebra

open Polynomial UniqueFactorizationMonoid
open AdjoinRoot (powerBasis powerBasis_dim powerBasis_gen)

variable {m : Nat}

namespace Poly

theorem Reduced.divisor [Fact m.Prime] {f : Poly} (reduced : f.Reduced m)
    (nonzero : f.isZero = false) : f.Divisor m :=
  ⟨reduced, nonzero, reduced.isUnit_leading nonzero⟩

/-! ## Coordinates of remainders -/

theorem Remainder.repr_eq [Fact m.Prime] {r d : Poly} {value : AdjoinRoot (toPolynomial m d)}
    (nonzero : toPolynomial m d ≠ 0) (remainder : r.Remainder m d value)
    (position : Fin (powerBasis nonzero).dim) :
    (powerBasis nonzero).basis.repr value position
      = (r.coefficient position : ZMod m) := by
  have small : (toPolynomial m r).degree < (powerBasis nonzero).dim := by
    rw [powerBasis_dim, ← degree_eq_natDegree nonzero]
    exact remainder.degree_lt
  have combination : value = ∑ i : Fin (powerBasis nonzero).dim,
      (toPolynomial m r).coeff i • (powerBasis nonzero).basis i := by
    rw [← remainder.value_eq, ← AdjoinRoot.aeval_eq, aeval_def, eval₂_eq_sum,
      ← sum_fin _ (by simp) small]
    refine Finset.sum_congr rfl fun i _ => ?_
    rw [PowerBasis.basis_eq_pow, powerBasis_gen, Algebra.smul_def]
  rw [combination, Module.Basis.repr_sum_self, coeff_toPolynomial]

theorem Coordinates.repr_eq [Fact m.Prime] {f : Poly} {value : AdjoinRoot (toPolynomial m f)}
    {row : List Nat} (nonzero : toPolynomial m f ≠ 0) (coordinates : Coordinates m f value row)
    (position : Fin (powerBasis nonzero).dim) :
    (powerBasis nonzero).basis.repr value position
      = ((row.getD position 0 : Nat) : ZMod m) := by
  obtain ⟨r, remainder, rfl⟩ := coordinates
  rw [remainder.repr_eq nonzero, getD_ascending]

end Poly

namespace FrobeniusMatrix

open ResidueAlgebra.Poly

/-! ## The matrix of the Frobenius map -/

namespace PowerRows

variable {f : Poly} {rows : List (List Nat)}

theorem repr_eq [Fact m.Prime] (nonzero : toPolynomial m f ≠ 0)
    (powers : PowerRows m f (AdjoinRoot.root _ ^ m) (List.range f.degree) rows)
    (i j : Fin (powerBasis nonzero).dim) (inside : i < rows.length) :
    (powerBasis nonzero).basis.repr
        (frobeniusMinusOne _ ((powerBasis nonzero).basis i)) j
      = (rows[(i : Nat)].getD j 0 : Nat) - if (i : Nat) = j then 1 else 0 := by
  have raised : (powerBasis nonzero).basis i ^ m
      = (AdjoinRoot.root (toPolynomial m f) ^ m) ^ (i : Nat) := by
    rw [PowerBasis.basis_eq_pow, powerBasis_gen, pow_right_comm]
  rw [frobeniusMinusOne_apply, map_sub, Finsupp.sub_apply, raised,
    (powers.coordinates inside).repr_eq nonzero, Module.Basis.repr_self, Finsupp.single_apply]
  simp only [Fin.ext_iff]

theorem toMatrix_eq [Fact m.Prime] (nonzero : toPolynomial m f ≠ 0)
    (powers : PowerRows m f (AdjoinRoot.root _ ^ m) (List.range f.degree) rows)
    (reduced : f.Reduced m) (nonconstant : 0 < f.degree)
    (height : (lessIdentity m rows).length = (powerBasis nonzero).dim)
    (width : f.degree = (powerBasis nonzero).dim) :
    toMatrix m f.degree (lessIdentity m rows)
      = (LinearMap.toMatrix (powerBasis nonzero).basis (powerBasis nonzero).basis
          (frobeniusMinusOne (toPolynomial m f))).transpose.submatrix
            (finCongr height) (finCongr width) := by
  ext i j
  have inside : (i : Nat) < rows.length :=
    Nat.lt_of_lt_of_eq i.isLt (length_lessIdentity rows)
  have column : (j : Nat) < rows[(i : Nat)].length := by
    rw [powers.rectangular reduced nonconstant _ (List.getElem_mem inside)]
    exact j.isLt
  rw [Matrix.submatrix_apply, Matrix.transpose_apply, LinearMap.toMatrix_apply,
    powers.repr_eq nonzero _ _ inside]
  exact getD_lessIdentity i.isLt inside column

end PowerRows

namespace Describes

variable {f : Poly} {matrix : FrobeniusMatrix}

theorem rank_eq_finrank [Fact m.Prime] (fits : m < Word.long) (described : Describes m f matrix)
    (reduced : f.Reduced m) (nonconstant : 0 < f.degree) (nonzero : toPolynomial m f ≠ 0) :
    matrix.rank = Module.finrank (ZMod m) (frobeniusMinusOne (toPolynomial m f)).range := by
  have powers := described.powers
  have dimension : f.degree = (powerBasis nonzero).dim := by
    rw [powerBasis_dim, reduced.natDegree_eq]
  have height : (lessIdentity m matrix.rows).length = (powerBasis nonzero).dim := by
    rw [length_lessIdentity, powers.length_eq, dimension]
  have rectangular := lessIdentity_rectangular (m := m) (powers.rectangular reduced nonconstant)
  have wide := LinearSystem.width_eq (powers.lessIdentity_ne_nil nonconstant) rectangular
  have ranked := described.rank_eq
  rw [LinearSystem.matrixRank_eq_rank fits wide rectangular,
    powers.toMatrix_eq nonzero reduced nonconstant height dimension, Matrix.rank_submatrix,
    Matrix.rank_transpose, Matrix.rank_eq_finrank_range_toLin _ (powerBasis nonzero).basis
      (powerBasis nonzero).basis, Matrix.toLin_toMatrix] at ranked
  exact (Except.ok.inj ranked).symm

theorem kernelDimension_eq [Fact m.Prime] (fits : m < Word.long) (described : Describes m f matrix)
    (reduced : f.Reduced m) (nonconstant : 0 < f.degree) (nonzero : toPolynomial m f ≠ 0) :
    matrix.kernelDimension = (primeFactors (toPolynomial m f)).card := by
  have finite : Module.Finite (ZMod m) (AdjoinRoot (toPolynomial m f)) :=
    (powerBasis nonzero).finite
  have whole : Module.finrank (ZMod m) (AdjoinRoot (toPolynomial m f)) = f.degree := by
    rw [(powerBasis nonzero).finrank, powerBasis_dim, reduced.natDegree_eq]
  have dimensions := (frobeniusMinusOne (toPolynomial m f)).finrank_range_add_finrank_ker
  have rank := described.rank_eq_finrank fits reduced nonconstant nonzero
  have total := described.total
  rw [whole, finrank_ker_frobeniusMinusOne nonzero] at dimensions
  omega

end Describes

/-! ## Irreducible factors -/

theorem ncard_irreducible_divisors [Fact m.Prime] {f : (ZMod m)[X]} (nonzero : f ≠ 0) :
    { q : (ZMod m)[X] | q.Monic ∧ Irreducible q ∧ q ∣ f }.ncard = (primeFactors f).card := by
  rw [← Set.ncard_coe_finset]
  congr 1
  ext q
  simp only [Set.mem_ofPred_eq, Finset.mem_coe, mem_primeFactors,
    Polynomial.mem_normalizedFactors_iff nonzero]
  tauto

theorem card_factors_of_squarefree [Fact m.Prime] {f : (ZMod m)[X]} (squarefree : Squarefree f)
    (nonzero : f ≠ 0) {factors : Multiset (ZMod m)[X]} (irreducible : ∀ q ∈ factors, Irreducible q)
    (product : Associated factors.prod f) : factors.card = (primeFactors f).card := by
  have related : Multiset.Rel Associated factors (normalizedFactors f) := by
    apply factors_unique irreducible (fun q member => irreducible_of_normalized_factor q member)
    exact product.trans (prod_normalizedFactors nonzero).symm
  have distinct := (squarefree_iff_nodup_normalizedFactors nonzero).mp squarefree
  rw [Multiset.card_eq_card_of_rel related, ← toFinset_normalizedFactors,
    Multiset.toFinset_card_of_nodup distinct]

/-- The matrix of a polynomial over a prime field, of a positive degree that fits a word, always has
a result. What its rank is short of the degree is the number of monic irreducible factors, and the
number of factors of any factorization of a square-free polynomial. -/
theorem kernelDimension_counts_factors {p : Nat} (prime : p.Prime) (fits : p < Word.long) {f : Poly}
    (reduced : f.Reduced p) (nonconstant : 1 ≤ f.degree) (sized : f.degree < Word.long)
    {token : Token} (live : token.requested = false) (trace : Trace) :
    ∃ matrix, ((ofPoly token f).runFrom trace).1 = .ok matrix ∧
      matrix.kernelDimension
        = { q : (ZMod p)[X] | q.Monic ∧ Irreducible q ∧ q ∣ toPolynomial p f }.ncard ∧
      (Squarefree (toPolynomial p f) → ∀ factors : Multiset (ZMod p)[X],
        (∀ q ∈ factors, Irreducible q) → Associated factors.prod (toPolynomial p f) →
        matrix.kernelDimension = factors.card) ∧
      matrix.rank + matrix.kernelDimension = f.degree := by
  have : Fact p.Prime := ⟨prime⟩
  have nonzero : toPolynomial p f ≠ 0 := by
    apply ne_zero_of_natDegree_gt
    rwa [reduced.natDegree_eq]
  have divisor := reduced.divisor (reduced.isZero_eq_false nonzero)
  obtain ⟨matrix, success, described⟩ :=
    (ofPoly_spec fits live divisor nonconstant sized).outcome trace
  have counted := described.kernelDimension_eq fits reduced nonconstant nonzero
  refine ⟨matrix, success, ?_, ?_, described.total⟩
  · rw [counted, ncard_irreducible_divisors nonzero]
  · intro squarefree factors irreducible product
    rw [counted, card_factors_of_squarefree squarefree nonzero irreducible product]

/-- Over two elements `x ^ 3 + x ^ 2` is `x * x * (x + 1)`, and the repeated factor counts once. -/
theorem kernelDimension_counts_factors_repeated :
    ((ofPoly .fresh ⟨1, [1, 0, 0], 2⟩).runFrom .empty).1
      = .ok ⟨[[1, 0, 0], [0, 0, 1], [0, 0, 1]], 1, 2⟩ ∧
    { q : (ZMod 2)[X] | q.Monic ∧ Irreducible q ∧ q ∣ toPolynomial 2 ⟨1, [1, 0, 0], 2⟩ }.ncard
      = 2 := by
  have run : ((ofPoly .fresh ⟨1, [1, 0, 0], 2⟩).runFrom .empty).1
      = .ok ⟨[[1, 0, 0], [0, 0, 1], [0, 0, 1]], 1, 2⟩ := by
    decide +kernel
  obtain ⟨matrix, success, counted, _⟩ := @kernelDimension_counts_factors 2 Nat.prime_two
    (by decide) ⟨1, [1, 0, 0], 2⟩ ⟨rfl, by decide, by decide⟩ (by decide) (by decide) .fresh rfl
    .empty
  cases success.symm.trans run
  exact ⟨run, counted.symm⟩

end FrobeniusMatrix

end ResidueAlgebra
