import Mathlib.Algebra.CharP.Lemmas
import Mathlib.Algebra.Module.ZMod
import Mathlib.FieldTheory.Finite.Basic
import Mathlib.RingTheory.AdjoinRoot
import Mathlib.RingTheory.Radical.Basic
import Mathlib.RingTheory.SimpleRing.Principal

/-!
# Fixed points of the Frobenius map

Over a prime field with `p` elements, `v ^ p - v` is the product of all `v - c`. An irreducible `q`
divides at most one of these factors, so a power of `q` that divides the product divides one of
them: a class fixed by raising to the power `p` is constant modulo each primary part of the modulus,
and by the Chinese remainder theorem the constants can be chosen freely. The space of fixed points
has one dimension for each monic irreducible factor, repeated or not.
-/
set_option autoImplicit false
namespace ResidueAlgebra.Poly

open Polynomial UniqueFactorizationMonoid

variable {p : Nat} [Fact p.Prime]

/-! ## Constants modulo a power of an irreducible polynomial -/

theorem prod_sub_C (v : (ZMod p)[X]) : ∏ c : ZMod p, (v - C c) = v ^ p - v := by
  have monic : (X ^ p - X : (ZMod p)[X]).Monic :=
    monic_X_pow_sub (by simpa using (Fact.out : p.Prime).one_lt)
  have roots : (X ^ p - X : (ZMod p)[X]).roots = Finset.univ.val := by
    simpa using FiniteField.roots_X_pow_card_sub_X (ZMod p)
  have count : (X ^ p - X : (ZMod p)[X]).roots.card = (X ^ p - X : (ZMod p)[X]).natDegree := by
    rw [roots, FiniteField.X_pow_card_sub_X_natDegree_eq _ (Fact.out : p.Prime).one_lt]
    simp
  have product : ∏ c : ZMod p, (X - C c) = X ^ p - X := by
    rw [← prod_multiset_X_sub_C_of_monic_of_roots_card_eq monic count, roots, Finset.prod]
  have composed := congrArg (Polynomial.aeval v) product
  simpa only [map_prod, map_sub, map_pow, aeval_X, aeval_C, algebraMap_eq] using composed

theorem constant_unique {q v : (ZMod p)[X]} (irreducible : Irreducible q) {c d : ZMod p}
    (left : q ∣ v - C c) (right : q ∣ v - C d) : c = d := by
  by_contra different
  have difference : q ∣ C (c - d) := by
    have divides := dvd_sub right left
    rwa [sub_sub_sub_cancel_left, ← C_sub] at divides
  have unit : IsUnit (C (c - d)) := isUnit_C.mpr (sub_ne_zero.mpr different).isUnit
  exact irreducible.not_isUnit (isUnit_of_dvd_unit difference unit)

theorem exists_constant {q v : (ZMod p)[X]} (irreducible : Irreducible q) {count : Nat}
    (divides : q ^ count ∣ v ^ p - v) : ∃ c, q ^ count ∣ v - C c := by
  rcases Nat.eq_zero_or_pos count with rfl | positive
  · exact ⟨0, by simp⟩
  · have inProduct : q ∣ ∏ c : ZMod p, (v - C c) := by
      rw [prod_sub_C]
      exact dvd_trans (dvd_pow_self q (Nat.ne_of_gt positive)) divides
    obtain ⟨c, _, factor⟩ := (irreducible.prime.dvd_finsetProd_iff _).mp inProduct
    have others : ¬ q ∣ ∏ d ∈ Finset.univ.erase c, (v - C d) := by
      intro inOthers
      obtain ⟨d, member, other⟩ := (irreducible.prime.dvd_finsetProd_iff _).mp inOthers
      exact Finset.ne_of_mem_erase member (constant_unique irreducible other factor)
    refine ⟨c, irreducible.prime.pow_dvd_of_dvd_mul_right count others ?_⟩
    rwa [Finset.mul_prod_erase Finset.univ (v - C ·) (Finset.mem_univ c), prod_sub_C]

/-! ## Primary parts -/

noncomputable def primaryPart (f q : (ZMod p)[X]) : (ZMod p)[X] :=
  q ^ (normalizedFactors f).count q

theorem dvd_primaryPart {f q : (ZMod p)[X]} (member : q ∈ primeFactors f) :
    q ∣ primaryPart f q := by
  rw [mem_primeFactors, ← Multiset.count_ne_zero] at member
  exact dvd_pow_self q member

theorem irreducible_of_mem {f q : (ZMod p)[X]} (member : q ∈ primeFactors f) : Irreducible q :=
  irreducible_of_normalized_factor q (mem_primeFactors.mp member)

theorem primaryPart_coprime {f q r : (ZMod p)[X]} (left : q ∈ primeFactors f)
    (right : r ∈ primeFactors f) (different : q ≠ r) :
    IsCoprime (primaryPart f q) (primaryPart f r) := by
  apply IsCoprime.pow
  exact (pairwise_primeFactors_isRelPrime left right different).isCoprime

theorem associated_prod_primaryPart {f : (ZMod p)[X]} (nonzero : f ≠ 0) :
    Associated (∏ q ∈ primeFactors f, primaryPart f q) f := by
  have product := prod_normalizedFactors nonzero
  rwa [Finset.prod_multiset_count, toFinset_normalizedFactors] at product

theorem dvd_iff_primaryPart_dvd {f w : (ZMod p)[X]} (nonzero : f ≠ 0) :
    f ∣ w ↔ ∀ q ∈ primeFactors f, primaryPart f q ∣ w := by
  rw [← (associated_prod_primaryPart nonzero).dvd_iff_dvd_left]
  constructor
  · intro divides q member
    exact dvd_trans (Finset.dvd_prod_of_mem _ member) divides
  · intro parts
    exact Finset.prod_dvd_of_coprime
      (fun q left r right different => primaryPart_coprime left right different) parts

theorem exists_constants (f : (ZMod p)[X]) (constants : primeFactors f → ZMod p) :
    ∃ v : (ZMod p)[X], ∀ q : primeFactors f, primaryPart f q ∣ v - C (constants q) := by
  have coprime : Pairwise (Function.onFun IsCoprime
      fun q : primeFactors f => Ideal.span {primaryPart f q}) := by
    intro q r different
    rw [Function.onFun, Ideal.isCoprime_span_singleton_iff]
    exact primaryPart_coprime q.2 r.2 fun same => different (Subtype.ext same)
  obtain ⟨v, close⟩ := Ideal.exists_forall_sub_mem_ideal coprime fun q => C (constants q)
  exact ⟨v, fun q => Ideal.mem_span_singleton.mp (close q)⟩

theorem mk_pow_eq_self_iff {f : (ZMod p)[X]} (nonzero : f ≠ 0) (v : (ZMod p)[X]) :
    AdjoinRoot.mk f v ^ p = AdjoinRoot.mk f v
      ↔ ∃ constants : primeFactors f → ZMod p,
          ∀ q : primeFactors f, primaryPart f q ∣ v - C (constants q) := by
  rw [← map_pow, AdjoinRoot.mk_eq_mk, dvd_iff_primaryPart_dvd nonzero]
  constructor
  · intro parts
    choose constants close using fun q : primeFactors f =>
      exists_constant (irreducible_of_mem q.2) (parts q q.2)
    exact ⟨constants, close⟩
  · rintro ⟨constants, close⟩ q member
    rw [← prod_sub_C]
    exact dvd_trans (close ⟨q, member⟩) (Finset.dvd_prod_of_mem _ (Finset.mem_univ _))

/-! ## Counting fixed points -/

theorem card_fixed {f : (ZMod p)[X]} (nonzero : f ≠ 0) :
    Nat.card { a : AdjoinRoot f // a ^ p = a } = p ^ (primeFactors f).card := by
  -- The fixed classes are in bijection with the choices of a constant for each prime factor.
  choose representative close using exists_constants f
  let fixed (constants : primeFactors f → ZMod p) : { a : AdjoinRoot f // a ^ p = a } :=
    ⟨AdjoinRoot.mk f (representative constants),
      (mk_pow_eq_self_iff nonzero _).mpr ⟨constants, close constants⟩⟩
  have bijective : Function.Bijective fixed := by
    constructor
    · intro left right same
      have divides := (dvd_iff_primaryPart_dvd nonzero).mp
        (AdjoinRoot.mk_eq_mk.mp (congrArg Subtype.val same))
      funext q
      have part := dvd_trans (dvd_primaryPart q.2) (divides q q.2)
      have first := dvd_trans (dvd_primaryPart q.2) (close left q)
      have second := dvd_trans (dvd_primaryPart q.2) (close right q)
      refine constant_unique (irreducible_of_mem q.2) first ?_
      have sum := dvd_add part second
      rwa [sub_add_sub_cancel] at sum
    · rintro ⟨a, kept⟩
      obtain ⟨v, rfl⟩ := AdjoinRoot.mk_surjective a
      obtain ⟨constants, constant⟩ := (mk_pow_eq_self_iff nonzero v).mp kept
      refine ⟨constants, Subtype.ext (AdjoinRoot.mk_eq_mk.mpr ?_)⟩
      rw [dvd_iff_primaryPart_dvd nonzero]
      intro q member
      have difference := dvd_sub (close constants ⟨q, member⟩) (constant ⟨q, member⟩)
      rwa [sub_sub_sub_cancel_right] at difference
  rw [← Nat.card_congr (Equiv.ofBijective fixed bijective), Nat.card_fun]
  simp

noncomputable def frobeniusMinusOne (f : (ZMod p)[X]) : AdjoinRoot f →ₗ[ZMod p] AdjoinRoot f :=
  AddMonoidHom.toZModLinearMap p
    { toFun := fun a => a ^ p - a
      map_zero' := by simp [(Fact.out : p.Prime).ne_zero]
      map_add' := by
        intro a b
        obtain ⟨v, rfl⟩ := AdjoinRoot.mk_surjective a
        obtain ⟨w, rfl⟩ := AdjoinRoot.mk_surjective b
        rw [← map_add, ← map_pow, add_pow_char, map_add, map_add, map_pow, map_pow]
        ring }

theorem frobeniusMinusOne_apply (f : (ZMod p)[X]) (a : AdjoinRoot f) :
    frobeniusMinusOne f a = a ^ p - a := rfl

theorem finrank_ker_frobeniusMinusOne {f : (ZMod p)[X]} (nonzero : f ≠ 0) :
    Module.finrank (ZMod p) (frobeniusMinusOne f).ker = (primeFactors f).card := by
  have finite : Module.Finite (ZMod p) (AdjoinRoot f) :=
    (AdjoinRoot.powerBasis nonzero).finite
  have whole : Finite (AdjoinRoot f) := Module.finite_of_finite (ZMod p)
  have fixed : Nat.card (frobeniusMinusOne f).ker = p ^ (primeFactors f).card := by
    rw [← card_fixed nonzero]
    refine Nat.card_congr (Equiv.subtypeEquivRight fun a => ?_)
    rw [LinearMap.mem_ker, frobeniusMinusOne_apply, sub_eq_zero]
  have dimension := Module.natCard_eq_pow_finrank (K := ZMod p) (V := (frobeniusMinusOne f).ker)
  rw [fixed, Nat.card_zmod] at dimension
  exact (Nat.pow_right_injective (Fact.out : p.Prime).two_le dimension).symm

end ResidueAlgebra.Poly
