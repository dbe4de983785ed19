import Mathlib.Data.ZMod.Basic
import Mathlib.Data.ZMod.Units
import Mathlib.Tactic.Ring
import ResidueAlgebra.Proofs.Computation
import ResidueAlgebra.Residue.Inverse

/-!
# Residues as elements of the ring of integers modulo a word

Every operation on residues succeeds for a positive modulus that fits a word and returns the
representative, `ZMod.val`, of the ring operation. Proofs about larger computations therefore take
place in `ZMod modulus`.
-/
set_option autoImplicit false
namespace ResidueAlgebra.Residue

variable {modulus : Nat} [NeZero modulus]

theorem val_lt_long (fits : modulus < Word.long) (residue : ZMod modulus) :
    residue.val < Word.long :=
  Nat.lt_trans (ZMod.val_lt residue) fits

/-! ## Ring operations -/

theorem reduce_val (value : Nat) : reduce value modulus = .ok (value : ZMod modulus).val := by
  rw [reduce_eq (NeZero.pos modulus), ZMod.val_natCast]

theorem add_val {left right : Nat} (leftFits : left < Word.long) (rightFits : right < Word.long) :
    add left right modulus = .ok ((left + right : ZMod modulus)).val := by
  rw [add_eq (NeZero.pos modulus) leftFits rightFits, ← Nat.cast_add, ZMod.val_natCast]

theorem mul_val {left right : Nat} (leftFits : left < Word.long) (rightFits : right < Word.long) :
    mul left right modulus = .ok ((left * right : ZMod modulus)).val := by
  rw [mul_eq (NeZero.pos modulus) leftFits rightFits, ← Nat.cast_mul, ZMod.val_natCast]

theorem sub_val (left right : Nat) :
    sub left right modulus = .ok ((left - right : ZMod modulus)).val := by
  have below : right % modulus ≤ modulus := Nat.le_of_lt (Nat.mod_lt _ (NeZero.pos modulus))
  have same : ((left % modulus + (modulus - right % modulus) : Nat) : ZMod modulus)
      = left - right := by
    rw [Nat.cast_add, Nat.cast_sub below, ZMod.natCast_mod, ZMod.natCast_mod, ZMod.natCast_self]
    ring
  rw [sub_eq (NeZero.pos modulus), ← same, ZMod.val_natCast]

theorem pow_lowest_bit {M : Type*} [Monoid M] (base : M) (exponent : Nat) :
    base ^ exponent = base ^ (exponent % 2) * (base * base) ^ (exponent / 2) := by
  rw [← pow_two, ← pow_mul, ← pow_add, Nat.mod_add_div]

/-- Square and multiply keeps the product of the result and the pending power. -/
theorem powLoop_val (fits : modulus < Word.long) (result base : ZMod modulus) (exponent : Nat) :
    powLoop modulus result.val base.val exponent = .ok (result * base ^ exponent).val := by
  induction exponent using Nat.strong_induction_on generalizing result base with
  | _ exponent ih =>
      rw [powLoop]
      by_cases zero : exponent = 0
      · simp [zero]
      · have smaller : exponent / 2 < exponent := by omega
        have square : mul base.val base.val modulus = .ok (base * base).val := by
          simpa using @mul_val modulus _ _ _ (val_lt_long fits base) (val_lt_long fits base)
        rw [if_neg zero]
        by_cases odd : exponent % 2 = 1
        · have product : mul result.val base.val modulus = .ok (result * base).val := by
            simpa using @mul_val modulus _ _ _ (val_lt_long fits result) (val_lt_long fits base)
          simp only [if_pos odd, product, square, Outcome.ok_bind, ih _ smaller]
          rw [pow_lowest_bit base exponent, odd, pow_one, mul_assoc]
        · have even : exponent % 2 = 0 := by omega
          simp only [if_neg odd, square, Outcome.ok_bind, ih _ smaller]
          rw [pow_lowest_bit base exponent, even, pow_zero, one_mul]

theorem pow_val (fits : modulus < Word.long) (base exponent : Nat) :
    pow base exponent modulus = .ok ((base : ZMod modulus) ^ exponent).val := by
  unfold pow
  by_cases trivial : modulus = 1
  · subst trivial
    rw [if_pos rfl, Subsingleton.elim ((base : ZMod 1) ^ exponent) 0, ZMod.val_zero]
  · have one : (1 : ZMod modulus).val = 1 := by
      have small : 1 < modulus := Nat.lt_of_le_of_ne (NeZero.pos modulus) (Ne.symm trivial)
      simpa using ZMod.val_cast_of_lt small
    have run := powLoop_val fits 1 (base : ZMod modulus) exponent
    rw [one, one_mul] at run
    rw [if_neg trivial, reduce_val, Outcome.ok_bind, run]

theorem ofInt_val (fits : modulus < Word.long) (value : Int) :
    ofInt value modulus = .ok (value : ZMod modulus).val := by
  have positive : (0 : Int) < modulus := Int.natCast_pos.mpr (NeZero.pos modulus)
  have fits' : (modulus : Int) < Word.wideSigned := by
    simp only [Word.long] at fits
    simp only [Word.wideSigned]
    omega
  have above := Int.lt_tmod_of_pos value positive
  have below := Int.tmod_lt_of_pos value positive
  have congruent : ((value.tmod modulus : Int) : ZMod modulus) = value := by
    have division := Int.mul_tdiv_add_tmod value modulus
    conv_rhs => rw [← division]
    push_cast
    rw [ZMod.natCast_self, zero_mul, zero_add]
  -- A representative inside the window of the modulus is the value of its residue.
  have window : ∀ lifted : Int, 0 ≤ lifted → lifted < modulus →
      (lifted : ZMod modulus) = value → lifted.toNat = (value : ZMod modulus).val := by
    intro lifted low high same
    rw [← same, ← Int.toNat_of_nonneg low, Int.cast_natCast,
      ZMod.val_cast_of_lt (by omega), Int.toNat_natCast]
  rw [ofInt, if_neg (NeZero.ne modulus), Word.fitSigned_of_bounds (by omega) (by omega),
    Outcome.ok_bind]
  split
  · rename_i negative
    rw [Word.fitSigned_of_bounds (by omega) (by omega), Outcome.ok_bind]
    congr 1
    refine window _ (by omega) (by omega) ?_
    push_cast
    rw [congruent, ZMod.natCast_self, add_zero]
  · rename_i nonnegative
    congr 1
    exact window _ (by omega) (by omega) congruent

/-! ## Units -/

theorem bezout_combination (left right : Nat) :
    (bezout left right).1 * left + (bezout left right).2 * right = (Nat.gcd left right : Int) := by
  fun_induction bezout left right with
  | case1 left right positive inner ih =>
      have division : ((left % right : Nat) : Int) = left - right * (left / right : Nat) := by
        have whole := Nat.div_add_mod left right
        omega
      have step : Nat.gcd left right = Nat.gcd right (left % right) := by
        rw [Nat.gcd_comm left right, Nat.gcd_rec right left, Nat.gcd_comm]
      rw [step, ← ih, division]
      ring
  | case2 left right stop =>
      have zero : right = 0 := by omega
      simp [zero]

/-- The divisor is the greatest common one, and the coefficients combine the two numbers to it. -/
structure ExtendedGcd.Combines (found : ExtendedGcd) (left right : Nat) : Prop where
  divisor_eq : found.divisor = Nat.gcd left right
  combination : found.left * left + found.right * right = found.divisor

theorem euclid_combines (left right : Nat) : (euclid left right).Combines left right where
  divisor_eq := rfl
  combination := bezout_combination left right

omit [NeZero modulus] in
theorem gcd_mod_eq_one_iff {value : Nat} :
    Nat.gcd (value % modulus) modulus = 1 ↔ IsUnit (value : ZMod modulus) := by
  rw [← Nat.gcd_rec, Nat.gcd_comm, ZMod.isUnit_iff_coprime, Nat.Coprime]

omit [NeZero modulus] in
theorem cast_eq_inv {value : Nat} {x y : Int}
    (combination : x * (value % modulus : Nat) + y * modulus = 1) :
    (x : ZMod modulus) = (value : ZMod modulus)⁻¹ := by
  have product : (value : ZMod modulus) * x = 1 := by
    have cast := congrArg (Int.cast : Int → ZMod modulus) combination
    push_cast at cast
    rwa [ZMod.natCast_self, mul_zero, add_zero, mul_comm] at cast
  exact (ZMod.inv_eq_of_mul_eq_one modulus _ _ product).symm

section Inverse

variable {extended : Int → Int → ExtendedGcd} {value : Nat}

theorem inverseBy_val
    (combines : (extended (value % modulus : Nat) modulus).Combines (value % modulus) modulus)
    (unit : IsUnit (value : ZMod modulus)) :
    inverseBy extended value modulus = some ((value : ZMod modulus)⁻¹).val := by
  rw [inverseBy, if_neg (NeZero.ne modulus)]
  by_cases trivial : modulus = 1
  · subst trivial
    rw [if_pos rfl, Subsingleton.elim ((value : ZMod 1)⁻¹) 0, ZMod.val_zero]
  · have one : (extended (value % modulus : Nat) modulus).divisor = 1 := by
      rw [combines.divisor_eq, gcd_mod_eq_one_iff.mpr unit, Nat.cast_one]
    have same := cast_eq_inv (combines.combination.trans one)
    rw [if_neg trivial]
    dsimp only
    rw [if_pos one, ← same, Int.fmod_eq_emod_of_nonneg _ (Int.natCast_nonneg modulus),
      ← ZMod.val_intCast, Int.toNat_natCast]

theorem inverseBy_eq_none
    (combines : (extended (value % modulus : Nat) modulus).Combines (value % modulus) modulus)
    (zeroDivisor : ¬ IsUnit (value : ZMod modulus)) : inverseBy extended value modulus = none := by
  have proper : modulus ≠ 1 := by
    rintro rfl
    exact zeroDivisor (isUnit_of_subsingleton _)
  have common : (extended (value % modulus : Nat) modulus).divisor ≠ 1 := by
    rw [combines.divisor_eq, Ne, Nat.cast_eq_one, gcd_mod_eq_one_iff]
    exact zeroDivisor
  rw [inverseBy, if_neg (NeZero.ne modulus), if_neg proper]
  exact if_neg common

theorem inverse_val (unit : IsUnit (value : ZMod modulus)) :
    inverse value modulus = some ((value : ZMod modulus)⁻¹).val :=
  inverseBy_val (euclid_combines _ _) unit

theorem inverse_eq_none (zeroDivisor : ¬ IsUnit (value : ZMod modulus)) :
    inverse value modulus = none :=
  inverseBy_eq_none (euclid_combines _ _) zeroDivisor

/-- The algorithm is right about every reduced residue of a modulus that fits a word. -/
def ExactInWords (extended : Int → Int → ExtendedGcd) : Prop :=
  ∀ modulus < Word.long, ∀ residue < modulus, (extended residue modulus).Combines residue modulus

theorem euclid_exactInWords : ExactInWords euclid := fun _ _ _ _ => euclid_combines _ _

theorem ExactInWords.combines_mod (sound : ExactInWords extended) (fits : modulus < Word.long)
    (value : Nat) : (extended (value % modulus : Nat) modulus).Combines (value % modulus) modulus :=
  sound modulus fits (value % modulus) (Nat.mod_lt value (NeZero.pos modulus))

/-- The inverse does not depend on how the coefficients are found, nor does anything that is computed
with it. -/
theorem inverseBy_eq_inverse (sound : ExactInWords extended) (fits : modulus < Word.long)
    (value : Nat) : inverseBy extended value modulus = inverse value modulus := by
  have combines := sound.combines_mod fits value
  by_cases unit : IsUnit (value : ZMod modulus)
  · rw [inverseBy_val combines unit, inverse_val unit]
  · rw [inverseBy_eq_none combines unit, inverse_eq_none unit]

end Inverse

end ResidueAlgebra.Residue
