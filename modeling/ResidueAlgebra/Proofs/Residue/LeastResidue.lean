import Mathlib.Data.Int.ModEq
import ResidueAlgebra.Proofs.Residue.Ring

/-!
# Exact arithmetic in machine words

The operations on residues, stated without the ring of residues: for operands anywhere in a word,
reduced or not, the answer is the least non-negative residue of the sum, difference, product or power
of the integers. An answer is only reached when every intermediate value has passed the check of its
word, so that it is there says that nothing overflows on the way.
-/
set_option autoImplicit false
namespace ResidueAlgebra.Residue

variable {modulus : Nat}

/-- The outcome is the least non-negative residue of the value. -/
def Computes (modulus : Nat) (outcome : Outcome Nat) (value : Int) : Prop :=
  ∃ residue : Nat, outcome = .ok residue ∧ residue < modulus ∧ (residue : Int) ≡ value [ZMOD modulus]

theorem Computes.eq_ok {outcome : Outcome Nat} {value : Int}
    (computes : Computes modulus outcome value) :
    outcome = .ok (value % (modulus : Int)).toNat := by
  obtain ⟨residue, rfl, small, congruent⟩ := computes
  rw [← congruent.eq, Int.emod_eq_of_lt (Int.natCast_nonneg residue) (by omega), Int.toNat_natCast]

theorem computes_val [NeZero modulus] {outcome : Outcome Nat} {residue : ZMod modulus}
    (answers : outcome = .ok residue.val) {value : Int} (same : (value : ZMod modulus) = residue) :
    Computes modulus outcome value := by
  refine ⟨residue.val, answers, ZMod.val_lt residue, ?_⟩
  rw [← ZMod.intCast_eq_intCast_iff, Int.cast_natCast, ZMod.natCast_zmod_val, same]

/-- Sums, differences, products and powers of words are exact for every modulus that fits a word, and
so is the residue of a signed number. The operands need not be reduced. -/
theorem arithmetic_exact (positive : 0 < modulus) (fits : modulus < Word.long) :
    (∀ left < Word.long, ∀ right < Word.long,
      Computes modulus (add left right modulus) (left + right) ∧
      Computes modulus (sub left right modulus) (left - right) ∧
      Computes modulus (mul left right modulus) (left * right)) ∧
    (∀ base exponent, Computes modulus (pow base exponent modulus) (base ^ exponent)) ∧
    Computes modulus (pow 0 0 modulus) 1 ∧
    ∀ value : Int, Computes modulus (ofInt value modulus) value := by
  have : NeZero modulus := ⟨Nat.ne_of_gt positive⟩
  have power (base exponent : Nat) :
      Computes modulus (pow base exponent modulus) (base ^ exponent) :=
    computes_val (pow_val fits base exponent) (by push_cast; rfl)
  refine ⟨fun left leftFits right rightFits => ⟨?_, ?_, ?_⟩, power, ?_, fun value => ?_⟩
  · exact computes_val (add_val leftFits rightFits) (by push_cast; rfl)
  · exact computes_val (sub_val left right) (by push_cast; rfl)
  · exact computes_val (mul_val leftFits rightFits) (by push_cast; rfl)
  · simpa using power 0 0
  · exact computes_val (ofInt_val fits value) rfl

/-- The largest prime that fits a word against operands at the end of the word, and modulo one. -/
theorem arithmetic_exact_at_limits :
    let prime := 18446744073709551557
    let last := 18446744073709551615
    (add last last prime = .ok 116 ∧ sub 0 last prime = .ok (prime - 58) ∧
      mul last last prime = .ok 3364 ∧ pow last 2 prime = .ok 3364 ∧
      ofInt (-9223372036854775808) prime = .ok 9223372036854775749) ∧
    pow 0 0 prime = .ok 1 ∧ pow 0 0 1 = .ok 0 := by
  intro prime last
  obtain ⟨binary, power, one, signed⟩ := @arithmetic_exact prime (by decide) (by decide)
  obtain ⟨sum, _, product⟩ := binary last (by decide) last (by decide)
  have difference := (binary 0 (by decide) last (by decide)).2.1
  have trivial := (@arithmetic_exact 1 (by decide) (by decide)).2.2.1
  refine ⟨⟨?_, ?_, ?_, ?_, ?_⟩, ?_, ?_⟩
  · exact sum.eq_ok.trans (by decide +kernel)
  · exact difference.eq_ok.trans (by decide +kernel)
  · exact product.eq_ok.trans (by decide +kernel)
  · exact (power last 2).eq_ok.trans (by decide +kernel)
  · exact (signed (-9223372036854775808)).eq_ok.trans (by decide +kernel)
  · exact one.eq_ok.trans (by decide +kernel)
  · exact trivial.eq_ok.trans (by decide +kernel)

end ResidueAlgebra.Residue
