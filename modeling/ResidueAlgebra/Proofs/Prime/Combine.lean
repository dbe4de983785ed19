import ResidueAlgebra.Proofs.Prime.Factor

/-!
# Combined factorizations

Combining adds the exponents of two factorizations key by key. A factorization is determined by its
keys and their exponents, so the order of the two does not matter; the values multiply as far as they
fit their words, and the factorization of a product is that of its factors combined.
-/
set_option autoImplicit false
namespace ResidueAlgebra

/-! ## Values that were found -/

theorem Word.eq_of_power {limit base exponent result : Nat}
    (success : Word.power limit base exponent = .ok result) : result = base ^ exponent := by
  induction exponent using Nat.strong_induction_on generalizing base result with
  | _ exponent ih =>
      rw [Word.power] at success
      split at success
      · rename_i zero
        rw [zero, pow_zero, Word.eq_of_fit success]
      · split at success
        · rename_i one
          rw [one, pow_one, Word.eq_of_fit success]
        · obtain ⟨square, squared, success⟩ := Outcome.bind_eq_ok success
          obtain ⟨root, rooted, success⟩ := Outcome.bind_eq_ok success
          have rootEq := ih (exponent / 2) (by omega) rooted
          rw [Word.eq_of_fit squared] at rootEq
          rw [Residue.pow_lowest_bit base exponent, ← rootEq]
          split at success
          · rename_i odd
            rw [odd, pow_one, Word.eq_of_fit success]
          · rename_i even
            have rest : exponent % 2 = 0 := by omega
            cases success
            rw [rest, pow_zero, one_mul]

namespace Factorization

variable {left right total : Factorization}

theorem foldlM_value_sound {entries : List PrimePower} {start result : Nat}
    (success : entries.foldlM (fun product entry => do
        let power ← Word.power Word.wide entry.1 entry.2
        Word.fit Word.wide (product * power)) start = .ok result) :
    result = start * (entries.map fun entry => entry.1 ^ entry.2).prod := by
  induction entries generalizing start with
  | nil =>
      cases success
      simp
  | cons entry rest ih =>
      rw [List.foldlM_cons] at success
      obtain ⟨product, multiplied, success⟩ := Outcome.bind_eq_ok success
      obtain ⟨power, raised, fitted⟩ := Outcome.bind_eq_ok multiplied
      rw [ih success, Word.eq_of_fit fitted, Word.eq_of_power raised, List.map_cons, List.prod_cons,
        Nat.mul_assoc]

theorem eq_prod_of_value {factorization : Factorization} {value : Nat}
    (success : factorization.value = .ok value) {keys : Finset Nat}
    (covers : ∀ q ∈ factorization.primes, q ∈ keys) :
    value = ∏ q ∈ keys, q ^ factorization.exponent q := by
  have inside : factorization.primes.toFinset ⊆ keys := fun q member =>
    covers q (List.mem_toFinset.mp member)
  rw [foldlM_value_sound success, one_mul, factorization.map_entries fun q exponent => q ^ exponent,
    ← List.prod_toFinset _ factorization.primes_nodup]
  refine Finset.prod_subset inside fun q _ absent => ?_
  rw [exponent_eq_zero fun present => absent (List.mem_toFinset.mpr present), pow_zero]

/-! ## Sums of exponents -/

/-- The keys of `total` are those of both sides, and the exponents of each key are added. -/
structure SumOf (left right total : Factorization) : Prop where
  exponent_eq : ∀ q, total.exponent q = left.exponent q + right.exponent q
  mem_primes_iff : ∀ q, q ∈ total.primes ↔ q ∈ left.primes ∨ q ∈ right.primes

theorem addPower_primes {prime power : Nat} (success : left.addPower prime power = .ok total)
    (q : Nat) : q ∈ total.primes ↔ q = prime ∨ q ∈ left.primes := by
  unfold addPower at success
  split at success
  · rename_i entries inserted
    cases success
    exact PrimePower.insert_keys inserted q
  · cases success

/-- Adding one entry after the other adds the exponents, because no key comes twice. -/
theorem absorb_spec {powers : List PrimePower} (ordered : PrimePower.Ascending powers)
    (room : ∀ q, left.exponent q + PrimePower.exponentIn powers q < Word.short) :
    ∃ total, left.absorb powers = (total, .ok ()) ∧
      (∀ q, total.exponent q = left.exponent q + PrimePower.exponentIn powers q) ∧
      ∀ q, q ∈ total.primes ↔ q ∈ left.primes ∨ q ∈ powers.map Prod.fst := by
  induction powers generalizing left with
  | nil => exact ⟨left, rfl, fun q => rfl, by simp⟩
  | cons entry rest ih =>
      obtain ⟨prime, power⟩ := entry
      obtain ⟨later, tailOrdered⟩ := List.pairwise_cons.mp ordered
      have once : PrimePower.exponentIn rest prime = 0 :=
        PrimePower.exponentIn_eq_zero fun entry member => Nat.ne_of_gt (later entry member)
      have split : ∀ q, PrimePower.exponentIn ((prime, power) :: rest) q
          = (if q = prime then power else 0) + PrimePower.exponentIn rest q := by
        intro q
        rw [PrimePower.exponentIn_cons]
        by_cases same : q = prime
        · simp [same, once]
        · simp [same, Ne.symm same]
      have own := room prime
      rw [split, if_pos rfl, once, Nat.add_zero] at own
      obtain ⟨grown, added, exponents, _⟩ := left.addPower_spec own
      have keys := addPower_primes added
      obtain ⟨total, absorbed, sums, union⟩ := @ih grown tailOrdered fun q => by
        rw [exponents, Nat.add_assoc, ← split]
        exact room q
      refine ⟨total, ?_, fun q => ?_, fun q => ?_⟩
      · rw [absorb, added]
        exact absorbed
      · rw [sums, exponents, split, Nat.add_assoc]
      · rw [union, keys, List.map_cons, List.mem_cons, or_assoc, or_left_comm]

theorem combine_spec (left right : Factorization)
    (room : ∀ q, left.exponent q + right.exponent q < Word.short) :
    ∃ total, left.combine right = .ok total ∧ left.SumOf right total := by
  obtain ⟨total, absorbed, exponents, keys⟩ := absorb_spec right.ascending room
  exact ⟨total, by rw [combine, absorbed], exponents, keys⟩

namespace SumOf

theorem symm (sum : left.SumOf right total) : right.SumOf left total where
  exponent_eq q := by rw [sum.exponent_eq, Nat.add_comm]
  mem_primes_iff q := by rw [sum.mem_primes_iff, or_comm]

theorem unique {other : Factorization} (sum : left.SumOf right total)
    (also : left.SumOf right other) : total = other :=
  eq_of_exponent_eq (fun q => by rw [sum.mem_primes_iff, also.mem_primes_iff])
    fun q => by rw [sum.exponent_eq, also.exponent_eq]

theorem value_eq (sum : left.SumOf right total) {leftValue rightValue value : Nat}
    (leftFound : left.value = .ok leftValue) (rightFound : right.value = .ok rightValue)
    (found : total.value = .ok value) : value = leftValue * rightValue := by
  have leftKeys : ∀ q ∈ left.primes, q ∈ total.primes.toFinset := fun q member =>
    List.mem_toFinset.mpr ((sum.mem_primes_iff q).mpr (Or.inl member))
  have rightKeys : ∀ q ∈ right.primes, q ∈ total.primes.toFinset := fun q member =>
    List.mem_toFinset.mpr ((sum.mem_primes_iff q).mpr (Or.inr member))
  calc value = ∏ q ∈ total.primes.toFinset, q ^ total.exponent q :=
        eq_prod_of_value found fun q => List.mem_toFinset.mpr
    _ = ∏ q ∈ total.primes.toFinset, q ^ left.exponent q * q ^ right.exponent q :=
        Finset.prod_congr rfl fun q _ => by rw [sum.exponent_eq, pow_add]
    _ = leftValue * rightValue := by
        rw [Finset.prod_mul_distrib, ← eq_prod_of_value leftFound leftKeys,
          ← eq_prod_of_value rightFound rightKeys]

theorem of_mul (sum : left.SumOf right total) {a b : Nat} (leftOf : left.Of a)
    (rightOf : right.Of b) (aNonzero : a ≠ 0) (bNonzero : b ≠ 0) : total.Of (a * b) where
  exponent_eq q := by
    rw [sum.exponent_eq, leftOf.exponent_eq, rightOf.exponent_eq,
      Nat.factorization_mul aNonzero bNonzero, Finsupp.add_apply]
  positive := by
    rintro ⟨q, exponent⟩ member
    obtain ⟨present, rfl⟩ := Factorization.mem_entries_iff.mp member
    rw [sum.mem_primes_iff, leftOf.positive.mem_primes_iff, rightOf.positive.mem_primes_iff]
      at present
    dsimp only
    rw [sum.exponent_eq]
    omega

end SumOf

/-- Combining adds exponents, in either order, and multiplies values as far as all of them are
found; and the factorization of a product of words is that of its factors combined. -/
theorem combine_adds_exponents :
    (∀ left right : Factorization,
      (∀ q, left.exponent q + right.exponent q < Word.short) →
      ∃ total, left.combine right = .ok total ∧ right.combine left = .ok total ∧
        (∀ q, total.exponent q = left.exponent q + right.exponent q) ∧
        ∀ leftValue rightValue value, left.value = .ok leftValue → right.value = .ok rightValue →
          total.value = .ok value → value = leftValue * rightValue) ∧
    ∀ a b, 1 ≤ a → 1 ≤ b → a * b < Word.long →
      ∃ left right product, TrialDivision.factor a = .ok left ∧
        TrialDivision.factor b = .ok right ∧ TrialDivision.factor (a * b) = .ok product ∧
        left.combine right = .ok product := by
  constructor
  · intro left right room
    obtain ⟨total, combined, sum⟩ := combine_spec left right room
    obtain ⟨other, swapped, also⟩ := combine_spec right left fun q => by
      rw [Nat.add_comm]
      exact room q
    cases sum.unique also.symm
    exact ⟨total, combined, swapped, sum.exponent_eq, fun _ _ _ => sum.value_eq⟩
  · intro a b aPositive bPositive fits
    have aNonzero : a ≠ 0 := by omega
    have bNonzero : b ≠ 0 := by omega
    have nonzero : a * b ≠ 0 := Nat.mul_ne_zero aNonzero bNonzero
    have aFits : a < Word.long := Nat.lt_of_le_of_lt (Nat.le_mul_of_pos_right a bPositive) fits
    have bFits : b < Word.long := Nat.lt_of_le_of_lt (Nat.le_mul_of_pos_left b aPositive) fits
    obtain ⟨left, leftFound, leftOf⟩ := TrialDivision.factor_spec aFits
    obtain ⟨right, rightFound, rightOf⟩ := TrialDivision.factor_spec bFits
    obtain ⟨product, found, productOf⟩ := TrialDivision.factor_spec fits
    obtain ⟨total, combined, sum⟩ := combine_spec left right fun q => by
      rw [leftOf.exponent_eq, rightOf.exponent_eq, ← Finsupp.add_apply,
        ← Nat.factorization_mul aNonzero bNonzero]
      exact TrialDivision.factorization_lt_short nonzero fits q
    cases (sum.of_mul leftOf rightOf aNonzero bNonzero).unique productOf
    exact ⟨left, right, product, leftFound, rightFound, found, combined⟩

/-- Five with a spare key for two, and 45; and the words 20 and 45, which share a prime. -/
theorem combine_adds_exponents_shared_prime :
    ∃ left right total : Factorization, left.entries = [(2, 0), (5, 1)] ∧
      right.entries = [(3, 2), (5, 1)] ∧ left.combine right = .ok total ∧
      right.combine left = .ok total ∧ total.exponent 5 = 2 ∧ total.value = .ok (5 * 45) ∧
      ∃ twenty fortyFive product, TrialDivision.factor 20 = .ok twenty ∧
        TrialDivision.factor 45 = .ok fortyFive ∧ TrialDivision.factor 900 = .ok product ∧
        twenty.combine fortyFive = .ok product := by
  obtain ⟨sums, products⟩ := combine_adds_exponents
  have room : ∀ q, exponent ⟨[(2, 0), (5, 1)], by decide⟩ q
      + exponent ⟨[(3, 2), (5, 1)], by decide⟩ q < Word.short := by
    intro q
    show PrimePower.exponentIn [(2, 0), (5, 1)] q + PrimePower.exponentIn [(3, 2), (5, 1)] q
      < Word.short
    have none : PrimePower.exponentIn [] q = 0 := rfl
    simp only [PrimePower.exponentIn_cons, none, Word.short]
    split_ifs <;> omega
  have computed : combine ⟨[(2, 0), (5, 1)], by decide⟩ ⟨[(3, 2), (5, 1)], by decide⟩
      = .ok ⟨[(2, 0), (3, 2), (5, 2)], by decide⟩ := by
    decide +kernel
  have found : value ⟨[(2, 0), (3, 2), (5, 2)], by decide⟩ = .ok 225 := by decide +kernel
  obtain ⟨total, combined, swapped, exponents, values⟩ := sums _ _ room
  cases computed.symm.trans combined
  have multiplied := values 5 45 225 (by decide +kernel) (by decide +kernel) found
  rw [multiplied] at found
  exact ⟨_, _, _, rfl, rfl, combined, swapped, exponents 5, found,
    products 20 45 (by decide) (by decide) (by decide)⟩

end Factorization

end ResidueAlgebra
