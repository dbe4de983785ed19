import Mathlib.Algebra.Order.BigOperators.GroupWithZero.List
import Mathlib.Data.List.Sort
import ResidueAlgebra.Proofs.Prime.Smooth
import ResidueAlgebra.Proofs.Residue.Ring

/-!
# The factorization and the primality of a word

A complete factorization lists exactly the prime divisors with their multiplicities, there is only
one for a number, and its value is the number again. `TrialDivision.factor_complete` says so of the
factorization found for any word, and `TrialDivision.isPrime_agrees_with_factor` that the wheel of
candidates and the factorization never disagree about a prime.
-/
set_option autoImplicit false
namespace ResidueAlgebra

/-! ## Values -/

/-- Every square that is formed belongs to the power, so a power that fits is found. -/
theorem Word.power_eq {limit base exponent : Nat} (positive : 0 < base)
    (fits : base ^ exponent < limit) : Word.power limit base exponent = .ok (base ^ exponent) := by
  induction exponent using Nat.strong_induction_on generalizing base with
  | _ exponent ih =>
      rw [Word.power]
      split
      · rename_i zero
        rw [zero, pow_zero] at fits ⊢
        exact Word.fit_of_lt fits
      · split
        · rename_i one
          rw [one, pow_one] at fits ⊢
          exact Word.fit_of_lt fits
        · have halves := Residue.pow_lowest_bit base exponent
          have rootLe : (base * base) ^ (exponent / 2) ≤ base ^ exponent := by
            rw [halves]
            exact Nat.le_mul_of_pos_left _ (Nat.pow_pos positive)
          have squareLe : base * base ≤ (base * base) ^ (exponent / 2) :=
            Nat.le_self_pow (by omega) _
          have root := ih (exponent / 2) (by omega) (Nat.mul_pos positive positive) (by omega)
          rw [Word.fit_of_lt (by omega), Outcome.ok_bind, root, Outcome.ok_bind]
          split
          · rename_i odd
            rw [odd, pow_one] at halves
            rw [← halves]
            exact Word.fit_of_lt fits
          · rename_i even
            have rest : exponent % 2 = 0 := by omega
            rw [rest, pow_zero, one_mul] at halves
            rw [halves]

namespace Factorization

/-- The product collected so far times the powers to come stays the same. -/
theorem foldlM_value_eq {entries : List PrimePower} {start : Nat} (nonzero : 0 < start)
    (positive : ∀ entry ∈ entries, 0 < entry.1)
    (fits : start * (entries.map fun entry => entry.1 ^ entry.2).prod < Word.wide) :
    entries.foldlM (fun product entry => do
        let power ← Word.power Word.wide entry.1 entry.2
        Word.fit Word.wide (product * power)) start
      = .ok (start * (entries.map fun entry => entry.1 ^ entry.2).prod) := by
  induction entries generalizing start with
  | nil => simp [pure, Except.pure]
  | cons entry rest ih =>
      obtain ⟨head, tail⟩ := List.forall_mem_cons.mp positive
      have powers : 0 < (rest.map fun entry => entry.1 ^ entry.2).prod := by
        refine List.prod_pos fun power member => ?_
        obtain ⟨later, present, rfl⟩ := List.mem_map.mp member
        exact Nat.pow_pos (tail later present)
      have grown : 0 < start * entry.1 ^ entry.2 := Nat.mul_pos nonzero (Nat.pow_pos head)
      rw [List.map_cons, List.prod_cons, ← Nat.mul_assoc] at fits ⊢
      have product : start * entry.1 ^ entry.2 < Word.wide :=
        Nat.lt_of_le_of_lt (Nat.le_mul_of_pos_right _ powers) fits
      have power : entry.1 ^ entry.2 < Word.wide :=
        Nat.lt_of_le_of_lt (Nat.le_mul_of_pos_left _ nonzero) product
      rw [List.foldlM_cons, Word.power_eq head power, Outcome.ok_bind, Word.fit_of_lt product,
        Outcome.ok_bind, ih grown tail fits]

theorem eq_of_exponent_eq {left right : Factorization}
    (keys : ∀ q, q ∈ left.primes ↔ q ∈ right.primes)
    (exponents : ∀ q, left.exponent q = right.exponent q) : left = right := by
  have irreflexive : Std.Irrefl fun left right : PrimePower => left.1 < right.1 :=
    ⟨fun entry => Nat.lt_irrefl entry.1⟩
  have antisymmetric : Std.Antisymm fun left right : PrimePower => left.1 < right.1 :=
    ⟨fun _ _ before after => absurd before (Nat.lt_asymm after)⟩
  have entries : left.entries = right.entries :=
    left.ascending.eq_of_mem_iff right.ascending fun ⟨q, exponent⟩ => by
      rw [mem_entries_iff, mem_entries_iff, keys, exponents]
  cases left
  cases right
  cases entries
  rfl

def single (prime : Nat) : Factorization :=
  ⟨[(prime, 1)], List.pairwise_singleton _ _⟩

theorem exponent_single (prime q : Nat) :
    (single prime).exponent q = if prime = q then 1 else 0 :=
  PrimePower.exponentIn_cons prime 1 [] q

theorem single_of {prime : Nat} (isPrime : prime.Prime) : (single prime).Of prime where
  exponent_eq q := by
    rw [exponent_single, isPrime.factorization, Finsupp.single_apply]
  positive := by simp [Positive, single]

namespace Of

variable {factorization : Factorization} {n : Nat}

theorem unique {other : Factorization} (complete : factorization.Of n) (also : other.Of n) :
    factorization = other := by
  have exponents : ∀ q, factorization.exponent q = other.exponent q := fun q => by
    rw [complete.exponent_eq, also.exponent_eq]
  refine eq_of_exponent_eq (fun q => ?_) exponents
  rw [complete.positive.mem_primes_iff, also.positive.mem_primes_iff, exponents]

theorem entries_eq_single_iff (complete : factorization.Of n) :
    factorization.entries = [(n, 1)] ↔ n.Prime := by
  constructor
  · intro entries
    have member : (n, 1) ∈ factorization.entries := by simp [entries]
    exact complete.prime_of_mem member
  · intro prime
    rw [complete.unique (single_of prime), single]

theorem value_eq (complete : factorization.Of n) (nonzero : n ≠ 0) (fits : n < Word.wide) :
    factorization.value = .ok n := by
  have product := complete.prod_entries nonzero
  have positive : ∀ entry ∈ factorization.entries, 0 < entry.1 :=
    fun entry member => (complete.prime_of_mem member).pos
  have folded := foldlM_value_eq Nat.one_pos positive (by rwa [one_mul, product])
  rwa [one_mul, product] at folded

end Of

end Factorization

namespace TrialDivision

/-! ## Trial division on words -/

/-- Every positive word is factored without leaving its words. The entries are its prime divisors
with their multiplicities, none is missing, and the value of the factorization is the word. -/
theorem factor_complete {n : Nat} (positive : 1 ≤ n) (fits : n < Word.long) :
    ∃ factorization, factor n = .ok factorization ∧
      (∀ q exponent, (q, exponent) ∈ factorization.entries →
        q.Prime ∧ 1 ≤ exponent ∧ q ^ exponent ∣ n ∧ ¬ q ^ (exponent + 1) ∣ n) ∧
      (∀ q, q.Prime → q ∣ n → q ∈ factorization.primes) ∧
      factorization.value = .ok n := by
  have nonzero : n ≠ 0 := by omega
  have wide : n < Word.wide := Nat.lt_trans fits (by decide)
  obtain ⟨factorization, found, complete⟩ := factor_spec fits
  refine ⟨factorization, found, ?_, ?_, complete.value_eq nonzero wide⟩
  · intro q exponent member
    have prime := complete.prime_of_mem member
    obtain ⟨present, rfl⟩ := (complete.mem_entries_iff q exponent).mp member
    exact ⟨prime, present, Nat.ordProj_dvd n q, Nat.pow_succ_factorization_not_dvd nonzero prime⟩
  · intro q prime divides
    exact (complete.mem_primes_iff nonzero q).mpr ⟨prime, divides⟩

/-- The largest word is a product of seven primes, among them three. -/
theorem factor_complete_largest_word :
    ∃ factorization, factor 18446744073709551615 = .ok factorization ∧
      (3, 1) ∈ factorization.entries ∧ factorization.value = .ok 18446744073709551615 := by
  obtain ⟨factorization, found, multiplicities, complete, value⟩ :=
    @factor_complete 18446744073709551615 (by decide) (by decide)
  have three := complete 3 Nat.prime_three (by decide)
  obtain ⟨⟨q, exponent⟩, member, rfl⟩ : ∃ entry ∈ factorization.entries, entry.1 = 3 :=
    List.mem_map.mp three
  obtain ⟨-, positive, divides, -⟩ := multiplicities _ _ member
  have once : exponent < 2 := by
    by_contra twice
    have nine : 3 ^ 2 ∣ 18446744073709551615 := (pow_dvd_pow 3 (by omega)).trans divides
    exact absurd nine (by decide)
  obtain rfl : exponent = 1 := by omega
  exact ⟨factorization, found, member, value⟩

/-- The primality test answers for every word, with the truth, and yes exactly when the
factorization is the word itself with exponent one. -/
theorem isPrime_agrees_with_factor {n : Nat} (fits : n < Word.long) :
    ∃ answer factorization, isPrime n = .ok answer ∧ factor n = .ok factorization ∧
      (answer = true ↔ n.Prime) ∧ (answer = true ↔ factorization.entries = [(n, 1)]) := by
  obtain ⟨factorization, found, complete⟩ := factor_spec fits
  have truthful : decide n.Prime = true ↔ n.Prime := decide_eq_true_iff
  refine ⟨decide n.Prime, factorization, isPrime_eq fits, found, truthful, ?_⟩
  rw [truthful, complete.entries_eq_single_iff]

/-- Seven, the only prime divisor of forty-nine, is met as the second candidate of a pair. -/
theorem isPrime_agrees_with_factor_second_candidate :
    isPrime 49 = .ok false ∧ ¬ Nat.Prime 49 ∧
      ∃ factorization, factor 49 = .ok factorization ∧ factorization.entries ≠ [(49, 1)] := by
  have tested : isPrime 49 = .ok false := by decide +kernel
  obtain ⟨answer, factorization, answered, found, prime, single⟩ :=
    @isPrime_agrees_with_factor 49 (by decide)
  cases answered.symm.trans tested
  exact ⟨tested, fun yes => Bool.false_ne_true (prime.mpr yes), factorization, found,
    fun yes => Bool.false_ne_true (single.mpr yes)⟩

end TrialDivision

end ResidueAlgebra
