import ResidueAlgebra.Proofs.IndexCalculus.Target

/-!
# Two views of a factorization

A row of the relation matrix lists the exponents of a factorization in the order of the base; a sum
of logarithms runs through the entries in the order of their primes and looks each of them up in the
base. When the number splits over the base both views have the same terms, so the sum is the product
of the row and the logarithms.
-/
set_option autoImplicit false
namespace ResidueAlgebra

namespace FactorBase

variable {base : FactorBase} {factorization : Factorization}

theorem map_logOf (valid : base.Valid) {logs : List Nat}
    (length : logs.length = base.primes.length) : base.primes.map (base.logOf logs) = logs := by
  apply List.ext_getElem
  · rw [List.length_map, length]
  · intro index inside inLogs
    rw [List.length_map] at inside
    rw [List.getElem_map]
    obtain ⟨found, bound, located, same⟩ := indexOf_of_mem (List.getElem_mem inside)
    obtain rfl := (List.Nodup.getElem_inj_iff valid.nodup).mp same
    rw [logOf, located, Option.map_some, Option.getD_some, List.getD_eq_getElem _ _ inLogs]

theorem prod_eq_iff_splits {n : Nat} (valid : base.Valid) (complete : factorization.Of n)
    (nonzero : n ≠ 0) :
    (List.zipWith (· ^ ·) base.primes (base.exponentVector factorization)).prod = n ↔
      base.splits factorization = true := by
  have powers : List.zipWith (· ^ ·) base.primes (base.exponentVector factorization)
      = base.primes.map fun q => q ^ factorization.exponent q := by
    rw [exponentVector, List.zipWith_map_right, List.zipWith_self]
  rw [powers]
  constructor
  · intro product
    rw [complete.splits_iff nonzero base]
    intro q prime divides
    rw [← product] at divides
    obtain ⟨power, member, dividesPower⟩ := (Prime.dvd_prod_iff prime.prime).mp divides
    obtain ⟨key, inBase, rfl⟩ := List.mem_map.mp member
    have same := (Nat.prime_dvd_prime_iff_eq prime (valid.prime key inBase)).mp
      (prime.dvd_of_dvd_pow dividesPower)
    rwa [same]
  · exact complete.prod_base nonzero valid

/-- Keys outside a factorization have exponent zero, so a sum over its entries is a sum over any base
that it splits over, and that is the product of its row with the logarithms. -/
theorem sum_entries_eq_dot (valid : base.Valid) (splits : base.splits factorization = true)
    {logs : List Nat} (length : logs.length = base.primes.length) :
    (factorization.entries.map fun entry => entry.2 * base.logOf logs entry.1).sum
      = (List.zipWith (· * ·) (base.exponentVector factorization) logs).sum := by
  have covered : factorization.primes.toFinset ⊆ base.primes.toFinset := fun q member =>
    List.mem_toFinset.mpr (mem_of_splits splits (List.mem_toFinset.mp member))
  calc (factorization.entries.map fun entry => entry.2 * base.logOf logs entry.1).sum
      = (factorization.primes.map fun q => factorization.exponent q * base.logOf logs q).sum := by
        rw [factorization.map_entries fun q exponent => exponent * base.logOf logs q]
    _ = ∑ q ∈ factorization.primes.toFinset, factorization.exponent q * base.logOf logs q :=
        (List.sum_toFinset _ factorization.primes_nodup).symm
    _ = ∑ q ∈ base.primes.toFinset, factorization.exponent q * base.logOf logs q := by
        refine Finset.sum_subset covered fun q _ outside => ?_
        rw [Factorization.exponent_eq_zero fun present => outside (List.mem_toFinset.mpr present),
          Nat.zero_mul]
    _ = (base.primes.map fun q => factorization.exponent q * base.logOf logs q).sum :=
        List.sum_toFinset _ valid.nodup
    _ = (List.zipWith (· * ·) (base.exponentVector factorization) logs).sum := by
        conv_rhs => rw [← map_logOf valid length]
        rw [exponentVector, List.zipWith_map, List.zipWith_self]

end FactorBase

namespace LogSolver

variable {solver : LogSolver} {n : Nat}

theorem sumOfLogs_eq_dot {m : Nat} [NeZero m] (fits : m < Word.long) (valid : solver.base.Valid)
    {factorization : Factorization} (small : ∀ q, factorization.exponent q < Word.short)
    (splits : solver.base.splits factorization = true) {logs : List Nat}
    (length : logs.length = solver.base.primes.length) (below : ∀ log ∈ logs, log < m) :
    solver.sumOfLogs factorization logs m
        = .ok ((List.zipWith (· * ·) (solver.base.exponentVector factorization) logs).sum % m) ∧
      Residue.dot m (solver.base.exponentVector factorization) logs
        = .ok ((List.zipWith (· * ·) (solver.base.exponentVector factorization) logs).sum % m) := by
  constructor
  · have whole : (factorization.entries.map fun entry =>
          ((entry.2 * solver.base.logOf logs entry.1 : Nat) : ZMod m)).sum
        = ((factorization.entries.map fun entry =>
          entry.2 * solver.base.logOf logs entry.1).sum : Nat) := by
      rw [Nat.cast_list_sum, List.map_map]
      rfl
    rw [sumOfLogs_val fits length below, whole, FactorBase.sum_entries_eq_dot valid splits length,
      ZMod.val_natCast]
  · have rowFits : ∀ entry ∈ solver.base.exponentVector factorization, entry < Word.long := by
      intro entry member
      obtain ⟨q, _, rfl⟩ := List.mem_map.mp member
      exact Nat.lt_trans (small q) (by decide)
    rw [Residue.dot_val fits rowFits fun log member => Nat.lt_trans (below log member) fits,
      ← ZMod.val_natCast, Nat.cast_list_sum, List.map_zipWith, List.zip_eq_zipWith,
      List.map_zipWith]
    simp only [Nat.cast_mul]

/-- For the factorization of a positive word, splitting over an admitted base, having no prime
divisor outside it and being the product of it are the same; and then the sum of logarithms that the
solver computes is the row of the number times the logarithms. -/
theorem splits_agrees_with_row {primes : List Nat}
    (admitted : FactorBase.ofPrimes primes = .ok solver.base) (positive : 1 ≤ n)
    (fits : n < Word.long) :
    ∃ factorization, TrialDivision.factor n = .ok factorization ∧
      (solver.base.splits factorization = true ↔
        ∀ q, q.Prime → q ∣ n → q ∈ solver.base.primes) ∧
      (solver.base.splits factorization = true ↔
        (List.zipWith (· ^ ·) solver.base.primes
          (solver.base.exponentVector factorization)).prod = n) ∧
      (solver.base.splits factorization = true → ∀ m logs, 1 ≤ m → m < Word.long →
        logs.length = solver.base.size → (∀ log ∈ logs, log < m) →
        solver.sumOfLogs factorization logs m
            = .ok ((List.zipWith (· * ·) (solver.base.exponentVector factorization) logs).sum % m) ∧
          Residue.dot m (solver.base.exponentVector factorization) logs
            = solver.sumOfLogs factorization logs m) := by
  have nonzero : n ≠ 0 := by omega
  have valid := FactorBase.valid_of_ofPrimes admitted
  obtain ⟨factorization, found, complete⟩ := TrialDivision.factor_spec fits
  refine ⟨factorization, found, complete.splits_iff nonzero solver.base,
    (FactorBase.prod_eq_iff_splits valid complete nonzero).symm, ?_⟩
  intro splits m logs mPositive mFits length below
  have : NeZero m := ⟨by omega⟩
  have small : ∀ q, factorization.exponent q < Word.short := fun q => by
    rw [complete.exponent_eq]
    exact TrialDivision.factorization_lt_short nonzero fits q
  obtain ⟨summed, multiplied⟩ := sumOfLogs_eq_dot mFits valid small splits length below
  exact ⟨summed, multiplied.trans summed.symm⟩

/-- Modulo six, where no exponent of 360 but that of five is a unit. -/
theorem splits_agrees_with_row_zero_divisors :
    ∃ factorization, TrialDivision.factor 360 = .ok factorization ∧
      (∀ q, q.Prime → q ∣ 360 → q ∈ [2, 3, 5]) ∧
      FactorBase.exponentVector ⟨[2, 3, 5]⟩ factorization = [3, 2, 1] ∧
      sumOfLogs ⟨⟨[2, 3, 5]⟩, none, none, .fresh⟩ factorization [1, 4, 5] 6 = .ok 4 := by
  have admitted : FactorBase.ofPrimes [2, 3, 5]
      = .ok (mk ⟨[2, 3, 5]⟩ none none .fresh).base := by
    decide +kernel
  have computed : TrialDivision.factor 360 = .ok ⟨[(2, 3), (3, 2), (5, 1)], by decide⟩ := by
    decide +kernel
  obtain ⟨factorization, found, covered, _, sums⟩ :=
    splits_agrees_with_row (n := 360) admitted (by decide) (by decide)
  cases computed.symm.trans found
  have splits : FactorBase.splits ⟨[2, 3, 5]⟩ ⟨[(2, 3), (3, 2), (5, 1)], by decide⟩ = true := by
    decide
  exact ⟨_, found, covered.mp splits, rfl,
    (sums splits 6 [1, 4, 5] (by decide) (by decide) rfl (by decide)).1⟩

end LogSolver

end ResidueAlgebra
