import ResidueAlgebra.Prime.FactorBase
import ResidueAlgebra.Proofs.Prime.Complete

/-!
# Numbers that split over a factor base

A factor base that is admitted consists of primes in strictly increasing order. A number splits over
it when all its prime divisors belong to the base, and is then the product of the base with the
exponents of its factorization.
-/
set_option autoImplicit false
namespace ResidueAlgebra

/-! ## Admitted bases -/

namespace FactorBase

structure Valid (base : FactorBase) : Prop where
  nonempty : base.primes ≠ []
  prime : ∀ q ∈ base.primes, q.Prime
  increasing : base.primes.Pairwise (· < ·)

theorem prime_of_firstComposite {entries : List Nat} (success : firstComposite entries = .ok none) :
    ∀ q ∈ entries, q.Prime := by
  induction entries with
  | nil => simp
  | cons entry rest ih =>
      unfold firstComposite at success
      obtain ⟨answer, tested, success⟩ := Outcome.bind_eq_ok success
      cases answer with
      | false => cases success
      | true =>
          intro q member
          rcases List.mem_cons.mp member with rfl | later
          · exact (TrialDivision.isPrime_sound tested).mp rfl
          · exact ih success q later

theorem pairwise_of_increasing {entries : List Nat}
    (ordered : FactorBase.increasing entries = true) :
    entries.Pairwise (· < ·) := by
  rw [← List.isChain_iff_pairwise]
  fun_induction FactorBase.increasing entries with
  | case1 first second rest ih =>
      rw [Bool.and_eq_true, decide_eq_true_eq] at ordered
      exact List.IsChain.cons_cons ordered.1 (ih ordered.2)
  | case2 entries short =>
      match entries, short with
      | [], _ => exact List.IsChain.nil
      | [entry], _ => exact List.IsChain.singleton entry
      | first :: second :: rest, short => exact absurd rfl (short first second rest)

theorem valid_of_ofPrimes {primes : List Nat} {base : FactorBase}
    (accepted : ofPrimes primes = .ok base) : base.Valid := by
  unfold ofPrimes at accepted
  split at accepted
  · cases accepted
  · rename_i filled
    obtain ⟨composite, searched, accepted⟩ := Outcome.bind_eq_ok accepted
    cases composite with
    | some entry => cases accepted
    | none =>
        dsimp only at accepted
        split at accepted
        · rename_i ordered
          cases accepted
          exact ⟨by simpa using filled, prime_of_firstComposite searched,
            pairwise_of_increasing ordered⟩
        · cases accepted

theorem firstComposite_total {entries : List Nat} (fit : ∀ entry ∈ entries, entry < Word.long) :
    ∃ found, firstComposite entries = .ok found := by
  induction entries with
  | nil => exact ⟨none, rfl⟩
  | cons entry rest ih =>
      obtain ⟨entryFits, restFit⟩ := List.forall_mem_cons.mp fit
      rw [firstComposite, TrialDivision.isPrime_eq entryFits, Outcome.ok_bind]
      split
      · exact ih restFit
      · exact ⟨some entry, rfl⟩

theorem ofPrimes_answered {primes : List Nat} (fit : ∀ entry ∈ primes, entry < Word.long) :
    (ofPrimes primes).Answered := by
  intro cause breached
  obtain ⟨found, searched⟩ := firstComposite_total fit
  rw [ofPrimes, searched] at breached
  split at breached
  · cases breached
  · cases found with
    | some entry => cases breached
    | none =>
        dsimp only [Outcome.ok_bind] at breached
        split at breached
        · cases breached
        · cases breached

theorem Valid.nodup {base : FactorBase} (valid : base.Valid) : base.primes.Nodup :=
  valid.increasing.imp fun before => Nat.ne_of_lt before

theorem indexOf_of_mem {base : FactorBase} {q : Nat} (member : q ∈ base.primes) :
    ∃ index, ∃ inside : index < base.primes.length,
      base.indexOf q = some index ∧ base.primes[index] = q := by
  have found : (base.primes.findIdx? (· == q)).isSome = true := by
    rw [List.findIdx?_isSome]
    simpa using member
  obtain ⟨index, located⟩ := Option.isSome_iff_exists.mp found
  obtain ⟨inside, same, _⟩ := List.findIdx?_eq_some_iff_getElem.mp located
  exact ⟨index, inside, located, by simpa using same⟩

end FactorBase

/-! ## Splitting -/

def FactorBase.Covers (base : FactorBase) (n : Nat) : Prop :=
  ∀ q, q.Prime → q ∣ n → q ∈ base.primes

theorem FactorBase.mem_of_splits {base : FactorBase} {factorization : Factorization}
    (splits : base.splits factorization = true) {q : Nat} (member : q ∈ factorization.primes) :
    q ∈ base.primes := by
  rw [FactorBase.splits, List.all_eq_true] at splits
  have contained := splits q member
  rwa [contains, List.contains_iff_mem] at contained

theorem prod_pow_factorization {n : Nat} {numbers : List Nat} (nonzero : n ≠ 0)
    (distinct : numbers.Nodup) (covers : ∀ q, q.Prime → q ∣ n → q ∈ numbers) :
    (numbers.map fun q => q ^ n.factorization q).prod = n := by
  have support : n.factorization.support ⊆ numbers.toFinset := by
    intro q member
    rw [Nat.support_factorization] at member
    exact List.mem_toFinset.mpr
      (covers q (Nat.prime_of_mem_primeFactors member) (Nat.dvd_of_mem_primeFactors member))
  calc (numbers.map fun q => q ^ n.factorization q).prod
      = ∏ q ∈ numbers.toFinset, q ^ n.factorization q := (List.prod_toFinset _ distinct).symm
    _ = n.factorization.prod fun q exponent => q ^ exponent :=
        (Finsupp.prod_of_support_subset _ support _ fun q _ => pow_zero q).symm
    _ = n := Nat.prod_factorization_pow_eq_self nonzero

namespace Factorization

theorem primes_nodup (factorization : Factorization) : factorization.primes.Nodup := by
  rw [primes, List.Nodup, List.pairwise_map]
  exact factorization.ascending.imp fun before => Nat.ne_of_lt before

theorem map_entries {α : Type} (factorization : Factorization) (image : Nat → Nat → α) :
    factorization.entries.map (fun entry => image entry.1 entry.2)
      = factorization.primes.map fun q => image q (factorization.exponent q) := by
  rw [primes, List.map_map]
  refine List.map_congr_left fun entry member => ?_
  rw [Function.comp_apply, exponent_of_mem member]

end Factorization

namespace Factorization.Of

variable {factorization : Factorization} {n : Nat}

theorem mem_primes_iff (complete : factorization.Of n) (nonzero : n ≠ 0) (q : Nat) :
    q ∈ factorization.primes ↔ q.Prime ∧ q ∣ n := by
  rw [complete.positive.mem_primes_iff, complete.exponent_eq]
  constructor
  · intro positive
    have divides := Nat.dvd_of_factorization_pos (Nat.ne_of_gt positive)
    have present := (complete.mem_entries_iff q _).mpr ⟨positive, rfl⟩
    exact ⟨complete.prime_of_mem present, divides⟩
  · rintro ⟨prime, divides⟩
    exact prime.factorization_pos_of_dvd nonzero divides

theorem splits_iff (complete : factorization.Of n) (nonzero : n ≠ 0) (base : FactorBase) :
    base.splits factorization = true ↔ base.Covers n := by
  rw [FactorBase.splits, FactorBase.Covers, List.all_eq_true]
  simp only [FactorBase.contains, List.contains_iff_mem, complete.mem_primes_iff nonzero, and_imp]

theorem prod_base (complete : factorization.Of n) (nonzero : n ≠ 0) {base : FactorBase}
    (valid : base.Valid) (splits : base.splits factorization = true) :
    (base.primes.map fun q => q ^ factorization.exponent q).prod = n := by
  simp only [complete.exponent_eq]
  exact prod_pow_factorization nonzero valid.nodup ((complete.splits_iff nonzero base).mp splits)

theorem prod_entries (complete : factorization.Of n) (nonzero : n ≠ 0) :
    (factorization.entries.map fun entry => entry.1 ^ entry.2).prod = n := by
  rw [factorization.map_entries fun q exponent => q ^ exponent]
  simp only [complete.exponent_eq]
  exact prod_pow_factorization nonzero factorization.primes_nodup fun q prime divides =>
    (complete.mem_primes_iff nonzero q).mpr ⟨prime, divides⟩

end Factorization.Of

end ResidueAlgebra
