import Mathlib.Data.Nat.Prime.Basic
import ResidueAlgebra.Prime.TrialDivision
import ResidueAlgebra.Proofs.Computation

/-!
# The primality test

Trial division keeps a lower bound on the prime divisors of its number, `Rough`. A number whose
prime divisors all lie beyond its square root is prime, and the wheel of candidates moves the bound
six further after each pair that does not divide.
-/
set_option autoImplicit false
namespace ResidueAlgebra.TrialDivision

/-- No prime below `bound` divides `n`. -/
def Rough (bound n : Nat) : Prop :=
  ∀ q, q.Prime → q ∣ n → bound ≤ q

theorem prime_of_rough {bound n : Nat} (large : 1 < n) (rough : Rough bound n)
    (beyond : n < bound * bound) : n.Prime := by
  by_contra composite
  have square : n.minFac ^ 2 ≤ n := Nat.minFac_sq_le_self (by omega) composite
  have least : bound ≤ n.minFac :=
    rough n.minFac (Nat.minFac_prime (by omega)) (Nat.minFac_dvd n)
  have grown : bound * bound ≤ n.minFac * n.minFac := Nat.mul_le_mul least least
  rw [pow_two] at square
  omega

theorem not_prime_of_divisor {n divisor : Nat} (proper : 1 < divisor) (smaller : divisor < n)
    (divides : n % divisor = 0) : ¬ n.Prime := by
  intro prime
  rcases (Nat.dvd_prime prime).mp (Nat.dvd_of_mod_eq_zero divides) with one | whole
  · omega
  · omega

theorem not_dvd_of_prime_dvd {n q d : Nat} (divides : q ∣ n) (free : n % d ≠ 0) : ¬ d ∣ q :=
  fun also => free (Nat.mod_eq_zero_of_dvd (also.trans divides))

/-- Both candidates of a pair fail, so the next prime divisor is at least six further on. -/
theorem Rough.wheel {n candidate : Nat} (odd : n % 2 ≠ 0) (notThree : n % 3 ≠ 0)
    (position : candidate % 6 = 5) (first : n % candidate ≠ 0) (second : n % (candidate + 2) ≠ 0)
    (rough : Rough candidate n) : Rough (candidate + 6) n := by
  intro q prime divides
  have reached := rough q prime divides
  have notFirst : q ≠ candidate := by
    rintro rfl
    exact first (Nat.mod_eq_zero_of_dvd divides)
  have notSecond : q ≠ candidate + 2 := by
    rintro rfl
    exact second (Nat.mod_eq_zero_of_dvd divides)
  have odd' := not_dvd_of_prime_dvd divides odd
  have notThree' := not_dvd_of_prime_dvd divides notThree
  omega

theorem primeFrom_sound {n candidate : Nat} {answer : Bool} (odd : n % 2 ≠ 0)
    (notThree : n % 3 ≠ 0) (large : 1 < n) (position : candidate % 6 = 5)
    (rough : Rough candidate n) (success : primeFrom n candidate = .ok answer) :
    answer = true ↔ n.Prime := by
  fun_induction primeFrom n candidate with
  | case1 candidate halt failure => cases success
  | case2 candidate square fitted within divides =>
      cases success
      have large : 5 * candidate ≤ candidate * candidate := Nat.mul_le_mul_right _ (by omega)
      have smaller : candidate < n := by omega
      simpa using not_prime_of_divisor (by omega) smaller divides
  | case3 candidate square fitted within notFirst ih =>
      obtain ⟨partner, sum, success⟩ := Outcome.bind_eq_ok success
      obtain rfl : candidate + 2 = partner := by
        rw [Word.fit] at sum
        split at sum
        · exact Except.ok.inj sum
        · cases sum
      split at success
      · rename_i divides
        cases success
        have large : 5 * candidate ≤ candidate * candidate := Nat.mul_le_mul_right _ (by omega)
        have smaller : candidate + 2 < n := by omega
        simpa using not_prime_of_divisor (by omega) smaller divides
      · rename_i notSecond
        obtain ⟨next, _, success⟩ := Outcome.bind_eq_ok success
        exact ih (by omega) (rough.wheel odd notThree position notFirst notSecond) success
  | case4 candidate square fitted beyond =>
      cases success
      simpa using prime_of_rough large rough (by omega)

theorem isPrime_sound {n : Nat} {answer : Bool} (success : isPrime n = .ok answer) :
    answer = true ↔ n.Prime := by
  unfold isPrime at success
  split at success
  · rename_i small
    cases success
    have composite : ¬ n.Prime := fun prime => by
      have := prime.two_le
      omega
    simpa using composite
  · rename_i large
    split at success
    · rename_i three
      cases success
      have cases' : n = 2 ∨ n = 3 := by omega
      rcases cases' with rfl | rfl
      · simp [Nat.prime_two]
      · simp [Nat.prime_three]
    · rename_i four
      split at success
      · rename_i divides
        cases success
        have composite : ¬ n.Prime := by
          rcases divides with two | three
          · exact not_prime_of_divisor (by omega) (by omega) two
          · exact not_prime_of_divisor (by omega) (by omega) three
        simpa using composite
      · rename_i free
        rw [not_or] at free
        refine primeFrom_sound free.1 free.2 (by omega) rfl ?_ success
        intro q prime divides
        have two := prime.two_le
        have notTwo := not_dvd_of_prime_dvd divides free.1
        have notThree := not_dvd_of_prime_dvd divides free.2
        omega

theorem primeFrom_total {n candidate : Nat} (fits : n < Word.long)
    (inside : candidate < Word.long) :
    ∃ answer, primeFrom n candidate = .ok answer := by
  fun_induction primeFrom n candidate with
  | case1 candidate halt failure =>
      rw [Word.fit_of_lt (Word.mul_lt_wide inside inside)] at failure
      cases failure
  | case2 candidate => exact ⟨false, rfl⟩
  | case3 candidate square fitted within notFirst ih =>
      have room : candidate + 6 < Word.long := by
        simp only [Word.long] at fits ⊢
        rcases Nat.lt_or_ge candidate 2 with small | large
        · omega
        · have doubled : 2 * candidate ≤ candidate * candidate := Nat.mul_le_mul_right _ large
          omega
      rw [Word.fit_of_lt (show candidate + 2 < Word.long by omega), Outcome.ok_bind]
      split
      · exact ⟨false, rfl⟩
      · rw [Word.fit_of_lt room, Outcome.ok_bind]
        exact ih room
  | case4 candidate => exact ⟨true, rfl⟩

theorem isPrime_eq {n : Nat} (fits : n < Word.long) : isPrime n = .ok (decide n.Prime) := by
  have total : ∃ answer, isPrime n = .ok answer := by
    unfold isPrime
    split
    · exact ⟨false, rfl⟩
    · split
      · exact ⟨true, rfl⟩
      · split
        · exact ⟨false, rfl⟩
        · exact primeFrom_total fits (by decide)
  obtain ⟨answer, success⟩ := total
  have verdict := isPrime_sound success
  rw [success]
  by_cases prime : n.Prime
  · rw [verdict.mpr prime, decide_eq_true prime]
  · rw [Bool.eq_false_iff.mpr fun yes => prime (verdict.mp yes), decide_eq_false prime]

end ResidueAlgebra.TrialDivision
