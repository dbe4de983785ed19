import ResidueAlgebra.Prime.Factorization

/-!
# Trial division

Complete factorization and the primality test, both by trial division. Squares of candidate divisors
are formed in a double-width word and the candidates themselves stay in a single one; every step
that could leave its word is checked.
-/
set_option autoImplicit false
namespace ResidueAlgebra.TrialDivision

/-- Divides `divisor` out of `remaining` as often as it goes, recording every division. -/
def divideOut (divisor remaining : Nat) (found : Factorization) : Outcome (Nat × Factorization) :=
  if _ : 1 < divisor ∧ 0 < remaining ∧ remaining % divisor = 0 then do
    let found ← found.add divisor
    divideOut divisor (remaining / divisor) found
  else
    .ok (remaining, found)
  termination_by remaining
  decreasing_by
    rename_i divides
    exact Nat.div_lt_self divides.2.1 divides.1

theorem divideOut_le {divisor remaining : Nat} {found : Factorization}
    {result : Nat × Factorization} (success : divideOut divisor remaining found = .ok result) :
    result.1 ≤ remaining := by
  fun_induction divideOut divisor remaining found with
  | case1 remaining found divides ih =>
      obtain ⟨grown, _, success⟩ := Outcome.bind_eq_ok success
      exact Nat.le_trans (ih grown success) (Nat.div_le_self ..)
  | case2 remaining found _ =>
      cases success
      exact Nat.le_refl _

/-- Tries `divisor` and every second number after it while its square does not exceed what is left. -/
def search (divisor remaining : Nat) (found : Factorization) : Outcome (Nat × Factorization) :=
  match Word.fit Word.wide (divisor * divisor) with
  | .error halt => .error halt
  | .ok _ =>
      if _ : divisor * divisor ≤ remaining then
        match _ : divideOut divisor remaining found with
        | .error halt => .error halt
        | .ok rest => do
            let _ ← Word.fit Word.long (divisor + 2)
            search (divisor + 2) rest.1 rest.2
      else
        .ok (remaining, found)
  termination_by remaining + 1 - divisor
  decreasing_by
    rename_i within divided
    have shrunk := divideOut_le divided
    have reached : divisor ≤ remaining := by
      rcases Nat.eq_zero_or_pos divisor with zero | positive
      · omega
      · exact Nat.le_trans (Nat.le_mul_of_pos_left divisor positive) within
    omega

/-- Complete factorization; empty for zero and one. -/
def factor (n : Nat) : Outcome Factorization :=
  if n ≤ 1 then
    .ok Factorization.empty
  else do
    let (odd, twos) ← divideOut 2 n Factorization.empty
    let (remaining, found) ← search 3 odd twos
    if remaining > 1 then found.add remaining else .ok found

/-- Tries the divisors `candidate` and `candidate + 2`, then those six further on. -/
def primeFrom (n candidate : Nat) : Outcome Bool :=
  match Word.fit Word.wide (candidate * candidate) with
  | .error halt => .error halt
  | .ok _ =>
      if _ : candidate * candidate ≤ n then
        if n % candidate = 0 then
          .ok false
        else do
          let partner ← Word.fit Word.long (candidate + 2)
          if n % partner = 0 then
            .ok false
          else do
            let _ ← Word.fit Word.long (candidate + 6)
            primeFrom n (candidate + 6)
      else
        .ok true
  termination_by n + 1 - candidate
  decreasing_by
    rename_i within _ _
    have reached : candidate ≤ n := by
      rcases Nat.eq_zero_or_pos candidate with zero | positive
      · omega
      · exact Nat.le_trans (Nat.le_mul_of_pos_left candidate positive) within
    omega

def isPrime (n : Nat) : Outcome Bool :=
  if n ≤ 1 then
    .ok false
  else if n ≤ 3 then
    .ok true
  else if n % 2 = 0 ∨ n % 3 = 0 then
    .ok false
  else
    primeFrom n 5

end ResidueAlgebra.TrialDivision
