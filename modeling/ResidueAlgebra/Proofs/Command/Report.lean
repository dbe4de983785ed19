import ResidueAlgebra.Command.Report
import ResidueAlgebra.Proofs.EntryPoints
import ResidueAlgebra.Proofs.IndexCalculus.Bounds

/-!
# Reports agree with derivations

A report is made from the result of a derivation, and the derivation closes its trace with a line of
its own about that result. The closing line is followed through the loops and recursions of the three
operations that write one, so that the summary of a report and the last line of its trace are seen to
be the same text. No command on words ends without a report.
-/
set_option autoImplicit false
namespace ResidueAlgebra

open Traced

/-! ## Closing lines -/

def Traced.ClosesWith {α : Type} (computation : Traced α) (line : α → String) : Prop :=
  ∀ trace, Leaves computation trace fun result final => final.last? = some (line result)

theorem Traced.ClosesWith.last_line {α : Type} {computation : Traced α} {line : α → String}
    (closes : ClosesWith computation line) {result : α}
    (success : (Derivation.ofTraced computation).result = .ok result) :
    (Derivation.ofTraced computation).trace.lines.toList.getLast? = some (line result) := by
  have last : (Derivation.ofTraced computation).trace.last? = some (line result) :=
    closes Trace.empty result _ (Prod.ext success rfl)
  rwa [Trace.last?, ← Array.getLast?_toList] at last

theorem Poly.gcdTraced_closes (f g : Poly) :
    ClosesWith (gcdTraced f g) fun d => "gcd = " ++ d.text := by
  intro trace
  unfold gcdTraced
  refine .after fun last _ => .after fun result _ => ?_
  split
  · refine .after fun _ _ => .after fun _ _ => .after_note (leaves_pure ?_)
    exact Trace.last?_push ..
  · refine .after fun _ _ => .after_note (leaves_pure ?_)
    exact Trace.last?_push ..

namespace LogSolver

variable {solver : LogSolver} {g a n m generatorLog : Nat} {logs : List Nat}

theorem finish_closes (k : Nat) (factorization : Factorization) :
    ClosesWith (solver.finish g a n m k generatorLog logs factorization)
      fun log => "Answer: " ++ s!"{log}" := by
  intro trace
  unfold finish
  -- Five values and four lines stand before the power that is checked, and a line after it.
  refine .after fun _ _ => .after fun _ _ => .after fun _ _ => .after fun _ _ => .after fun _ _ => ?_
  refine .after fun _ _ => .after fun _ _ => .after fun _ _ => .after fun _ _ => ?_
  refine .after fun check _ => .after fun _ _ => ?_
  split
  · exact .after_note (leaves_pure (Trace.last?_push ..))
  · exact leaves_throw _

theorem searchTarget_closes (k remaining : Nat) (trace : Trace) :
    Leaves (solver.searchTarget g a n m generatorLog logs k remaining) trace fun found final =>
      ∀ shift log, found = some (shift, log) → final.last? = some ("Answer: " ++ s!"{log}") := by
  induction remaining generalizing k trace with
  | zero =>
      apply leaves_pure
      simp
  | succ remaining ih =>
      unfold searchTarget
      refine .after fun _ _ => .after fun _ _ => .after fun product _ => .after fun _ _ => ?_
      split
      · refine .after fun _ later => .bind (finish_closes k _ later) ?_
        intro log final closed
        apply leaves_pure
        intro shift answer same
        cases same
        exact closed
      · exact .after fun _ later => ih (k + 1) later

theorem solve_closes (g a n : Nat) :
    ClosesWith (solver.solve g a n) fun solution => "Answer: " ++ s!"{solution.log}" := by
  intro trace solution final run
  obtain ⟨_, _, _, _, _, determined, found, _, _, _, reached, rfl⟩ := solve_eq_ok.mp run
  exact searchTarget_closes 1 _ determined (some found) final (targetLog_eq_ok.mp reached)
    found.1 found.2 rfl

end LogSolver

namespace Engine

theorem squareFreeSteps_closes (coefficients : List Int) (p : Nat) (token : Token) :
    ClosesWith (squareFreeSteps coefficients p token)
      fun factors => "Factors: " ++ Poly.productText factors := by
  intro trace
  unfold squareFreeSteps
  refine .after fun _ _ => .after fun f _ => .after fun _ _ => .after fun factors _ => ?_
  exact .after fun _ _ => .after_note (leaves_pure (Trace.last?_push ..))

theorem commonDivisorSteps_closes (left right : List Int) (p : Nat) :
    ClosesWith (commonDivisorSteps left right p) fun d => "gcd = " ++ d.text := by
  intro trace
  unfold commonDivisorSteps
  refine .after fun _ _ => .after fun f _ => .after fun g _ => ?_
  refine .after fun _ _ => .after fun _ _ => .after fun _ later => ?_
  exact Poly.gcdTraced_closes f g later

theorem discreteLogSteps_closes (g a n : Nat) (settings : Settings) (token : Token) :
    ClosesWith (discreteLogSteps g a n settings token)
      fun solution => "Answer: " ++ s!"{solution.log}" := by
  intro trace
  unfold discreteLogSteps
  exact .after fun base later => LogSolver.solve_closes g a n later

/-! ## Every logarithm is answered -/

theorem discreteLog_answered {n : Nat} (fits : n < Word.long) {settings : Settings}
    (primesFit : ∀ prime ∈ settings.primes, prime < Word.long) (g a : Nat) (token : Token) :
    (discreteLog g a n settings token).result.Answered := by
  have ends : Ends (discreteLogSteps g a n settings token) Outcome.Answered := by
    unfold discreteLogSteps
    have base := FactorBase.ofPrimes_answered primesFit
    cases admitted : settings.factorBase with
    | error halt =>
        refine Ends.after_error rfl fun cause breached => ?_
        cases breached
        exact base cause admitted
    | ok base =>
        apply Ends.after_ok rfl
        exact LogSolver.solve_answered (FactorBase.valid_of_ofPrimes admitted) fits
  exact ends.outcome Trace.empty

end Engine

/-! ## Reports -/

/-- The report says what the derivation came to: the trace is kept as it is, a result is summed up in
the words that close the trace after the label, and a failure has the text of its fault and nothing
else. -/
structure Report.Reflects {α : Type} (report : Report) (derivation : Derivation α) (label : String)
    (summarize : α → String) (encode : α → Json) : Prop where
  trace_eq : report.trace = derivation.trace.lines.toList
  isSuccess_iff : report.isSuccess = true ↔ ∃ value, derivation.result = .ok value
  on_success : ∀ value, derivation.result = .ok value →
    report.summary = some (summarize value) ∧ report.result = some (encode value) ∧
      report.error = none ∧ report.trace.getLast? = some (label ++ summarize value)
  on_failure : report.isSuccess = false → ∃ cause, derivation.result = .error (.fault cause) ∧
    report.summary = none ∧ report.result = none ∧ report.error = some cause.message

theorem Report.ofDerivation_reflects {α : Type} {computation : Traced α} {label : String}
    {summarize : α → String}
    (closes : ClosesWith computation fun value => label ++ summarize value)
    (answered : (Derivation.ofTraced computation).result.Answered) (command : String)
    (encode : α → Json) :
    ∃ report,
      ofDerivation command (Derivation.ofTraced computation) encode summarize = .ok report ∧
        report.Reflects (Derivation.ofTraced computation) label summarize encode := by
  cases outcome : (Derivation.ofTraced computation).result with
  | ok value =>
      refine ⟨_, by rw [ofDerivation, outcome], rfl, by simp [isSuccess, outcome], ?_,
        by simp [isSuccess]⟩
      intro same success
      cases outcome.symm.trans success
      exact ⟨rfl, rfl, rfl, closes.last_line outcome⟩
  | error halt =>
      cases halt with
      | breach cause => exact absurd outcome (answered cause)
      | fault cause =>
          refine ⟨_, by rw [ofDerivation, outcome], rfl, by simp [isSuccess, outcome],
            by simp [outcome], fun _ => ⟨cause, outcome, rfl, rfl, rfl⟩⟩

/-- Every decomposition, common divisor and logarithm of words, under any settings and token, is
reported as its derivation went. -/
theorem Command.execute_reflects_derivation (settings : Settings) (token : Token) :
    (∀ (coefficients : List Int) (p : Nat), p < Word.long →
      ∃ report, (Command.decompose coefficients p).execute settings token = .ok report ∧
        report.Reflects (Engine.squareFree coefficients p token) "Factors: " Poly.productText
          fun factors => .list (factors.map Poly.toJson)) ∧
    (∀ (left right : List Int) (p : Nat), p < Word.long →
      ∃ report, (Command.gcd left right p).execute settings token = .ok report ∧
        report.Reflects (Engine.commonDivisor left right p) "gcd = " Poly.text Poly.toJson) ∧
    (∀ g a n : Nat, n < Word.long → (∀ prime ∈ settings.primes, prime < Word.long) →
      ∃ report, (Command.discreteLog g a n).execute settings token = .ok report ∧
        report.Reflects (Engine.discreteLog g a n settings token) "Answer: "
          (fun solution => s!"{solution.log}") LogSolution.toJson) := by
  refine ⟨?_, ?_, ?_⟩
  · intro coefficients p fits
    exact Report.ofDerivation_reflects (Engine.squareFreeSteps_closes coefficients p token)
      (Engine.squareFree_answered fits coefficients token) _ _
  · intro left right p fits
    exact Report.ofDerivation_reflects (Engine.commonDivisorSteps_closes left right p)
      (Engine.commonDivisor_answered fits left right) _ _
  · intro g a n fits primesFit
    exact Report.ofDerivation_reflects (Engine.discreteLogSteps_closes g a n settings token)
      (Engine.discreteLog_answered fits primesFit g a token) _ _

/-- Modulo 17 the logarithm of 13 to the base 3 is 4; six is no prime. -/
theorem Command.execute_reflects_derivation_both_ways :
    (∃ report, (Command.discreteLog 3 13 17).execute ⟨"info", [2, 3], none, none, 10⟩ .fresh
        = .ok report ∧
      report.summary = some "4" ∧ report.trace.getLast? = some "Answer: 4") ∧
    ∃ report, (Command.decompose [1, 1] 6).execute ⟨"info", [2, 3], none, none, 10⟩ .fresh
        = .ok report ∧
      report.error = some "modulus 6 is not prime" ∧ report.trace = [] := by
  obtain ⟨decompositions, _, logarithms⟩ :=
    execute_reflects_derivation ⟨"info", [2, 3], none, none, 10⟩ .fresh
  obtain ⟨found, executed, reflects⟩ :=
    logarithms 3 13 17 (by simp [Word.long]) (by simp [Word.long])
  have success :
      (Engine.discreteLog 3 13 17 ⟨"info", [2, 3], none, none, 10⟩ .fresh).result
        = .ok ⟨4, [(2, 14), (3, 1)], 1,
          [⟨3, 1, ⟨[(3, 1)], by decide⟩⟩, ⟨8, 10, ⟨[(2, 3)], by decide⟩⟩], 4⟩ := by
    decide +kernel
  obtain ⟨summary, _, _, last⟩ := reflects.on_success _ success
  refine ⟨⟨found, executed, summary, last⟩, ?_⟩
  obtain ⟨refused, executed, reflects⟩ := decompositions [1, 1] 6 (by simp [Word.long])
  have failure : Engine.squareFree [1, 1] 6 .fresh
      = ⟨.error (.fault (.modulusNotPrime 6)), Trace.empty⟩ :=
    Engine.ofTraced_of_not_prime (by simp [Word.long]) (by decide) _
  rw [failure] at reflects
  have unsuccessful : refused.isSuccess = false := by
    rw [Bool.eq_false_iff, Ne, reflects.isSuccess_iff]
    simp
  obtain ⟨cause, same, _, _, text⟩ := reflects.on_failure unsuccessful
  cases same
  exact ⟨refused, executed, text, reflects.trace_eq⟩

end ResidueAlgebra
