import ResidueAlgebra.Proofs.IndexCalculus.Target

/-!
# Discrete logarithms

What the whole solver answers, for every input: which inputs are turned down, that the searches are
the only reasons for a valid input to go without an answer, that every logarithm in an answer is one,
and, with the default bound for the target, that an answer exists for exactly the powers of the
generator.
-/
set_option autoImplicit false
namespace ResidueAlgebra.LogSolver

open Traced

variable {solver : LogSolver} {g a n : Nat}

/-! ## Validation -/

theorem validate_composite (fits : n < Word.long) (bad : n < 3 ∨ ¬ n.Prime) :
    validate g a n = .error (.fault (.modulusNotPrime n)) := by
  unfold validate
  split
  · rfl
  · rename_i large
    have composite : ¬ n.Prime := bad.resolve_left large
    rw [TrialDivision.isPrime_eq fits, decide_eq_false composite]
    rfl

theorem validate_prime (fits : n < Word.long) (three : 3 ≤ n) (prime : n.Prime) :
    validate g a n =
      if n ∣ g then Outcome.reject (.generatorZero g n)
      else if n ∣ a then Outcome.reject (.targetZero a n)
      else .ok () := by
  rw [validate, if_neg (Nat.not_lt.mpr three), TrialDivision.isPrime_eq fits, decide_eq_true prime]
  simp only [Nat.dvd_iff_mod_eq_zero]
  rfl

theorem validate_ok (fits : n < Word.long) (three : 3 ≤ n) (prime : n.Prime)
    (generatorFree : ¬ n ∣ g) (targetFree : ¬ n ∣ a) : validate g a n = .ok () := by
  simp [validate_prime fits three prime, if_neg generatorFree, if_neg targetFree]

/-! ## The phases of a run -/

/-- The checks, and the lines that state the problem; the reduced operands and `n - 1`. -/
def opening (solver : LogSolver) (g a n : Nat) : Traced (Nat × Nat × Nat) := do
  validate g a n
  let g ← Residue.reduce g n
  let a ← Residue.reduce a n
  let m ← Word.minus n 1
  note s!"Find L = log_{g}({a}) mod {m}, i.e. {g}^L = {a} (mod {n})"
  blank
  note "1)"
  note s!"Factor base: S = {solver.base.text}"
  blank
  note "2)"
  return (g, a, m)

/-- The part between the two searches: the logarithms of the base and of the generator. -/
def determineLogs (solver : LogSolver) (g m : Nat) (system : RelationSystem) :
    Traced (List Nat × Nat) := do
  blank
  note "3)"
  let logs ← solver.solveBaseLogs system
  let generatorLog ← solver.generatorLog g m logs
  blank
  note "4) Computing log(a):"
  return (logs, generatorLog)

theorem solve_phases : solver.solve g a n = (do
    let (g, a, m) ← solver.opening g a n
    let system ← solver.gatherRelations g n
    let (logs, generatorLog) ← solver.determineLogs g m system
    let (shift, log) ← solver.targetLog g a n m generatorLog logs
    return ⟨log, solver.base.primes.zip logs, generatorLog, system.relations, shift⟩) := by
  simp only [solve, opening, determineLogs, bind_assoc, pure_bind]

theorem opening_spec (fits : n < Word.long) (three : 3 ≤ n) (prime : n.Prime)
    (generatorFree : ¬ n ∣ g) (targetFree : ¬ n ∣ a) :
    Ends (solver.opening g a n) fun outcome => outcome = .ok (g % n, a % n, n - 1) := by
  unfold opening
  apply Ends.after_ok (validate_ok fits three prime generatorFree targetFree)
  apply Ends.after_ok (Residue.reduce_eq prime.pos)
  apply Ends.after_ok (Residue.reduce_eq prime.pos)
  apply Ends.after_ok (Word.minus_of_le prime.one_le)
  apply Ends.after_note
  apply Ends.after_blank
  apply Ends.after_note
  apply Ends.after_note
  apply Ends.after_blank
  apply Ends.after_note
  exact ends_pure rfl

theorem solve_of_search_halt (fits : n < Word.long) (three : 3 ≤ n) (prime : n.Prime)
    (generatorFree : ¬ n ∣ g) (targetFree : ¬ n ∣ a) {halt : Halt} {lines : List String}
    (searched : Yields (solver.gatherRelations (g % n) n) (.error halt) lines) :
    Ends (solver.solve g a n) fun outcome => outcome = .error halt := by
  rw [solve_phases]
  refine Ends.bind (opening_spec fits three prime generatorFree targetFree) ?_ (by simp)
  rintro operands same
  cases same
  exact Ends.after_halt searched rfl

theorem determineLogs_spec [Fact n.Prime] (valid : solver.base.Valid) (fits : n < Word.long)
    (three : 3 ≤ n) (positive : g ≠ 0) (below : g < n) {system : RelationSystem}
    (gathered : system.Gathered solver.base g n) (full : system.isFull = true) :
    Ends (solver.determineLogs g (n - 1) system) fun outcome =>
      (∃ logs generatorLog, outcome = .ok (logs, generatorLog) ∧ solver.base.Logs g n logs ∧
        generatorLog < n - 1 ∧ (g : ZMod n) ^ generatorLog = g) ∨
      (outcome = .error (.fault (.generatorOutsideBase g)) ∧ ¬ solver.base.Covers g) := by
  have nonzero := natCast_ne_zero_of_lt positive below
  unfold determineLogs
  apply Ends.after_blank
  apply Ends.after_note
  refine Ends.bind (solveBaseLogs_spec valid three fits nonzero gathered full) ?_ (by simp)
  rintro logs ⟨found, same, logged⟩
  cases same
  refine Ends.bind (generatorLog_spec fits positive below logged) ?_ ?_
  · rintro generatorLog (⟨_, log, same, reduced, ownLog⟩ | ⟨_, impossible⟩)
    · cases same
      apply Ends.after_blank
      apply Ends.after_note
      exact ends_pure (Or.inl ⟨logs, generatorLog, rfl, logged, reduced, ownLog⟩)
    · cases impossible
  · rintro halt (⟨_, _, impossible, _⟩ | ⟨outside, same⟩)
    · cases impossible
    · cases same
      exact Or.inr ⟨rfl, outside⟩

/-! ## Valid inputs -/

structure Correct (base : FactorBase) (g a n : Nat) (solution : LogSolution) : Prop where
  baseLogs : ∃ logs, solution.baseLogs = base.primes.zip logs ∧ base.Logs g n logs
  generator : (g : ZMod n) ^ solution.generatorLog = g
  log_lt : solution.log < n - 1
  power : (g : ZMod n) ^ solution.log = a
  least : IsLeast {k | 1 ≤ k ∧ base.Covers (a * g ^ k % n)} solution.targetShift

theorem logs_of_mod {base : FactorBase} {logs : List Nat} (logged : base.Logs (g % n) n logs) :
    base.Logs g n logs where
  length_eq := logged.length_eq
  below := logged.below
  primes_lt := logged.primes_lt
  power_eq := by
    have powers := logged.power_eq
    rwa [ZMod.natCast_mod] at powers

theorem shifted_mod (g a n k : Nat) : a % n * (g % n) ^ k % n = a * g ^ k % n :=
  Nat.ModEq.mul (Nat.mod_modEq a n) ((Nat.mod_modEq g n).pow k)

theorem solve_spec [Fact n.Prime] (valid : solver.base.Valid) (fits : n < Word.long) (three : 3 ≤ n)
    (generatorFree : ¬ n ∣ g) (targetFree : ¬ n ∣ a) :
    Ends (solver.solve g a n) fun outcome =>
      (∃ cause, outcome = .error (.fault cause) ∧
        (∀ trace, ((solver.gatherRelations (g % n) n).runFrom trace).1 = .error (.fault cause)) ∧
        (solver.token.requested = false →
          ∃ rank, cause = .tooFewRelations rank solver.base.size)) ∨
      (outcome = .error (.fault (.generatorOutsideBase (g % n))) ∧ ¬ solver.base.Covers (g % n)) ∨
      (outcome = .error (.fault (.targetNotReachable (a % n))) ∧
        ∀ k, 1 ≤ k → k ≤ solver.targetBound.getD (n - 1) →
          ¬ solver.base.Covers (a * g ^ k % n)) ∨
      ∃ solution, outcome = .ok solution ∧ Correct solver.base g a n solution := by
  have prime : n.Prime := Fact.out
  have generatorPositive : g % n ≠ 0 := by rwa [Ne, ← Nat.dvd_iff_mod_eq_zero]
  have targetPositive : a % n ≠ 0 := by rwa [Ne, ← Nat.dvd_iff_mod_eq_zero]
  have generatorBelow : g % n < n := Nat.mod_lt g prime.pos
  have targetBelow : a % n < n := Nat.mod_lt a prime.pos
  have nonzero := natCast_ne_zero_of_lt generatorPositive generatorBelow
  rw [solve_phases]
  refine Ends.bind (opening_spec fits three prime generatorFree targetFree) ?_ (by simp)
  rintro operands same
  cases same
  obtain ⟨outcome, lines, gathering, ⟨system, rfl, gathered, full, live⟩ | ⟨cause, rfl, reason⟩⟩ :=
    gatherRelations_cases valid fits nonzero
  · apply Ends.after gathering
    refine Ends.bind (determineLogs_spec valid fits three generatorPositive generatorBelow gathered
      full) ?_ ?_
    · rintro determined (⟨logs, generatorLog, same, logged, reduced, ownLog⟩ | ⟨impossible, _⟩)
      · cases same
        refine Ends.bind (targetLog_spec live fits nonzero logged reduced ownLog targetPositive
          targetBelow) ?_ ?_
        · rintro ⟨shift, log⟩ (⟨_, _, same, least, below, power⟩ | ⟨impossible, _⟩)
          · cases same
            simp only [shifted_mod, ZMod.natCast_mod] at least power ownLog
            refine ends_pure (Or.inr (Or.inr (Or.inr ⟨_, rfl, ?_⟩)))
            exact ⟨⟨logs, rfl, logs_of_mod logged⟩, ownLog, below, power, least⟩
          · cases impossible
        · rintro halt (⟨_, _, impossible, _⟩ | ⟨same, none⟩)
          · cases impossible
          · cases same
            simp only [shifted_mod] at none
            exact Or.inr (Or.inr (Or.inl ⟨rfl, none⟩))
      · cases impossible
    · rintro halt (⟨_, _, impossible, _⟩ | ⟨same, outside⟩)
      · cases impossible
      · cases same
        exact Or.inr (Or.inl ⟨rfl, outside⟩)
  · apply Ends.after_halt gathering
    exact Or.inl ⟨cause, rfl, gathering.outcome_eq, reason⟩

theorem correct_of_solve [Fact n.Prime] (valid : solver.base.Valid) (fits : n < Word.long)
    (three : 3 ≤ n) (generatorFree : ¬ n ∣ g) (targetFree : ¬ n ∣ a) {trace : Trace}
    {solution : LogSolution} (success : ((solver.solve g a n).runFrom trace).1 = .ok solution) :
    Correct solver.base g a n solution := by
  have answers := (solve_spec valid fits three generatorFree targetFree).outcome trace
  rw [success] at answers
  obtain ⟨_, impossible, _⟩ | ⟨impossible, _⟩ | ⟨impossible, _⟩ | ⟨found, same, correct⟩ := answers
  · cases impossible
  · cases impossible
  · cases impossible
  · cases same
    exact correct

theorem modEq_of_cast {left right : Nat} (same : (left : ZMod n) = right) : left ≡ right [MOD n] :=
  (ZMod.natCast_eq_natCast_iff left right n).mp same

/-- Every logarithm in an answer is one, for any generator and whatever the order of it. -/
theorem solve_sound {primes : List Nat} (admitted : FactorBase.ofPrimes primes = .ok solver.base)
    (prime : n.Prime) (three : 3 ≤ n) (fits : n < Word.long) (generatorFree : ¬ n ∣ g)
    (targetFree : ¬ n ∣ a) {trace : Trace} {solution : LogSolution}
    (success : ((solver.solve g a n).runFrom trace).1 = .ok solution) :
    solution.baseLogs.map Prod.fst = solver.base.primes ∧
      (∀ entry ∈ solution.baseLogs,
        entry.2 < n - 1 ∧ entry.1 < n ∧ g ^ entry.2 ≡ entry.1 [MOD n]) ∧
      g ^ solution.generatorLog ≡ g [MOD n] ∧
      solution.log < n - 1 ∧ g ^ solution.log ≡ a [MOD n] := by
  have : Fact n.Prime := ⟨prime⟩
  have valid := FactorBase.valid_of_ofPrimes admitted
  have correct := correct_of_solve valid fits three generatorFree targetFree success
  obtain ⟨logs, listed, logged⟩ := correct.baseLogs
  refine ⟨?_, ?_, ?_, correct.log_lt, ?_⟩
  · rw [listed, List.map_fst_zip (Nat.le_of_eq logged.length_eq.symm)]
  · intro entry member
    rw [listed] at member
    obtain ⟨inBase, inLogs⟩ := List.of_mem_zip member
    refine ⟨logged.below _ inLogs, logged.primes_lt _ inBase, modEq_of_cast ?_⟩
    simp [logged.power_eq entry member]
  · apply modEq_of_cast
    simp [correct.generator]
  · apply modEq_of_cast
    simp [correct.power]

/-- The generator 2 has order 5 modulo 31; its logarithm modulo 30 is still found. -/
theorem solve_sound_small_order :
    ∃ solution, ((solve ⟨⟨[2]⟩, none, none, .fresh⟩ 2 16 31).runFrom Trace.empty).1
        = .ok solution ∧
      solution.baseLogs.map Prod.fst = [2] ∧ solution.log < 30 ∧
      2 ^ solution.log ≡ 16 [MOD 31] := by
  have success : ((solve ⟨⟨[2]⟩, none, none, .fresh⟩ 2 16 31).runFrom Trace.empty).1
      = .ok ⟨29, [(2, 1)], 1, [⟨2, 1, ⟨[(2, 1)], List.pairwise_singleton _ _⟩⟩], 1⟩ := by
    decide +kernel
  have admitted : FactorBase.ofPrimes [2] = .ok (mk ⟨[2]⟩ none none .fresh).base := by
    decide +kernel
  obtain ⟨listed, _, _, below, power⟩ := solve_sound admitted (by decide +kernel) (by decide)
    (by decide) (by decide) (by decide) success
  exact ⟨_, success, listed, below, power⟩

/-! ## Which answers occur -/

theorem solve_rejected {halt : Halt} (rejected : validate g a n = .error halt) :
    Ends (solver.solve g a n) fun outcome => outcome = .error halt := by
  unfold solve
  exact Ends.after_error rejected rfl

/-- The regimes of the input: a bad modulus, a zero operand, or a valid input. A cancelled token may
stop the search for relations, with a fault like any other. -/
theorem solve_regimes (valid : solver.base.Valid) (fits : n < Word.long) :
    Ends (solver.solve g a n) fun outcome =>
      ((n < 3 ∨ ¬ n.Prime) ∧ outcome = .error (.fault (.modulusNotPrime n))) ∨
      ((3 ≤ n ∧ n.Prime ∧ (n ∣ g ∨ n ∣ a)) ∧
        ∃ reason, outcome = .error (.fault (.invalidInput reason))) ∨
      ((3 ≤ n ∧ n.Prime ∧ ¬ n ∣ g ∧ ¬ n ∣ a) ∧
        ((∃ solution, outcome = .ok solution) ∨
          (∃ cause, outcome = .error (.fault cause) ∧ (solver.token.requested = false →
            ∃ rank, cause = .tooFewRelations rank solver.base.size)) ∨
          outcome = .error (.fault (.generatorOutsideBase (g % n))) ∨
          outcome = .error (.fault (.targetNotReachable (a % n))))) := by
  by_cases bad : n < 3 ∨ ¬ n.Prime
  · refine (solve_rejected (validate_composite fits bad)).imp fun outcome same => ?_
    exact Or.inl ⟨bad, same⟩
  · have three : 3 ≤ n := by omega
    have prime : n.Prime := not_not.mp fun composite => bad (Or.inr composite)
    have checked := @validate_prime g a n fits three prime
    by_cases generatorZero : n ∣ g
    · rw [if_pos generatorZero] at checked
      refine (solve_rejected checked).imp fun outcome same => ?_
      exact Or.inr (Or.inl ⟨⟨three, prime, Or.inl generatorZero⟩, _, same⟩)
    · rw [if_neg generatorZero] at checked
      by_cases targetZero : n ∣ a
      · rw [if_pos targetZero] at checked
        refine (solve_rejected checked).imp fun outcome same => ?_
        exact Or.inr (Or.inl ⟨⟨three, prime, Or.inr targetZero⟩, _, same⟩)
      · have : Fact n.Prime := ⟨prime⟩
        refine (solve_spec valid fits three generatorZero targetZero).imp fun outcome answers => ?_
        refine Or.inr (Or.inr ⟨⟨three, prime, generatorZero, targetZero⟩, ?_⟩)
        obtain ⟨cause, same, _, reason⟩ | ⟨same, _⟩ | ⟨same, _⟩ | ⟨solution, same, _⟩ := answers
        · exact Or.inr (Or.inl ⟨cause, same, reason⟩)
        · exact Or.inr (Or.inr (Or.inl same))
        · exact Or.inr (Or.inr (Or.inr same))
        · exact Or.inl ⟨solution, same⟩

theorem solve_answered (valid : solver.base.Valid) (fits : n < Word.long) :
    Ends (solver.solve g a n) Outcome.Answered := by
  refine (solve_regimes valid fits).imp fun outcome regimes cause breached => ?_
  subst breached
  simp at regimes

theorem solve_cases (valid : solver.base.Valid) (live : solver.token.requested = false)
    (fits : n < Word.long) :
    Ends (solver.solve g a n) fun outcome =>
      ((n < 3 ∨ ¬ n.Prime) ∧ outcome = .error (.fault (.modulusNotPrime n))) ∨
      ((3 ≤ n ∧ n.Prime ∧ (n ∣ g ∨ n ∣ a)) ∧
        ∃ reason, outcome = .error (.fault (.invalidInput reason))) ∨
      ((3 ≤ n ∧ n.Prime ∧ ¬ n ∣ g ∧ ¬ n ∣ a) ∧
        ((∃ solution, outcome = .ok solution) ∨
          (∃ rank, outcome = .error (.fault (.tooFewRelations rank solver.base.size))) ∨
          outcome = .error (.fault (.generatorOutsideBase (g % n))) ∨
          outcome = .error (.fault (.targetNotReachable (a % n))))) := by
  refine (solve_regimes valid fits).imp fun outcome regimes => ?_
  refine regimes.imp_right fun accepted => accepted.imp_right fun ⟨regime, answers⟩ => ⟨regime, ?_⟩
  refine answers.imp_right fun failed => failed.imp_left fun ⟨cause, same, reason⟩ => ?_
  obtain ⟨rank, rfl⟩ := reason live
  exact ⟨rank, same⟩

/-- The reasons for which an input goes without an answer. The computation never leaves its words,
the system is always solved, and the check at the end always passes. -/
theorem solve_verdicts {primes : List Nat} (admitted : FactorBase.ofPrimes primes = .ok solver.base)
    (live : solver.token.requested = false) (fits : n < Word.long) {trace : Trace}
    {outcome : Outcome LogSolution} (run : ((solver.solve g a n).runFrom trace).1 = outcome) :
    (∀ m, outcome = .error (.fault (.modulusNotPrime m)) ↔ m = n ∧ (n < 3 ∨ ¬ n.Prime)) ∧
      ((∃ reason, outcome = .error (.fault (.invalidInput reason))) ↔
        3 ≤ n ∧ n.Prime ∧ (n ∣ g ∨ n ∣ a)) ∧
      (3 ≤ n → n.Prime → ¬ n ∣ g → ¬ n ∣ a →
        (∃ solution, outcome = .ok solution) ∨
        (∃ rank, outcome = .error (.fault (.tooFewRelations rank solver.base.size))) ∨
        outcome = .error (.fault (.generatorOutsideBase (g % n))) ∨
        outcome = .error (.fault (.targetNotReachable (a % n)))) ∧
      (∀ cause, outcome ≠ .error (.breach cause)) ∧
      outcome ≠ .error (.fault .noSolution) ∧
      (∀ row, outcome ≠ .error (.fault (.equationFails row))) ∧
      (∀ log value, outcome ≠ .error (.fault (.wrongAnswer log value))) ∧
      (∀ value modulus, outcome ≠ .error (.fault (.notInvertible value modulus))) ∧
      outcome ≠ .error (.fault .cancelled) := by
  have valid := FactorBase.valid_of_ofPrimes admitted
  have cases := (@solve_cases solver g a n valid live fits).outcome trace
  rw [run] at cases
  obtain ⟨bad, rfl⟩ | ⟨⟨three, prime, zero⟩, reason, rfl⟩ |
    ⟨⟨three, prime, generatorFree, targetFree⟩, answers⟩ := cases
  · have excluded : 3 ≤ n → ¬ n.Prime := fun three => bad.resolve_left (Nat.not_lt.mpr three)
    refine ⟨?_, ?_, fun three prime => absurd prime (excluded three), by simp⟩
    · intro m
      simp [bad, eq_comm]
    · constructor
      · rintro ⟨reason, impossible⟩
        cases impossible
      · rintro ⟨three, prime, _⟩
        exact absurd prime (excluded three)
  · have large : ¬ n < 3 := Nat.not_lt.mpr three
    refine ⟨by simp [large, prime], by simp [three, prime, zero], ?_, by simp⟩
    intro _ _ generatorFree targetFree
    exact absurd zero (not_or.mpr ⟨generatorFree, targetFree⟩)
  · have large : ¬ n < 3 := Nat.not_lt.mpr three
    have regime : ¬ (3 ≤ n ∧ n.Prime ∧ (n ∣ g ∨ n ∣ a)) := by simp [generatorFree, targetFree]
    refine ⟨?_, ?_, fun _ _ _ _ => answers, ?_⟩
    · obtain ⟨solution, rfl⟩ | ⟨rank, rfl⟩ | rfl | rfl := answers <;> simp [large, prime]
    · obtain ⟨solution, rfl⟩ | ⟨rank, rfl⟩ | rfl | rfl := answers <;> simp [regime]
    · obtain ⟨solution, rfl⟩ | ⟨rank, rfl⟩ | rfl | rfl := answers <;> simp

/-- The largest number in a word is divisible by 3, and 62 by 31. Modulo 17 both searches run to an
answer; modulo 31 the base is determined, and the other search ends because 3 is no power of 2. -/
theorem solve_verdicts_every_regime :
    ((solve ⟨⟨[2]⟩, none, none, .fresh⟩ 5 7 18446744073709551615).runFrom Trace.empty).1
        = .error (.fault (.modulusNotPrime 18446744073709551615)) ∧
      (∃ reason, ((solve ⟨⟨[2]⟩, none, none, .fresh⟩ 62 7 31).runFrom Trace.empty).1
        = .error (.fault (.invalidInput reason))) ∧
      ((∃ solution, ((solve ⟨⟨[2, 3]⟩, none, none, .fresh⟩ 3 13 17).runFrom Trace.empty).1
          = .ok solution) ∧
        ∀ cause, ((solve ⟨⟨[2, 3]⟩, none, none, .fresh⟩ 3 13 17).runFrom Trace.empty).1
          ≠ .error (.breach cause)) ∧
      ((solve ⟨⟨[2]⟩, none, none, .fresh⟩ 2 3 31).runFrom Trace.empty).1
          = .error (.fault (.targetNotReachable 3)) ∧
        ((solve ⟨⟨[2]⟩, none, none, .fresh⟩ 2 3 31).runFrom Trace.empty).1
          ≠ .error (.fault .cancelled) := by
  have two : FactorBase.ofPrimes [2] = .ok (mk ⟨[2]⟩ none none .fresh).base := by
    decide +kernel
  have three : FactorBase.ofPrimes [2, 3] = .ok (mk ⟨[2, 3]⟩ none none .fresh).base := by
    decide +kernel
  have seventeen : Nat.Prime 17 := by decide +kernel
  have thirtyOne : Nat.Prime 31 := by decide +kernel
  have solved : ((solve ⟨⟨[2, 3]⟩, none, none, .fresh⟩ 3 13 17).runFrom Trace.empty).1
      = .ok ⟨4, [(2, 14), (3, 1)], 1,
        [⟨3, 1, ⟨[(3, 1)], by decide⟩⟩, ⟨8, 10, ⟨[(2, 3)], by decide⟩⟩], 4⟩ := by
    decide +kernel
  refine ⟨?_, ?_, ?_, ?_⟩
  · refine ((solve_verdicts two rfl (by decide) rfl).1 _).mpr ⟨rfl, Or.inr ?_⟩
    exact Nat.not_prime_of_dvd_of_lt (m := 3) (by decide) (by decide) (by decide)
  · have verdicts := @solve_verdicts ⟨⟨[2]⟩, none, none, .fresh⟩ 62 7 31 [2] two rfl (by decide)
      Trace.empty _ rfl
    exact verdicts.2.1.mpr ⟨by decide, thirtyOne, by decide⟩
  · obtain ⟨_, _, answers, whole, _⟩ := @solve_verdicts ⟨⟨[2, 3]⟩, none, none, .fresh⟩ 3 13 17
      [2, 3] three rfl (by decide) Trace.empty _ rfl
    refine ⟨?_, whole⟩
    -- The disjunction of the four answers, of which the run shows the first.
    rcases answers (by decide) seventeen (by decide) (by decide) with
      answered | ⟨_, impossible⟩ | impossible | impossible
    · exact answered
    · cases solved.symm.trans impossible
    · cases solved.symm.trans impossible
    · cases solved.symm.trans impossible
  · have unreached : ((solve ⟨⟨[2]⟩, none, none, .fresh⟩ 2 3 31).runFrom Trace.empty).1
        = .error (.fault (.targetNotReachable 3)) := by
      decide +kernel
    obtain ⟨_, _, _, _, _, _, _, _, live⟩ := solve_verdicts two rfl (by decide) unreached
    exact ⟨unreached, unreached ▸ live⟩

/-! ## Reachable targets -/

/-- Some shift up to `n - 1` turns a power of the generator into one, which splits over any base. -/
theorem covered_shift [Fact n.Prime] (nonzero : (g : ZMod n) ≠ 0) (base : FactorBase) {j : Nat}
    (power : g ^ j ≡ a [MOD n]) : ∃ k, 1 ≤ k ∧ k ≤ n - 1 ∧ base.Covers (a * g ^ k % n) := by
  have positive : 0 < n - 1 := NeZero.pos (n - 1)
  have below : j % (n - 1) < n - 1 := Nat.mod_lt j positive
  refine ⟨n - 1 - j % (n - 1), by omega, by omega, ?_⟩
  have whole : j + (n - 1 - j % (n - 1)) = (n - 1) * (j / (n - 1) + 1) := by
    have split := Nat.div_add_mod j (n - 1)
    rw [Nat.mul_add_one]
    omega
  have one : a * g ^ (n - 1 - j % (n - 1)) ≡ 1 [MOD n] := by
    refine (power.symm.mul_right _).trans (modEq_of_cast ?_)
    rw [← pow_add, whole, Nat.cast_pow, pow_mul, ZMod.pow_card_sub_one_eq_one nonzero, one_pow,
      Nat.cast_one]
  have large : 1 < n := (Fact.out : n.Prime).one_lt
  rw [one, Nat.mod_eq_of_lt large]
  intro q prime divides
  exact absurd (Nat.dvd_one.mp divides) prime.one_lt.ne'

/-- Once the relations determine the base and the generator splits over it, the targets with an
answer are the powers of the generator, and the shift is the first one whose product splits. -/
theorem solve_reaches_powers {primes : List Nat}
    (admitted : FactorBase.ofPrimes primes = .ok solver.base)
    (unbounded : solver.targetBound = none) (prime : n.Prime) (three : 3 ≤ n)
    (fits : n < Word.long) (generatorFree : ¬ n ∣ g) (targetFree : ¬ n ∣ a) {before : Trace}
    {system : RelationSystem}
    (full : ((solver.gatherRelations (g % n) n).runFrom before).1 = .ok system)
    (covered : solver.base.Covers (g % n)) (trace : Trace) :
    ((∃ solution, ((solver.solve g a n).runFrom trace).1 = .ok solution) ↔
        ∃ k, g ^ k ≡ a [MOD n]) ∧
      ((¬ ∃ k, g ^ k ≡ a [MOD n]) →
        ((solver.solve g a n).runFrom trace).1 = .error (.fault (.targetNotReachable (a % n)))) ∧
      ∀ solution, ((solver.solve g a n).runFrom trace).1 = .ok solution →
        IsLeast {k | 1 ≤ k ∧ solver.base.Covers (a * g ^ k % n)} solution.targetShift := by
  have : Fact n.Prime := ⟨prime⟩
  have valid := FactorBase.valid_of_ofPrimes admitted
  have sound : ∀ solution, ((solver.solve g a n).runFrom trace).1 = .ok solution →
      Correct solver.base g a n solution := fun solution success =>
    correct_of_solve valid fits three generatorFree targetFree success
  have nonzero : (g : ZMod n) ≠ 0 := by rwa [Ne, ZMod.natCast_eq_zero_iff]
  have answered : (∃ solution, ((solver.solve g a n).runFrom trace).1 = .ok solution) ∨
      (((solver.solve g a n).runFrom trace).1 = .error (.fault (.targetNotReachable (a % n))) ∧
        ∀ k, 1 ≤ k → k ≤ n - 1 → ¬ solver.base.Covers (a * g ^ k % n)) := by
    obtain ⟨_, _, stuck, _⟩ | ⟨_, outside⟩ | ⟨same, none⟩ | ⟨solution, same, _⟩ :=
      (solve_spec valid fits three generatorFree targetFree).outcome trace
    · rw [stuck before] at full
      cases full
    · exact absurd covered outside
    · rw [unbounded, Option.getD_none] at none
      exact Or.inr ⟨same, none⟩
    · exact Or.inl ⟨solution, same⟩
  have reachable : (∃ solution, ((solver.solve g a n).runFrom trace).1 = .ok solution) ↔
      ∃ k, g ^ k ≡ a [MOD n] := by
    constructor
    · rintro ⟨solution, success⟩
      refine ⟨solution.log, modEq_of_cast ?_⟩
      rw [Nat.cast_pow, (sound solution success).power]
    · rintro ⟨j, power⟩
      obtain ⟨k, positive, inside, splits⟩ := covered_shift nonzero solver.base power
      exact answered.resolve_right fun unreached => unreached.2 k positive inside splits
  refine ⟨reachable, ?_, fun solution success => (sound solution success).least⟩
  intro unreachable
  exact (answered.resolve_left (mt reachable.mp unreachable)).1

/-- The powers of 2 modulo 31 are 1, 2, 4, 8 and 16. -/
theorem solve_reaches_powers_small_order :
    ∃ solution, ((solve ⟨⟨[2]⟩, none, none, .fresh⟩ 2 16 31).runFrom Trace.empty).1
      = .ok solution := by
  have admitted : FactorBase.ofPrimes [2] = .ok (mk ⟨[2]⟩ none none .fresh).base := by
    decide +kernel
  have full : ((gatherRelations ⟨⟨[2]⟩, none, none, .fresh⟩ (2 % 31) 31).runFrom Trace.empty).1
      = .ok ⟨⟨[2]⟩, 30, [⟨2, 1, ⟨[(2, 1)], List.pairwise_singleton _ _⟩⟩], [[1]], 1⟩ := by
    decide +kernel
  have covered : FactorBase.Covers ⟨[2]⟩ (2 % 31) := by
    intro q prime divides
    rw [(Nat.prime_dvd_prime_iff_eq prime Nat.prime_two).mp divides]
    exact List.mem_singleton_self 2
  exact (solve_reaches_powers admitted rfl (by decide +kernel) (by decide) (by decide) (by decide)
    (by decide) full covered Trace.empty).1.mpr ⟨4, by decide⟩

end ResidueAlgebra.LogSolver
