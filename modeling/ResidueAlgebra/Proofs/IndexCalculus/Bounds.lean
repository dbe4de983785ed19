import ResidueAlgebra.Proofs.IndexCalculus.Runs
import ResidueAlgebra.Proofs.IndexCalculus.Solve

/-!
# The bounds of the two searches

Both searches of the solver make numbered attempts in order and stop at the first that settles them.
A bound only says how many attempts there may be: every bound that lets the settling attempt happen
gives the same run, line by line, and every smaller one a search without a result. Composed over the
phases of `solve`, other bounds keep an answer as it is or take it away.
-/
set_option autoImplicit false
namespace ResidueAlgebra

open Traced

/-! ## Bounded searches -/

section Bounded

variable {σ ρ : Type}

/-- What the body of a search does in one attempt, the same for any number of attempts left: it
stops the search, or hands a state to the attempts that are left. -/
inductive Attempt (body : Nat → Traced ρ) (rest : σ → Nat → Traced ρ) (Open : σ → Prop)
    (Settled : ρ → Prop) (trace : Trace) : Prop where
  | halts (halt : Halt) (later : Trace)
      (runs : ∀ remaining, (body remaining).runFrom trace = (.error halt, later))
  | settles (result : ρ) (later : Trace) (settled : Settled result)
      (runs : ∀ remaining, (body remaining).runFrom trace = (.ok result, later))
  | continues (next : σ) (later : Trace) (opened : Open next)
      (runs : ∀ remaining, (body remaining).runFrom trace = (rest next remaining).runFrom later)

namespace Attempt

variable {body : Nat → Traced ρ} {rest : σ → Nat → Traced ρ} {Open : σ → Prop}
  {Settled : ρ → Prop} {trace : Trace}

theorem of_runFrom_eq {later : Trace} {tail : Nat → Traced ρ}
    (same : ∀ remaining, (body remaining).runFrom trace = (tail remaining).runFrom later)
    (attempt : Attempt tail rest Open Settled later) : Attempt body rest Open Settled trace := by
  cases attempt with
  | halts halt final runs => exact .halts halt final fun remaining => (same remaining).trans (runs _)
  | settles result final settled runs =>
      exact .settles result final settled fun remaining => (same remaining).trans (runs _)
  | continues next final opened runs =>
      exact .continues next final opened fun remaining => (same remaining).trans (runs _)

theorem after_note {line : String} {next : Nat → Unit → Traced ρ}
    (attempt : Attempt (fun remaining => next remaining ()) rest Open Settled (trace.push line)) :
    Attempt (fun remaining => note line >>= next remaining) rest Open Settled trace :=
  of_runFrom_eq (fun _ => by rw [runFrom_bind, runFrom_note]) attempt

theorem after_step {α : Type} {step : Outcome α} {next : Nat → α → Traced ρ}
    (attempt : ∀ value, step = .ok value →
      Attempt (fun remaining => next remaining value) rest Open Settled trace) :
    Attempt (fun remaining => (liftM step : Traced α) >>= next remaining) rest Open Settled
      trace := by
  cases outcome : step with
  | error halt => exact .halts halt trace fun _ => by rw [runFrom_bind, runFrom_liftM]
  | ok value =>
      exact of_runFrom_eq (fun _ => by rw [runFrom_bind, runFrom_liftM]) (attempt value outcome)

theorem of_ensures {computation : Traced ρ} (ensures : Ensures computation Settled) :
    Attempt (fun _ => computation) rest Open Settled trace := by
  rcases run : computation.runFrom trace with ⟨outcome, later⟩
  cases outcome with
  | error halt => exact .halts halt later fun _ => run
  | ok result => exact .settles result later (ensures trace result (by rw [run])) fun _ => run

end Attempt

/-- `run k state remaining` makes at most `remaining` attempts, the first of them with number `k`,
and returns an unsettled result when they are used up. -/
structure BoundedSearch (run : Nat → σ → Nat → Traced ρ) (Open : σ → Prop)
    (Settled : Nat → ρ → Prop) (Unsettled : ρ → Prop) : Prop where
  attempt : ∀ k state trace, Open state →
    Attempt (fun remaining => run k state (remaining + 1)) (run (k + 1)) Open (Settled k) trace
  exhausted : ∀ k state trace, Open state →
    ∃ result, Unsettled result ∧ (run k state 0).runFrom trace = (.ok result, trace)

variable {run : Nat → σ → Nat → Traced ρ} {Open : σ → Prop} {Settled : Nat → ρ → Prop}
  {Unsettled : ρ → Prop}

/-- A search that was settled is settled by the same attempt and with the same trace under any other
bound that allows the attempt, and stays unsettled under the others. -/
theorem BoundedSearch.cut_off (search : BoundedSearch run Open Settled Unsettled)
    (state : σ) {k remaining : Nat} {trace final : Trace} {result : ρ} (opened : Open state)
    (found : (run k state remaining).runFrom trace = (.ok result, final))
    (decided : ¬ Unsettled result) :
    ∃ last, k ≤ last ∧ Settled last result ∧ ∀ other,
      (last < k + other → (run k state other).runFrom trace = (.ok result, final)) ∧
      (k + other ≤ last →
        ∃ stopped later, Unsettled stopped ∧
          (run k state other).runFrom trace = (.ok stopped, later)) := by
  -- On the attempts that were allowed; the other bound is compared at each of them.
  induction remaining generalizing k state trace with
  | zero =>
      obtain ⟨stopped, unsettled, run⟩ := search.exhausted k state trace opened
      cases run.symm.trans found
      exact absurd unsettled decided
  | succ remaining ih =>
      obtain ⟨stopped, unsettled, none⟩ := search.exhausted k state trace opened
      cases search.attempt k state trace opened with
      | halts halt later runs => cases (runs remaining).symm.trans found
      | settles answer later settled runs =>
          cases (runs remaining).symm.trans found
          refine ⟨k, Nat.le_refl k, settled, fun other => ?_⟩
          cases other with
          | zero => exact ⟨fun inside => by omega, fun _ => ⟨stopped, trace, unsettled, none⟩⟩
          | succ other => exact ⟨fun _ => runs other, fun outside => by omega⟩
      | continues next later kept runs =>
          obtain ⟨last, after, settled, others⟩ := ih next kept ((runs remaining).symm.trans found)
          refine ⟨last, by omega, settled, fun other => ?_⟩
          cases other with
          | zero => exact ⟨fun inside => by omega, fun _ => ⟨stopped, trace, unsettled, none⟩⟩
          | succ other =>
              rw [runs other, Nat.add_comm other 1, ← Nat.add_assoc]
              exact others other

end Bounded

namespace LogSolver

variable {solver : LogSolver} {g a n m : Nat}

def bounded (solver : LogSolver) (relationBound targetBound : Option Nat) : LogSolver :=
  { solver with relationBound := relationBound, targetBound := targetBound }

variable {relationBound targetBound : Option Nat}

/-! ## The search for relations -/

theorem searchRelations_ignores_bounds (k : Nat) (system : RelationSystem) (remaining : Nat) :
    (solver.bounded relationBound targetBound).searchRelations g n k system remaining
      = solver.searchRelations g n k system remaining := by
  induction remaining generalizing k system with
  | zero => rfl
  | succ remaining ih =>
      simp only [searchRelations, ih]
      rfl

/-- The system is full, and the relation that made it so has exponent `k`. -/
def FilledAt (k : Nat) (system : RelationSystem) : Prop :=
  system.isFull = true ∧ ∃ last, system.relations.getLast? = some last ∧ last.exponent = k

theorem searchRelations_attempt (k : Nat) {system : RelationSystem} (trace : Trace)
    (opened : system.isFull = false) :
    Attempt (fun remaining => solver.searchRelations g n k system (remaining + 1))
      (solver.searchRelations g n (k + 1)) (fun system => system.isFull = false) (FilledAt k)
      trace := by
  simp only [searchRelations]
  apply Attempt.after_step
  intro _ _
  apply Attempt.after_step
  intro value _
  by_cases one : value = 1
  · simp only [if_pos one]
    exact .continues system trace opened fun _ => rfl
  · simp only [if_neg one]
    apply Attempt.after_step
    intro factorization _
    apply Attempt.after_step
    rintro ⟨admission, next⟩ offered
    obtain ⟨rfl, rfl | rfl⟩ | ⟨_, _, ⟨rfl, rfl, _⟩ | ⟨grown, rfl, _⟩⟩ :=
      RelationSystem.offer_inv offered
    · exact .continues next trace opened fun _ => rfl
    · exact .continues next trace opened fun _ => rfl
    · exact Attempt.after_note (.continues next _ opened fun _ => rfl)
    · apply Attempt.after_note
      cases full : next.isFull with
      | false => exact .continues next _ full fun _ => rfl
      | true =>
          simp only [if_true]
          refine Attempt.of_ensures (Ensures.after fun _ => Ensures.after fun _ => ensures_pure ?_)
          exact ⟨full, _, by rw [grown, List.getLast?_concat], rfl⟩

theorem searchRelations_boundedSearch :
    BoundedSearch (solver.searchRelations g n) (fun system => system.isFull = false) FilledAt
      (fun system => system.isFull = false) where
  attempt k _ trace opened := searchRelations_attempt k trace opened
  exhausted _ system _ opened := ⟨system, opened, rfl⟩

def equationLines (system : RelationSystem) : List String :=
  "" :: "System of equations:" :: system.relations.map fun relation =>
    s!"log({relation.value}) = {relation.exponent} ({relation.factorization.logTerms})"

theorem gatherRelations_eq_ok {trace final : Trace} {system : RelationSystem} :
    (solver.gatherRelations g n).runFrom trace = (.ok system, final) ↔
      ∃ m middle, Word.minus n 1 = .ok m ∧
        (solver.searchRelations g n 1 (RelationSystem.empty solver.base m)
          (solver.relationBound.getD n - 1)).runFrom trace = (.ok system, middle) ∧
        system.isFull = true ∧ middle.extend (equationLines system) = final := by
  have listing : ∀ found : RelationSystem, Yields (do
      blank
      note "System of equations:"
      notes (found.relations.map fun relation =>
        s!"log({relation.value}) = {relation.exponent} ({relation.factorization.logTerms})")
      return found) (.ok found) (equationLines found) := by
    intro found trace
    simp only [runFrom_bind, runFrom_blank, runFrom_note]
    rw [yields_notes]
    rfl
  rw [gatherRelations, runFrom_bind_eq_ok]
  constructor
  · rintro ⟨m, _, lowered, gathered⟩
    rw [runFrom_liftM, Prod.mk.injEq] at lowered
    obtain ⟨lowered, rfl⟩ := lowered
    obtain ⟨found, middle, searched, gathered⟩ := runFrom_bind_eq_ok.mp gathered
    by_cases full : found.isFull = true
    · rw [if_pos full, listing found middle] at gathered
      cases gathered
      exact ⟨m, middle, lowered, searched, full, rfl⟩
    · rw [if_neg full] at gathered
      simp [runFrom_bind] at gathered
  · rintro ⟨m, middle, lowered, searched, full, rfl⟩
    refine ⟨m, trace, by rw [runFrom_liftM, lowered], runFrom_bind_eq_ok.mpr ⟨_, _, searched, ?_⟩⟩
    rw [if_pos full]
    exact listing system middle

theorem gatherRelations_cut_off (valid : solver.base.Valid) {trace final : Trace}
    {system : RelationSystem}
    (gathered : (solver.gatherRelations g n).runFrom trace = (.ok system, final)) :
    ∃ last, system.relations.getLast? = some last ∧ ∀ relationBound targetBound,
      (last.exponent < relationBound.getD n →
        ((solver.bounded relationBound targetBound).gatherRelations g n).runFrom trace
          = (.ok system, final)) ∧
      (relationBound.getD n ≤ last.exponent → ∀ other later,
        ((solver.bounded relationBound targetBound).gatherRelations g n).runFrom trace
          ≠ (.ok other, later)) := by
  obtain ⟨m, middle, lowered, searched, full, rfl⟩ := gatherRelations_eq_ok.mp gathered
  obtain ⟨_, positive, ⟨_, last, listed, rfl⟩, others⟩ := searchRelations_boundedSearch.cut_off _
    (RelationSystem.empty_not_full valid m) searched (by simp [full])
  refine ⟨last, listed, fun relationBound targetBound => ?_⟩
  obtain ⟨inside, outside⟩ := others (relationBound.getD n - 1)
  constructor
  · intro allowed
    refine gatherRelations_eq_ok.mpr ⟨m, middle, lowered, ?_, full, rfl⟩
    rw [searchRelations_ignores_bounds]
    exact inside (by omega)
  · intro excluded other later again
    obtain ⟨_, _, same, reached, otherFull, _⟩ := gatherRelations_eq_ok.mp again
    cases same.symm.trans lowered
    rw [searchRelations_ignores_bounds] at reached
    obtain ⟨stopped, _, unfilled, run⟩ := outside (by omega)
    cases run.symm.trans reached
    exact absurd otherFull (by simp [unfilled])

/-! ## The search for the target -/

theorem searchTarget_ignores_bounds (generatorLog : Nat) (logs : List Nat) (k remaining : Nat) :
    (solver.bounded relationBound targetBound).searchTarget g a n m generatorLog logs k remaining
      = solver.searchTarget g a n m generatorLog logs k remaining := by
  induction remaining generalizing k with
  | zero => rfl
  | succ remaining ih =>
      simp only [searchTarget, ih]
      rfl

def ReachedAt (k : Nat) (found : Option (Nat × Nat)) : Prop :=
  ∃ log, found = some (k, log)

theorem searchTarget_attempt (generatorLog : Nat) (logs : List Nat) (k : Nat) (trace : Trace) :
    Attempt (fun remaining => solver.searchTarget g a n m generatorLog logs k (remaining + 1))
      (fun (_ : Unit) => solver.searchTarget g a n m generatorLog logs (k + 1)) (fun _ => True)
      (ReachedAt k) trace := by
  simp only [searchTarget]
  apply Attempt.after_step
  intro _ _
  apply Attempt.after_step
  intro power _
  apply Attempt.after_step
  intro product _
  apply Attempt.after_step
  intro factorization _
  by_cases splits : solver.base.splits factorization = true
  · simp only [if_pos splits]
    apply Attempt.after_note
    exact Attempt.of_ensures (Ensures.after fun log => ensures_pure ⟨log, rfl⟩)
  · simp only [if_neg splits]
    exact Attempt.after_note (.continues () _ trivial fun _ => rfl)

theorem searchTarget_boundedSearch (generatorLog : Nat) (logs : List Nat) :
    BoundedSearch (fun k (_ : Unit) => solver.searchTarget g a n m generatorLog logs k)
      (fun _ => True) ReachedAt (· = none) where
  attempt k _ trace _ := searchTarget_attempt generatorLog logs k trace
  exhausted _ _ _ _ := ⟨none, rfl, rfl⟩

theorem targetLog_eq_ok {generatorLog : Nat} {logs : List Nat} {trace final : Trace}
    {found : Nat × Nat} :
    (solver.targetLog g a n m generatorLog logs).runFrom trace = (.ok found, final) ↔
      (solver.searchTarget g a n m generatorLog logs 1 (solver.targetBound.getD m)).runFrom trace
        = (.ok (some found), final) := by
  rw [targetLog, runFrom_bind_eq_ok]
  constructor
  · rintro ⟨result, middle, searched, answered⟩
    cases result with
    | none => simp [runFrom_bind] at answered
    | some reached =>
        cases answered
        exact searched
  · intro searched
    exact ⟨some found, final, searched, rfl⟩

theorem targetLog_cut_off {generatorLog : Nat} {logs : List Nat} {trace final : Trace}
    {found : Nat × Nat}
    (reached : (solver.targetLog g a n m generatorLog logs).runFrom trace = (.ok found, final))
    (relationBound targetBound : Option Nat) :
    (found.1 ≤ targetBound.getD m →
      ((solver.bounded relationBound targetBound).targetLog g a n m generatorLog logs).runFrom trace
        = (.ok found, final)) ∧
    (targetBound.getD m < found.1 → ∀ other later,
      ((solver.bounded relationBound targetBound).targetLog g a n m generatorLog logs).runFrom trace
        ≠ (.ok other, later)) := by
  obtain ⟨shift, _, ⟨log, same⟩, others⟩ := (searchTarget_boundedSearch generatorLog logs).cut_off
    () trivial (targetLog_eq_ok.mp reached) (by simp)
  cases same
  obtain ⟨inside, outside⟩ := others (targetBound.getD m)
  constructor
  · intro allowed
    rw [targetLog_eq_ok, searchTarget_ignores_bounds]
    exact inside (by omega)
  · intro excluded other later again
    rw [targetLog_eq_ok, searchTarget_ignores_bounds] at again
    obtain ⟨_, _, rfl, run⟩ := outside (by omega)
    cases run.symm.trans again

/-! ## Runs with an answer -/

theorem opening_modulus {trace final : Trace} {operands : Nat × Nat × Nat}
    (opened : (solver.opening g a n).runFrom trace = (.ok operands, final)) :
    operands.2.2 = n - 1 := by
  have lowers : Ensures (solver.opening g a n) fun operands => operands.2.2 = n - 1 := by
    unfold opening
    apply Ensures.after_step
    intro _ _
    apply Ensures.after_step
    intro _ _
    apply Ensures.after_step
    intro _ _
    apply Ensures.after_step
    intro m lowered
    iterate 6 refine Ensures.after fun _ => ?_
    exact ensures_pure (Word.eq_of_minus lowered)
  exact lowers trace operands (by rw [opened])

theorem solve_eq_ok {trace final : Trace} {solution : LogSolution} :
    (solver.solve g a n).runFrom trace = (.ok solution, final) ↔
      ∃ operands stated system gathered logs determined found,
        (solver.opening g a n).runFrom trace = (.ok operands, stated) ∧
        (solver.gatherRelations operands.1 n).runFrom stated = (.ok system, gathered) ∧
        (solver.determineLogs operands.1 operands.2.2 system).runFrom gathered
          = (.ok logs, determined) ∧
        (solver.targetLog operands.1 operands.2.1 n operands.2.2 logs.2 logs.1).runFrom determined
          = (.ok found, final) ∧
        solution = ⟨found.2, solver.base.primes.zip logs.1, logs.2, system.relations, found.1⟩ := by
  rw [solve_phases]
  constructor
  · intro success
    obtain ⟨operands, stated, opened, success⟩ := runFrom_bind_eq_ok.mp success
    obtain ⟨system, gathered, gathers, success⟩ := runFrom_bind_eq_ok.mp success
    obtain ⟨logs, determined, determines, success⟩ := runFrom_bind_eq_ok.mp success
    obtain ⟨found, _, reached, success⟩ := runFrom_bind_eq_ok.mp success
    cases success
    exact ⟨operands, stated, system, gathered, logs, determined, found, opened, gathers,
      determines, reached, rfl⟩
  · rintro ⟨operands, stated, system, gathered, logs, determined, found, opened, gathers,
      determines, reached, rfl⟩
    refine runFrom_bind_eq_ok.mpr ⟨operands, stated, opened, ?_⟩
    refine runFrom_bind_eq_ok.mpr ⟨system, gathered, gathers, ?_⟩
    refine runFrom_bind_eq_ok.mpr ⟨logs, determined, determines, ?_⟩
    exact runFrom_bind_eq_ok.mpr ⟨found, final, reached, rfl⟩

theorem solve_cut_off (valid : solver.base.Valid) {trace final : Trace} {solution : LogSolution}
    (success : (solver.solve g a n).runFrom trace = (.ok solution, final)) :
    ∃ last, solution.relations.getLast? = some last ∧ ∀ relationBound targetBound,
      (last.exponent < relationBound.getD n ∧ solution.targetShift ≤ targetBound.getD (n - 1) →
        ((solver.bounded relationBound targetBound).solve g a n).runFrom trace
          = (.ok solution, final)) ∧
      ∀ found later,
        ((solver.bounded relationBound targetBound).solve g a n).runFrom trace
          = (.ok found, later) →
        last.exponent < relationBound.getD n ∧ solution.targetShift ≤ targetBound.getD (n - 1) := by
  obtain ⟨⟨_, _, m⟩, stated, system, gathered, logs, determined, found, opened, gathers, determines,
    reached, rfl⟩ := solve_eq_ok.mp success
  cases opening_modulus opened
  obtain ⟨last, listed, gatherings⟩ := gatherRelations_cut_off valid gathers
  refine ⟨last, listed, fun relationBound targetBound => ?_⟩
  obtain ⟨gathersInside, gathersOutside⟩ := gatherings relationBound targetBound
  obtain ⟨reachedInside, reachedOutside⟩ := targetLog_cut_off reached relationBound targetBound
  constructor
  · rintro ⟨below, within⟩
    exact solve_eq_ok.mpr ⟨_, stated, system, gathered, logs, determined, found, opened,
      gathersInside below, determines, reachedInside within, rfl⟩
  · intro other later again
    obtain ⟨_, _, _, _, _, _, _, openedAgain, gathersAgain, determinesAgain, reachedAgain, _⟩ :=
      solve_eq_ok.mp again
    -- Each phase ran before as it runs again, up to the first search that is cut off.
    cases opened.symm.trans openedAgain
    have below : last.exponent < relationBound.getD n := by
      by_contra excluded
      exact gathersOutside (Nat.le_of_not_lt excluded) _ _ gathersAgain
    cases (gathersInside below).symm.trans gathersAgain
    cases determines.symm.trans determinesAgain
    refine ⟨below, ?_⟩
    by_contra excluded
    exact reachedOutside (Nat.lt_of_not_le excluded) _ _ reachedAgain

/-- The bounds are cut-offs: once some bounds give an answer, the same answer with the same trace
is given by exactly the bounds that leave room for its last relation and for its shift. -/
theorem solve_bounds_cut_off {primes : List Nat}
    (admitted : FactorBase.ofPrimes primes = .ok solver.base) {trace : Trace}
    {solution : LogSolution} (success : ((solver.solve g a n).runFrom trace).1 = .ok solution) :
    ∃ last, solution.relations.getLast? = some last ∧ ∀ relationBound targetBound,
      ((∃ found, (((solver.bounded relationBound targetBound).solve g a n).runFrom trace).1
          = .ok found) ↔
        last.exponent < relationBound.getD n ∧
          solution.targetShift ≤ targetBound.getD (n - 1)) ∧
      ∀ found, (((solver.bounded relationBound targetBound).solve g a n).runFrom trace).1
          = .ok found →
        found = solution ∧ ((solver.bounded relationBound targetBound).solve g a n).runFrom trace
          = (solver.solve g a n).runFrom trace := by
  rcases run : (solver.solve g a n).runFrom trace with ⟨outcome, final⟩
  rw [run] at success
  cases success
  obtain ⟨last, listed, others⟩ := solve_cut_off (FactorBase.valid_of_ofPrimes admitted) run
  refine ⟨last, listed, fun relationBound targetBound => ?_⟩
  obtain ⟨kept, needed⟩ := others relationBound targetBound
  rcases other : ((solver.bounded relationBound targetBound).solve g a n).runFrom trace with
    ⟨outcome, later⟩
  constructor
  · constructor
    · rintro ⟨found, rfl⟩
      exact needed found later other
    · intro inside
      rw [kept inside] at other
      cases other
      exact ⟨solution, rfl⟩
  · rintro found rfl
    rw [kept (needed found later other)] at other
    cases other
    exact ⟨rfl, rfl⟩

/-- Modulo 17 the second relation for the base 2 and 3 is the tenth power of 3, and the fourth shift
of 13 splits; both bounds are sharp. -/
theorem solve_bounds_cut_off_sharp :
    ((bounded ⟨⟨[2, 3]⟩, none, none, .fresh⟩ (some 11) (some 4)).solve 3 13 17).runFrom Trace.empty
        = (solve ⟨⟨[2, 3]⟩, none, none, .fresh⟩ 3 13 17).runFrom Trace.empty ∧
      (¬ ∃ found, (((bounded ⟨⟨[2, 3]⟩, none, none, .fresh⟩ (some 10) none).solve 3 13 17).runFrom
        Trace.empty).1 = .ok found) ∧
      ¬ ∃ found, (((bounded ⟨⟨[2, 3]⟩, none, none, .fresh⟩ none (some 3)).solve 3 13 17).runFrom
        Trace.empty).1 = .ok found := by
  have admitted : FactorBase.ofPrimes [2, 3] = .ok (mk ⟨[2, 3]⟩ none none .fresh).base := by
    decide +kernel
  have success : ((solve ⟨⟨[2, 3]⟩, none, none, .fresh⟩ 3 13 17).runFrom Trace.empty).1
      = .ok ⟨4, [(2, 14), (3, 1)], 1,
        [⟨3, 1, ⟨[(3, 1)], by decide⟩⟩, ⟨8, 10, ⟨[(2, 3)], by decide⟩⟩], 4⟩ := by
    decide +kernel
  obtain ⟨last, listed, others⟩ := solve_bounds_cut_off admitted success
  cases listed
  have narrow := others (some 11) (some 4)
  obtain ⟨found, answered⟩ := narrow.1.mpr (by decide)
  exact ⟨(narrow.2 found answered).2, fun answered => absurd ((others _ _).1.mp answered) (by decide),
    fun answered => absurd ((others _ _).1.mp answered) (by decide)⟩

end LogSolver

end ResidueAlgebra
