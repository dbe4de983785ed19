import ResidueAlgebra.Proofs.IndexCalculus.Logarithm

/-!
# Gathering relations

With a token that nobody has cancelled, the search for relations never fails, whatever its bound,
and keeps the invariant `Gathered` of the system. Further properties of the search are proved for one
attempt, as a `SearchInvariant`, and hold for the whole search. A system that is returned is full and
its equations have a solution; a search that stops short reports the rank it reached.
-/
set_option autoImplicit false
namespace ResidueAlgebra

open Traced

variable {n g : Nat}

/-! ## The invariant -/

theorem RelationSystem.empty_gathered [Fact n.Prime] (base : FactorBase) (g : Nat) :
    (RelationSystem.empty base (n - 1)).Gathered base g n where
  coherent := RelationSystem.empty_coherent base (NeZero.pos (n - 1))
  base_eq := rfl
  modulus_eq := rfl
  genuine := by simp [RelationSystem.empty]

theorem RelationSystem.empty_not_full {base : FactorBase} (valid : base.Valid) (m : Nat) :
    (RelationSystem.empty base m).isFull = false := by
  have filled := List.length_pos_iff_ne_nil.mpr valid.nonempty
  simp only [RelationSystem.isFull, RelationSystem.empty, FactorBase.size, beq_eq_false_iff_ne]
  omega

theorem RelationSystem.Gathered.offer_cases [Fact n.Prime] {base : FactorBase}
    {system : RelationSystem} (gathered : system.Gathered base g n) (fits : n < Word.long)
    {relation : Relation} (genuine : relation.Genuine g n) :
    (∃ admission, admission ≠ .accepted ∧ system.offer relation = .ok (admission, system)) ∨
      (system.offer relation = .ok (.accepted, system.extended relation) ∧
        (system.extended relation).Gathered base g n) := by
  have positive : 0 < system.modulus := by
    rw [gathered.modulus_eq]
    exact NeZero.pos (n - 1)
  have small : system.modulus < Word.long := by
    rw [gathered.modulus_eq]
    omega
  rcases gathered.coherent.offer_cases positive small relation with refused | ⟨offered, _, coherent⟩
  · exact Or.inl refused
  · refine Or.inr ⟨offered, coherent, gathered.base_eq, gathered.modulus_eq, ?_⟩
    intro other member
    rcases List.mem_append.mp member with old | new
    · exact gathered.genuine other old
    · rw [List.mem_singleton.mp new]
      exact genuine

theorem Relation.power_genuine [Fact n.Prime] (nonzero : (g : ZMod n) ≠ 0) (k : Nat)
    {factorization : Factorization} (complete : factorization.Of ((g : ZMod n) ^ k).val) :
    (Relation.mk ((g : ZMod n) ^ k).val k factorization).Genuine g n where
  value_eq := ZMod.natCast_zmod_val _
  nonzero := by
    intro zero
    exact pow_ne_zero k nonzero ((ZMod.val_eq_zero _).mp zero)
  below := ZMod.val_lt _
  complete := complete

/-! ## The search -/

/-- Each way an attempt of the search can go on keeps `Holds`, which speaks of the exponent that is
tried next, the number of attempts that are left and the system; both ways to stop reach the goal. -/
structure RelationSystem.SearchInvariant (base : FactorBase) (g n : Nat)
    (Holds : Nat → Nat → RelationSystem → Prop) (Goal : RelationSystem → Prop) : Prop where
  exhausted : ∀ {k system}, system.Gathered base g n → Holds k 0 system → Goal system
  skipped : ∀ {k remaining system}, system.Gathered base g n → ((g : ZMod n) ^ k).val = 1 →
    Holds k (remaining + 1) system → Holds (k + 1) remaining system
  turnedDown : ∀ {k remaining system factorization admission}, system.Gathered base g n →
    factorization.Of ((g : ZMod n) ^ k).val →
    system.offer ⟨((g : ZMod n) ^ k).val, k, factorization⟩ = .ok (admission, system) →
    admission ≠ .accepted → Holds k (remaining + 1) system → Holds (k + 1) remaining system
  filled : ∀ {k remaining system factorization}, system.Gathered base g n →
    (system.extended ⟨((g : ZMod n) ^ k).val, k, factorization⟩).Gathered base g n →
    (system.extended ⟨((g : ZMod n) ^ k).val, k, factorization⟩).isFull = true →
    Holds k (remaining + 1) system →
    Goal (system.extended ⟨((g : ZMod n) ^ k).val, k, factorization⟩)
  admitted : ∀ {k remaining system factorization}, system.Gathered base g n →
    (system.extended ⟨((g : ZMod n) ^ k).val, k, factorization⟩).Gathered base g n →
    (system.extended ⟨((g : ZMod n) ^ k).val, k, factorization⟩).isFull = false →
    Holds k (remaining + 1) system →
    Holds (k + 1) remaining (system.extended ⟨((g : ZMod n) ^ k).val, k, factorization⟩)

namespace LogSolver

variable {solver : LogSolver}

/-- Without a cancellation the search never fails, and an invariant of its attempts leads to the
goal. -/
theorem searchRelations_invariant [Fact n.Prime] (live : solver.token.requested = false)
    (fits : n < Word.long) (nonzero : (g : ZMod n) ≠ 0) {base : FactorBase}
    {Holds : Nat → Nat → RelationSystem → Prop} {Goal : RelationSystem → Prop}
    (invariant : RelationSystem.SearchInvariant base g n Holds Goal) {system : RelationSystem}
    (gathered : system.Gathered base g n) (k remaining : Nat) (holds : Holds k remaining system) :
    Ends (solver.searchRelations g n k system remaining) fun outcome =>
      ∃ later, outcome = .ok later ∧ Goal later := by
  induction remaining generalizing k system with
  | zero => exact ends_pure ⟨system, rfl, invariant.exhausted gathered holds⟩
  | succ remaining ih =>
      unfold searchRelations
      apply Ends.after_ok (Token.check_live live)
      apply Ends.after_ok (Residue.pow_val fits g k)
      split
      · rename_i one
        exact ih gathered (k + 1) (invariant.skipped gathered one holds)
      · obtain ⟨factorization, factored, complete⟩ :=
          TrialDivision.factor_spec (Residue.val_lt_long fits ((g : ZMod n) ^ k))
        apply Ends.after_ok factored
        rcases gathered.offer_cases fits (Relation.power_genuine nonzero k complete) with
          ⟨admission, refused, offered⟩ | ⟨offered, kept⟩
        · have later := invariant.turnedDown gathered complete offered refused holds
          apply Ends.after_ok offered
          cases admission with
          | accepted => exact absurd rfl refused
          | linearlyDependent => exact Ends.after_note (ih gathered (k + 1) later)
          | notSmooth => exact ih gathered (k + 1) later
          | duplicateValue => exact ih gathered (k + 1) later
        · apply Ends.after_ok offered
          apply Ends.after_note
          split
          · rename_i full
            have reached := invariant.filled gathered kept full holds
            exact Ends.after_blank (Ends.after_note (ends_pure ⟨_, rfl, reached⟩))
          · rename_i notFull
            have unfinished := Bool.eq_false_iff.mpr notFull
            exact ih kept (k + 1) (invariant.admitted gathered kept unfinished holds)

theorem searchRelations_spec [Fact n.Prime] (live : solver.token.requested = false)
    (fits : n < Word.long) (nonzero : (g : ZMod n) ≠ 0) {base : FactorBase}
    {system : RelationSystem} (gathered : system.Gathered base g n) (k remaining : Nat) :
    Ends (solver.searchRelations g n k system remaining) fun outcome =>
      ∃ later, outcome = .ok later ∧ later.Gathered base g n := by
  have invariant : RelationSystem.SearchInvariant base g n (fun _ _ _ => True)
      fun later => later.Gathered base g n :=
    { exhausted := fun gathered _ => gathered
      skipped := fun _ _ _ => trivial
      turnedDown := fun _ _ _ _ _ => trivial
      filled := fun _ kept _ _ => kept
      admitted := fun _ _ _ _ => trivial }
  exact searchRelations_invariant live fits nonzero invariant gathered k remaining trivial

theorem gatherRelations_of_search {Goal : RelationSystem → Prop} (positive : 1 ≤ n)
    (searched : Ends (solver.searchRelations g n 1 (RelationSystem.empty solver.base (n - 1))
      (solver.relationBound.getD n - 1)) fun outcome =>
        ∃ system, outcome = .ok system ∧ Goal system) :
    Ends (solver.gatherRelations g n) fun outcome => ∃ system, Goal system ∧
      ((system.isFull = true ∧ outcome = .ok system) ∨
        (system.isFull = false ∧
          outcome = .error (.fault (.tooFewRelations system.rank solver.base.size)))) := by
  unfold gatherRelations
  apply Ends.after_ok (Word.minus_of_le positive)
  refine Ends.bind_ok searched fun system reached => ?_
  split
  · rename_i full
    apply Ends.after_blank
    apply Ends.after_note
    apply Ends.after_notes
    exact ends_pure ⟨system, reached, Or.inl ⟨full, rfl⟩⟩
  · rename_i notFull
    apply Ends.after_blank
    apply Ends.after_note
    exact ends_throw ⟨system, reached, Or.inr ⟨Bool.eq_false_iff.mpr notFull, rfl⟩⟩

theorem gatherRelations_spec [Fact n.Prime] (live : solver.token.requested = false)
    (fits : n < Word.long) (nonzero : (g : ZMod n) ≠ 0) :
    Ends (solver.gatherRelations g n) fun outcome =>
      (∃ system, outcome = .ok system ∧ system.Gathered solver.base g n ∧ system.isFull = true) ∨
        ∃ rank, outcome = .error (.fault (.tooFewRelations rank solver.base.size)) := by
  have searched := searchRelations_spec live fits nonzero
    (RelationSystem.empty_gathered solver.base g) 1 (solver.relationBound.getD n - 1)
  refine (gatherRelations_of_search (Fact.out : n.Prime).one_le searched).imp ?_
  rintro outcome ⟨system, gathered, ⟨full, same⟩ | ⟨_, same⟩⟩
  · exact Or.inl ⟨system, same, gathered, full⟩
  · exact Or.inr ⟨system.rank, same⟩

/-- A cancelled search finds nothing: the base is not empty, so no system is full from the start. -/
theorem gatherRelations_cancelled (valid : solver.base.Valid)
    (stopped : solver.token.requested = true) (g : Nat) {n : Nat} (positive : 1 ≤ n) :
    Ends (solver.gatherRelations g n) fun outcome => ∃ cause, outcome = .error (.fault cause) := by
  unfold gatherRelations
  apply Ends.after_ok (Word.minus_of_le positive)
  cases solver.relationBound.getD n - 1 with
  | zero =>
      unfold searchRelations
      apply Ends.after (yields_pure _)
      rw [RelationSystem.empty_not_full valid]
      exact Ends.after_blank (Ends.after_note (ends_throw ⟨_, rfl⟩))
  | succ remaining =>
      have stops : Ends (solver.searchRelations g n 1 (RelationSystem.empty solver.base (n - 1))
          (remaining + 1)) fun outcome => outcome = .error (.fault .cancelled) := by
        unfold searchRelations
        exact Ends.after_error (Token.check_cancelled stopped) rfl
      refine Ends.bind stops (by simp) ?_
      intro halt same
      cases same
      exact ⟨_, rfl⟩

theorem gatherRelations_cases [Fact n.Prime] (valid : solver.base.Valid) (fits : n < Word.long)
    (nonzero : (g : ZMod n) ≠ 0) :
    Ends (solver.gatherRelations g n) fun outcome =>
      (∃ system, outcome = .ok system ∧ system.Gathered solver.base g n ∧ system.isFull = true ∧
        solver.token.requested = false) ∨
      ∃ cause, outcome = .error (.fault cause) ∧ (solver.token.requested = false →
        ∃ rank, cause = .tooFewRelations rank solver.base.size) := by
  cases token : solver.token.requested with
  | false =>
      refine (gatherRelations_spec token fits nonzero).imp fun outcome found => ?_
      rcases found with ⟨system, same, gathered, full⟩ | ⟨rank, same⟩
      · exact Or.inl ⟨system, same, gathered, full, rfl⟩
      · exact Or.inr ⟨_, same, fun _ => ⟨rank, rfl⟩⟩
  | true =>
      have positive : 1 ≤ n := (Fact.out : n.Prime).one_le
      refine (gatherRelations_cancelled valid token g positive).imp fun outcome stopped => ?_
      obtain ⟨cause, same⟩ := stopped
      exact Or.inr ⟨cause, same, by simp⟩

theorem solveBaseLogs_spec [Fact n.Prime] (valid : solver.base.Valid) (three : 3 ≤ n)
    (fits : n < Word.long) (nonzero : (g : ZMod n) ≠ 0) {system : RelationSystem}
    (gathered : system.Gathered solver.base g n) (full : system.isFull = true) :
    Ends (solver.solveBaseLogs system) fun outcome =>
      ∃ logs, outcome = .ok logs ∧ solver.base.Logs g n logs := by
  obtain ⟨logs, solved, logged⟩ := gathered.solve_logs valid three fits nonzero full
  rw [solveBaseLogs, solved]
  apply Ends.after_note
  apply Ends.after_note
  apply Ends.after_notes
  apply Ends.after_note
  apply Ends.after_notes
  apply Ends.after_notes
  exact ends_pure ⟨logs, rfl, logged⟩

end LogSolver

end ResidueAlgebra
