import ResidueAlgebra.Proofs.Linear.Elimination

/-!
# Whole eliminations and the rank

Elimination runs through all columns without failing and ends in echelon form with the solutions it
started from. The entries it computes do not depend on the sides: `bare` forgets the sides, and
elimination commutes with it. The rank of a matrix is therefore the number of pivots of any system
with that matrix.
-/
set_option autoImplicit false
namespace ResidueAlgebra

/-! ## Forgetting the sides -/

def Equation.bare (equation : Equation) : Equation :=
  ⟨equation.entries, 0⟩

namespace LinearSystem

variable {m columns : Nat}

def bare (system : LinearSystem) : LinearSystem :=
  { system with
    augmented := false
    solved := system.solved.map fun owned => (owned.1, owned.2.bare)
    pending := system.pending.map Equation.bare }

theorem bare_rank (system : LinearSystem) : system.bare.rank = system.rank := by
  simp [bare, rank]

theorem bare_equations (system : LinearSystem) :
    system.bare.equations = system.equations.map Equation.bare := by
  simp [bare, equations, Function.comp_def]

theorem Sized.bare [NeZero m] {system : LinearSystem} (sized : system.Sized m columns) :
    system.bare.Sized m columns where
  modulus_eq := sized.modulus_eq
  columns_eq := sized.columns_eq
  fits := by
    intro equation member
    rw [bare_equations] at member
    obtain ⟨old, present, rfl⟩ := List.mem_map.mp member
    have fitted := sized.fits old present
    exact ⟨fitted.length_eq, fitted.entries_lt, NeZero.pos m⟩

theorem clearedBy_bare (column : Nat) (pivot equation : Equation) :
    (clearedBy m column pivot equation).bare = clearedBy m column pivot.bare equation.bare := by
  simp [clearedBy, Equation.minus, Equation.bare, Equation.coefficient]

theorem pivoted_bare (system : LinearSystem) (column : Nat) (chosen : Equation)
    (others : List Equation) :
    (system.pivoted m column chosen others).bare
      = system.bare.pivoted m column chosen.bare (others.map Equation.bare) := by
  have scaled : (chosen.scaled (chosen.coefficient m column)⁻¹).bare
      = chosen.bare.scaled (chosen.bare.coefficient m column)⁻¹ := by
    simp [Equation.scaled, Equation.bare, Equation.coefficient]
  simp [pivoted, bare, Function.comp_def, clearedBy_bare, scaled]

theorem exchange_bare (m column : Nat) (first : Equation) (rest : List Equation) :
    exchange m column first.bare (rest.map Equation.bare)
      = (exchange m column first rest).map
        (Option.map fun found => (found.1.bare, found.2.map Equation.bare)) := by
  induction rest with
  | nil => rfl
  | cons equation rest ih =>
      have unit : equation.bare.hasUnit m column = equation.hasUnit m column := rfl
      rw [List.map_cons, exchange, exchange, unit, ih]
      cases equation.hasUnit m column with
      | error halt => rfl
      | ok usable =>
          cases usable with
          | true => rfl
          | false =>
              cases exchange m column first rest with
              | error halt => rfl
              | ok found => cases found <;> rfl

theorem choosePivot_bare (m column : Nat) (pending : List Equation) :
    choosePivot m column (pending.map Equation.bare)
      = (choosePivot m column pending).map
        (Option.map fun found => (found.1.bare, found.2.map Equation.bare)) := by
  cases pending with
  | nil => rfl
  | cons first rest =>
      have unit : first.bare.hasUnit m column = first.hasUnit m column := rfl
      rw [List.map_cons, choosePivot, choosePivot, unit, exchange_bare]
      cases first.hasUnit m column with
      | error halt => rfl
      | ok usable => cases usable <;> rfl

/-! ## Columns one after another -/

/-- Where elimination stands after the columns below `bound`. -/
structure Progress (m columns bound : Nat) (start current : LinearSystem) : Prop where
  sized : current.Sized m columns
  echelon : current.Echelon m bound
  equivalent : Equivalent m current start
  total : current.solved.length + current.pending.length
    = start.solved.length + start.pending.length
  augmented_eq : current.augmented = start.augmented
  proper : current.solved ≠ [] → 1 < m
  staircase : m.Prime → current.Staircase m bound

theorem Progress.processColumn [NeZero m] (fits : m < Word.long) {column : Nat}
    (inside : column < columns) {start current : LinearSystem}
    (progress : Progress m columns column start current) :
    ∃ next, current.processColumn column = .ok next ∧
      current.bare.processColumn column = .ok next.bare ∧
      Progress m columns (column + 1) start next := by
  have sized := progress.sized
  have bareRun := choosePivot_bare m column current.pending
  rcases processColumn_cases fits sized inside with
    ⟨run, selection, useless⟩ | ⟨chosen, others, run, selection, usable, same⟩
  · refine ⟨current, run, ?_, sized, progress.echelon.mono (Nat.le_succ column),
      progress.equivalent, progress.total, progress.augmented_eq, progress.proper,
      fun prime => (progress.staircase prime).skipped prime sized useless⟩
    rw [selection] at bareRun
    rcases processColumn_cases fits sized.bare inside with
      ⟨run', _⟩ | ⟨chosen, others, _, selection', _⟩
    · exact run'
    · cases bareRun.symm.trans selection'
  · refine ⟨current.pivoted m column chosen others, run, ?_, sized.pivoted same,
      progress.echelon.pivoted sized usable same, ?_, ?_, progress.augmented_eq, ?_, fun prime =>
      (progress.staircase prime).pivoted sized usable same progress.echelon⟩
    · rw [selection] at bareRun
      rcases processColumn_cases fits sized.bare inside with
        ⟨_, selection', _⟩ | ⟨chosen', others', run', selection', _⟩
      · cases bareRun.symm.trans selection'
      · cases bareRun.symm.trans selection'
        simp [run', pivoted_bare]
    · intro M _ _ unknowns unit
      exact (pivoted_equivalent sized usable same M unknowns unit).trans
        (progress.equivalent M unknowns unit)
    · have length := same.length_eq
      have before := progress.total
      simp only [pivoted, List.length_append, List.length_map, List.length_cons,
        List.length_nil] at length ⊢
      omega
    · intro _
      have chosenFits := sized.pending chosen (same.subset (List.mem_cons_self ..))
      exact chosenFits.one_lt_of_usable usable

theorem foldlM_range_succ {bound : Nat} {start current next : LinearSystem}
    (run : (List.range bound).foldlM LinearSystem.processColumn start = .ok current)
    (step : current.processColumn bound = .ok next) :
    (List.range (bound + 1)).foldlM LinearSystem.processColumn start = .ok next := by
  rw [List.range_succ, List.foldlM_append, run, Outcome.ok_bind, List.foldlM_cons, step]
  rfl

theorem Progress.run [NeZero m] (fits : m < Word.long) {start : LinearSystem}
    (initial : Progress m columns 0 start start) {bound : Nat} (inside : bound ≤ columns) :
    ∃ finish, (List.range bound).foldlM LinearSystem.processColumn start = .ok finish ∧
      (List.range bound).foldlM LinearSystem.processColumn start.bare = .ok finish.bare ∧
      Progress m columns bound start finish := by
  induction bound with
  | zero => exact ⟨start, rfl, rfl, initial⟩
  | succ bound ih =>
      obtain ⟨current, run, bareRun, progress⟩ := ih (Nat.le_of_succ_le inside)
      obtain ⟨next, step, bareStep, later⟩ := progress.processColumn fits inside
      exact ⟨next, foldlM_range_succ run step, foldlM_range_succ bareRun bareStep, later⟩

structure Fresh (m columns : Nat) (system : LinearSystem) : Prop where
  sized : system.Sized m columns
  solved_nil : system.solved = []
  not_reduced : system.reduced = false

theorem Fresh.initial {system : LinearSystem} (fresh : system.Fresh m columns) :
    Progress m columns 0 system system where
  sized := fresh.sized
  echelon := by
    constructor <;> simp [fresh.solved_nil]
  equivalent := fun _ _ _ _ _ => Iff.rfl
  total := rfl
  augmented_eq := rfl
  proper := fun solved => absurd fresh.solved_nil solved
  staircase := fun _ => ⟨by simp [fresh.solved_nil], by simp⟩

theorem Fresh.eliminate_spec [NeZero m] (fits : m < Word.long) {system : LinearSystem}
    (fresh : system.Fresh m columns) :
    ∃ finish, system.eliminate = .ok finish ∧ system.bare.eliminate = .ok finish.bare ∧
      Progress m columns columns system finish := by
  obtain ⟨finish, run, bareRun, progress⟩ := fresh.initial.run fits (Nat.le_refl columns)
  have columnsEq := fresh.sized.columns_eq
  refine ⟨{ finish with reduced := true }, ?_, ?_, ⟨?_, ?_, progress.equivalent, progress.total,
    progress.augmented_eq, progress.proper, ?_⟩⟩
  · rw [eliminate, fresh.not_reduced, if_neg Bool.false_ne_true, columnsEq, run]
    rfl
  · have notReduced : system.bare.reduced = false := fresh.not_reduced
    have bareColumns : system.bare.columns = columns := columnsEq
    rw [eliminate, notReduced, if_neg Bool.false_ne_true, bareColumns, bareRun]
    rfl
  · exact ⟨progress.sized.modulus_eq, progress.sized.columns_eq, progress.sized.fits⟩
  · exact ⟨progress.echelon.columns_lt, progress.echelon.increasing, progress.echelon.pivot_one,
      progress.echelon.solved_zero, progress.echelon.pending_zero⟩
  · intro prime
    exact ⟨(progress.staircase prime).solved_left, (progress.staircase prime).pending_left⟩

end LinearSystem

end ResidueAlgebra
