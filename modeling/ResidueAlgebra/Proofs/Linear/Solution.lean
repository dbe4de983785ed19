import ResidueAlgebra.Linear.Solution
import ResidueAlgebra.Proofs.Linear.ReducedForm

/-!
# What the solver answers

The candidate takes the side of each equation with a pivot and zero in all other columns, so these
equations hold of it over every modulus. An equation without unknowns whose side is not zero has no
solution. What lies in between is left to the check against the given equations, and once nothing is
left of the equations without a pivot it has nothing to find: this is so over a prime modulus and
whenever every column has a pivot. The solver then answers every system that has a solution.
-/
set_option autoImplicit false
namespace ResidueAlgebra.LinearSystem

variable {m columns : Nat} {rows : List (List Nat)} {sides : List Nat}
  {system start finish : LinearSystem}

/-! ## The candidate -/

theorem Echelon.pivotValue_eq {bound : Nat} (echelon : system.Echelon m bound) {column : Nat}
    {equation : Equation} (member : (column, equation) ∈ system.solved) :
    system.pivotValue column = equation.side := by
  have found : (system.solved.find? fun owned => owned.1 == column).isSome = true := by
    rw [List.find?_isSome]
    exact ⟨(column, equation), member, by simp⟩
  obtain ⟨owned, located⟩ := Option.isSome_iff_exists.mp found
  have key : owned.1 = column := by simpa using List.find?_some located
  have same : owned = (column, equation) :=
    List.inj_on_of_nodup_map echelon.distinct (List.mem_of_find?_eq_some located) member key
  rw [pivotValue, located, same]
  rfl

theorem pivotValue_of_not_mem {column : Nat} (free : column ∉ system.solved.map Prod.fst) :
    system.pivotValue column = 0 := by
  have nothing : (system.solved.find? fun owned => owned.1 == column) = none := by
    rw [List.find?_eq_none]
    intro owned member same
    exact free (eq_of_beq same ▸ List.mem_map_of_mem member)
  rw [pivotValue, nothing]
  rfl

theorem Sized.length_candidate (sized : system.Sized m columns) :
    system.candidate.length = columns := by
  rw [candidate, List.length_map, List.length_range, sized.columns_eq]

theorem Sized.getElem?_candidate (sized : system.Sized m columns) {column : Nat}
    (inside : column < columns) : system.candidate[column]? = some (system.pivotValue column) := by
  have bound : column < system.columns := sized.columns_eq ▸ inside
  rw [candidate, List.getElem?_map, List.getElem?_range bound, Option.map_some]

theorem Sized.assignment_candidate (sized : system.Sized m columns) {column : Nat}
    (inside : column < columns) :
    Equation.assignment m system.candidate column = (system.pivotValue column : ZMod m) := by
  rw [Equation.assignment, List.getD_eq_getElem?_getD, sized.getElem?_candidate inside,
    Option.getD_some]

theorem Sized.candidate_lt [NeZero m] (sized : system.Sized m columns) :
    ∀ value ∈ system.candidate, value < m := by
  intro value member
  obtain ⟨column, _, rfl⟩ := List.mem_map.mp member
  rw [pivotValue]
  cases found : system.solved.find? fun owned => owned.1 == column with
  | none => exact NeZero.pos m
  | some owned => exact (sized.solved owned (List.mem_of_find?_eq_some found)).side_lt

/-- In an equation with a pivot, the other pivot columns are empty and the free ones are set to
zero, so the candidate's entry in the pivot column is all that counts. -/
theorem Echelon.holds_candidate (echelon : system.Echelon m columns)
    (sized : system.Sized m columns) {owned : Nat × Equation} (member : owned ∈ system.solved) :
    owned.2.Holds (m := m) (Equation.assignment m system.candidate) 1 := by
  have inside := echelon.columns_lt owned member
  rw [Equation.Holds, (sized.solved owned member).length_eq, Finset.sum_eq_single owned.1]
  · rw [echelon.pivot_one owned member, sized.assignment_candidate inside,
      echelon.pivotValue_eq member, one_smul, smul_eq_mul, mul_one]
  · intro other bound different
    by_cases pivot : other ∈ system.solved.map Prod.fst
    · obtain ⟨owner, present, rfl⟩ := List.mem_map.mp pivot
      rw [echelon.solved_zero owner present owned member different.symm, zero_smul]
    · rw [sized.assignment_candidate (Finset.mem_range.mp bound), pivotValue_of_not_mem pivot,
        Nat.cast_zero, smul_zero]
  · intro outside
    exact absurd (Finset.mem_range.mpr inside) outside

theorem Echelon.determined {M : Type} [AddCommGroup M] [Module (ZMod m) M]
    (echelon : system.Echelon m columns) (sized : system.Sized m columns)
    (full : system.rank = columns) {unknowns : Nat → M} {unit : M}
    (satisfied : system.Satisfied (m := m) unknowns unit) :
    ∀ column < columns, unknowns column = Equation.assignment m system.candidate column • unit := by
  intro column inside
  obtain ⟨equation, present⟩ := echelon.owned_of_full full inside
  have holds := satisfied equation (List.mem_append_left _ (List.mem_map_of_mem present))
  rw [sized.assignment_candidate inside, echelon.pivotValue_eq present]
  exact (echelon.holds_iff sized full present unknowns unit).mp holds

/-! ## Equations without unknowns -/

theorem contradictory_iff (equation : Equation) :
    contradictory equation = true ↔ (∀ entry ∈ equation.entries, entry = 0) ∧ equation.side ≠ 0 := by
  rw [contradictory, Bool.and_eq_true, List.all_eq_true, bne_iff_ne]
  simp only [beq_iff_eq]

theorem not_holds_of_contradictory {equation : Equation} (fitted : equation.Fits m columns)
    (impossible : contradictory equation = true) (unknowns : Nat → ZMod m) :
    ¬ equation.Holds (m := m) unknowns 1 := by
  obtain ⟨zeros, nonzero⟩ := (contradictory_iff equation).mp impossible
  have empty : ∀ column, equation.coefficient m column = 0 := by
    intro column
    rcases Nat.lt_or_ge column equation.entries.length with inside | outside
    · rw [Equation.coefficient, List.getD_eq_getElem _ _ inside, zeros _ (List.getElem_mem inside),
        Nat.cast_zero]
    · rw [Equation.coefficient, List.getD_eq_default _ _ outside, Nat.cast_zero]
  intro holds
  simp only [Equation.Holds, empty, smul_eq_mul, zero_mul, Finset.sum_const_zero, mul_one] at holds
  have divides : m ∣ equation.side := (ZMod.natCast_eq_zero_iff _ _).mp holds.symm
  exact nonzero (Nat.eq_zero_of_dvd_of_lt divides fitted.side_lt)

theorem holds_of_zero [NeZero m] {equation : Equation} (fitted : equation.Fits m columns)
    (zero : ∀ column < columns, equation.coefficient m column = 0)
    (possible : contradictory equation = false) (unknowns : Nat → ZMod m) :
    equation.Holds (m := m) unknowns 1 := by
  have side : equation.side = 0 := by
    by_contra nonzero
    have impossible := (contradictory_iff equation).mpr ⟨fitted.entries_eq_zero zero, nonzero⟩
    rw [possible] at impossible
    exact Bool.false_ne_true impossible
  rw [Equation.Holds, fitted.length_eq, side, Nat.cast_zero, zero_smul]
  refine Finset.sum_eq_zero fun column inside => ?_
  rw [zero column (Finset.mem_range.mp inside), zero_smul]

theorem Exhausted.satisfied_candidate [NeZero m] (exhausted : system.Exhausted m columns)
    (echelon : system.Echelon m columns) (sized : system.Sized m columns)
    (possible : ∀ equation ∈ system.equations, contradictory equation = false) :
    system.Satisfied (m := m) (Equation.assignment m system.candidate) 1 := by
  intro equation member
  rcases List.mem_append.mp member with solved | pending
  · obtain ⟨owned, present, rfl⟩ := List.mem_map.mp solved
    exact echelon.holds_candidate sized present
  · exact holds_of_zero (sized.pending equation pending) (exhausted equation pending)
      (possible equation member) _

/-! ## The check against the given equations -/

theorem firstUnsatisfied_spec [NeZero m] (fits : m < Word.long) {solution : List Nat}
    (below : ∀ value ∈ solution, value < m) {equations : List (List Nat × Nat)}
    (small : ∀ pair ∈ equations, ∀ entry ∈ pair.1, entry < Word.long) (row : Nat) :
    (firstUnsatisfied m solution row equations = .ok none ∧ ∀ pair ∈ equations,
      (Equation.mk pair.1 pair.2).Holds (m := m) (Equation.assignment m solution) 1) ∨
    ∃ before pair after, equations = before ++ pair :: after ∧
      firstUnsatisfied m solution row equations = .ok (some (row + before.length)) ∧
      (∀ earlier ∈ before, (Equation.mk earlier.1 earlier.2).Holds (m := m)
        (Equation.assignment m solution) 1) ∧
      ¬ (Equation.mk pair.1 pair.2).Holds (m := m) (Equation.assignment m solution) 1 := by
  induction equations generalizing row with
  | nil => exact Or.inl ⟨rfl, by simp⟩
  | cons pair rest ih =>
      obtain ⟨entries, expected⟩ := pair
      obtain ⟨entriesFit, restFit⟩ := List.forall_mem_cons.mp small
      have fit : ∀ value ∈ solution, value < Word.long := fun value member =>
        Nat.lt_trans (below value member) fits
      have passes : ((entries.zip solution).map fun term => (term.1 * term.2 : ZMod m)).sum.val
          = (expected : ZMod m).val ↔
          (Equation.mk entries expected).Holds (m := m) (Equation.assignment m solution) 1 := by
        rw [Equation.holds_iff_sum, (ZMod.val_injective m).eq_iff]
      rw [firstUnsatisfied, Residue.dot_val fits entriesFit fit, Outcome.ok_bind,
        Residue.reduce_val, Outcome.ok_bind]
      split
      · rename_i agrees
        have first := passes.mp agrees
        rcases ih restFit (row + 1) with ⟨run, holds⟩ | ⟨before, pair, after, split, run, holds, fails⟩
        · exact Or.inl ⟨run, List.forall_mem_cons.mpr ⟨first, holds⟩⟩
        · refine Or.inr ⟨(entries, expected) :: before, pair, after, by rw [split]; rfl, ?_,
            List.forall_mem_cons.mpr ⟨first, holds⟩, fails⟩
          rw [run, List.length_cons, Nat.add_assoc, Nat.add_comm 1]
      · rename_i differs
        exact Or.inr ⟨[], (entries, expected), rest, rfl, rfl, by simp, mt passes.mpr differs⟩

/-! ## The answers -/

namespace Elimination

theorem solves_iff (elimination : Elimination m columns rows sides start finish) (x : List Nat) :
    Solves m rows sides x ↔ finish.Satisfied (m := m) (Equation.assignment m x) 1 := by
  rw [elimination.satisfied_iff, Solves]
  exact forall₂_congr fun pair _ => (Equation.holds_iff_modEq pair.1 pair.2 x).symm

/-- Either a contradiction stands among the equations and there is no solution, or the candidate is
one and is the answer, or it is not and the first equation that it misses is named. -/
theorem solve_cases [NeZero m] (fits : m < Word.long)
    (elimination : Elimination m columns rows sides start finish) (nonempty : rows ≠ [])
    (small : ∀ row ∈ rows, ∀ entry ∈ row, entry < Word.long) :
    (solve rows sides m = .error (.fault .noSolution) ∧ ∀ x, ¬ Solves m rows sides x) ∨
    (solve rows sides m = .ok finish.candidate ∧ Solves m rows sides finish.candidate) ∨
    ∃ row < rows.length, solve rows sides m = .error (.fault (.equationFails row)) ∧
      (∀ equation ∈ finish.equations, contradictory equation = false) ∧
      ¬ Solves m rows sides finish.candidate := by
  have sized := elimination.progress.sized
  rw [solve, if_neg (by simpa using nonempty), elimination.built, Outcome.ok_bind, elimination.run,
    Outcome.ok_bind]
  by_cases impossible : finish.equations.any contradictory = true
  · left
    rw [if_pos impossible]
    refine ⟨rfl, fun x solution => ?_⟩
    obtain ⟨equation, member, contradiction⟩ := List.any_eq_true.mp impossible
    exact not_holds_of_contradictory (sized.fits equation member) contradiction _
      ((elimination.solves_iff x).mp solution equation member)
  · right
    rw [if_neg impossible]
    have solves : Solves m rows sides finish.candidate ↔ ∀ pair ∈ rows.zip sides,
        (Equation.mk pair.1 pair.2).Holds (m := m) (Equation.assignment m finish.candidate) 1 :=
      (elimination.solves_iff _).trans (elimination.satisfied_iff _ _)
    rcases firstUnsatisfied_spec fits sized.candidate_lt
        (fun pair member => small pair.1 (List.of_mem_zip member).1) 0 with
      ⟨run, holds⟩ | ⟨before, pair, after, split, run, _, fails⟩
    · left
      rw [run, Outcome.ok_bind]
      exact ⟨rfl, solves.mpr holds⟩
    · right
      have counted : before.length < (rows.zip sides).length := by simp [split]
      rw [List.length_zip] at counted
      rw [run, Outcome.ok_bind, Nat.zero_add]
      refine ⟨before.length, by omega, rfl, ?_, fun solution => ?_⟩
      · simpa using impossible
      · exact fails (solves.mp solution pair (by simp [split]))

theorem of_solve_eq_ok [NeZero m] (fits : m < Word.long)
    (elimination : Elimination m columns rows sides start finish) (nonempty : rows ≠ [])
    (small : ∀ row ∈ rows, ∀ entry ∈ row, entry < Word.long) {x : List Nat}
    (answered : solve rows sides m = .ok x) : x = finish.candidate ∧ Solves m rows sides x := by
  rcases elimination.solve_cases fits nonempty small with
    ⟨answer, _⟩ | ⟨answer, solution⟩ | ⟨_, _, answer, _, _⟩
  · cases answered.symm.trans answer
  · cases answered.symm.trans answer
    exact ⟨rfl, solution⟩
  · cases answered.symm.trans answer

theorem solve_of_exhausted [NeZero m] (fits : m < Word.long)
    (elimination : Elimination m columns rows sides start finish) (nonempty : rows ≠ [])
    (small : ∀ row ∈ rows, ∀ entry ∈ row, entry < Word.long)
    (exhausted : finish.Exhausted m columns) :
    (∀ row, solve rows sides m ≠ .error (.fault (.equationFails row))) ∧
      ((∃ x, solve rows sides m = .ok x) ↔ ∃ x, x.length = columns ∧ Solves m rows sides x) := by
  have sized := elimination.progress.sized
  rcases elimination.solve_cases fits nonempty small with
    ⟨answer, impossible⟩ | ⟨answer, solution⟩ | ⟨row, _, _, possible, fails⟩
  · rw [answer]
    refine ⟨fun _ => nofun, nofun, ?_⟩
    rintro ⟨x, _, solution⟩
    exact absurd solution (impossible x)
  · rw [answer]
    exact ⟨fun _ => nofun, fun _ => ⟨_, sized.length_candidate, solution⟩, fun _ => ⟨_, rfl⟩⟩
  · exact absurd ((elimination.solves_iff _).mpr
      (exhausted.satisfied_candidate elimination.progress.echelon sized possible)) fails

theorem eq_candidate [NeZero m] (elimination : Elimination m columns rows sides start finish)
    (full : finish.rank = columns) {y : List Nat} (length : y.length = columns)
    (below : ∀ value ∈ y, value < m) (solution : Solves m rows sides y) :
    y = finish.candidate := by
  have sized := elimination.progress.sized
  have same := elimination.progress.echelon.determined sized full
    ((elimination.solves_iff y).mp solution)
  apply List.ext_getElem (by rw [length, sized.length_candidate])
  intro column inside within
  have values := congrArg ZMod.val (same column (length ▸ inside))
  rwa [smul_eq_mul, mul_one, Equation.assignment, Equation.assignment,
    List.getD_eq_getElem _ _ inside, List.getD_eq_getElem _ _ within,
    ZMod.val_cast_of_lt (below _ (List.getElem_mem inside)),
    ZMod.val_cast_of_lt (sized.candidate_lt _ (List.getElem_mem within))] at values

end Elimination

theorem solve_of_full_rank [NeZero m] (fits : m < Word.long) (nonempty : rows ≠ [])
    (rectangular : ∀ row ∈ rows, row.length = columns)
    (small : ∀ row ∈ rows, ∀ entry ∈ row, entry < Word.long)
    (square : rows.length = columns) (lengths : rows.length = sides.length)
    (full : matrixRank rows m = .ok columns) :
    ∃ solution, solve rows sides m = .ok solution ∧ solution.length = columns ∧
      (∀ value ∈ solution, value < m) ∧
      ∀ (M : Type) [AddCommGroup M] [Module (ZMod m) M] (unknowns : Nat → M) (unit : M),
        (∀ pair ∈ rows.zip sides, (Equation.mk pair.1 pair.2).Holds (m := m) unknowns unit) →
        ∀ column < columns,
          unknowns column = ((solution.getD column 0 : Nat) : ZMod m) • unit := by
  obtain ⟨start, finish, elimination⟩ :=
    elimination_spec fits (width_eq nonempty rectangular) rectangular lengths
  have echelon := elimination.progress.echelon
  have sized := elimination.progress.sized
  have fullRank : finish.rank = columns :=
    Except.ok.inj (elimination.matrixRank_eq.symm.trans full)
  have finished : finish.pending = [] := by
    have total := elimination.length_eq lengths
    rw [rank] at fullRank
    exact List.length_eq_zero_iff.mp (by omega)
  -- Every equation has a pivot, so the candidate is a solution.
  have solution : Solves m rows sides finish.candidate := by
    rw [elimination.solves_iff, Satisfied, equations, finished, List.append_nil,
      List.forall_mem_map]
    exact fun owned member => echelon.holds_candidate sized member
  refine ⟨finish.candidate, ?_, sized.length_candidate, sized.candidate_lt, ?_⟩
  · rcases elimination.solve_cases fits nonempty small with
      ⟨_, impossible⟩ | ⟨answer, _⟩ | ⟨_, _, _, _, fails⟩
    · exact absurd solution (impossible _)
    · exact answer
    · exact absurd solution fails
  · intro M _ _ unknowns unit holds
    exact echelon.determined sized fullRank ((elimination.satisfied_iff unknowns unit).mpr holds)

/-! ## The solver as a whole -/

/-- The solver tells the truth over every modulus: a solution solves, no solution means there is
none, and the only other answer names a given equation. Over a prime that answer does not occur. -/
theorem solve_answers_truthfully (positive : 0 < m) (fits : m < Word.long) (nonempty : rows ≠ [])
    (rectangular : ∀ row ∈ rows, ∀ other ∈ rows, row.length = other.length)
    (small : ∀ row ∈ rows, ∀ entry ∈ row, entry < Word.long)
    (lengths : rows.length = sides.length) :
    ∃ start finish, ofEquations rows sides m = .ok start ∧ start.eliminate = .ok finish ∧
      (∀ x, solve rows sides m = .ok x →
        x.length = width rows ∧ (∀ value ∈ x, value < m) ∧
        (∀ column < width rows, column ∉ finish.pivots.map Prod.snd → x[column]? = some 0) ∧
        Solves m rows sides x) ∧
      (solve rows sides m = .error (.fault .noSolution) → ∀ x, ¬ Solves m rows sides x) ∧
      (∀ halt, solve rows sides m = .error halt → halt = .fault .noSolution ∨
        ∃ row < rows.length, halt = .fault (.equationFails row)) ∧
      (m.Prime → (∀ row, solve rows sides m ≠ .error (.fault (.equationFails row))) ∧
        ((∃ x, solve rows sides m = .ok x) ↔
          ∃ x, x.length = width rows ∧ Solves m rows sides x)) := by
  have : NeZero m := ⟨Nat.ne_of_gt positive⟩
  obtain ⟨start, finish, elimination⟩ :=
    elimination_spec fits rfl (length_eq_width rectangular) lengths
  have sized := elimination.progress.sized
  have free : ∀ column < width rows, column ∉ finish.pivots.map Prod.snd →
      finish.candidate[column]? = some 0 := by
    intro column inside outside
    rw [pivots_map_snd] at outside
    rw [sized.getElem?_candidate inside, pivotValue_of_not_mem outside]
  have answers := elimination.solve_cases fits nonempty small
  refine ⟨start, finish, elimination.built, elimination.run, ?_, ?_, ?_, fun prime =>
    elimination.solve_of_exhausted fits nonempty small
      (elimination.progress.staircase prime).pending_left⟩
  · intro x answered
    obtain ⟨rfl, solution⟩ := elimination.of_solve_eq_ok fits nonempty small answered
    exact ⟨sized.length_candidate, sized.candidate_lt, free, solution⟩
  · intro answered
    rcases answers with ⟨_, impossible⟩ | ⟨answer, _⟩ | ⟨row, _, answer, _⟩
    · exact impossible
    · cases answered.symm.trans answer
    · cases answered.symm.trans answer
  · intro halt answered
    rcases answers with ⟨answer, _⟩ | ⟨answer, _⟩ | ⟨row, inside, answer, _⟩
    · cases answered.symm.trans answer
      exact Or.inl rfl
    · cases answered.symm.trans answer
    · cases answered.symm.trans answer
      exact Or.inr ⟨row, inside, rfl⟩

/-- Modulo six no column but the third has a unit, and the other unknowns are zero in the answer. Over
a prime a contradiction is found. -/
theorem solve_answers_truthfully_free_columns :
    solve [[0, 3, 5, 2], [0, 4, 1, 0]] [1, 5] 6 = .ok [0, 0, 5, 0] ∧
      Solves 6 [[0, 3, 5, 2], [0, 4, 1, 0]] [1, 5] [0, 0, 5, 0] ∧
      ∀ x, ¬ Solves 5 [[1, 1], [2, 2]] [1, 3] x := by
  have answer : solve [[0, 3, 5, 2], [0, 4, 1, 0]] [1, 5] 6 = .ok [0, 0, 5, 0] := by
    decide +kernel
  have refusal : solve [[1, 1], [2, 2]] [1, 3] 5 = .error (.fault .noSolution) := by
    decide +kernel
  obtain ⟨_, _, _, _, truthful, _⟩ :=
    @solve_answers_truthfully 6 [[0, 3, 5, 2], [0, 4, 1, 0]] [1, 5] (by decide) (by decide)
      (by decide) (by decide) (by decide) rfl
  obtain ⟨_, _, _, _, _, impossible, _⟩ :=
    @solve_answers_truthfully 5 [[1, 1], [2, 2]] [1, 3] (by decide) (by decide) (by decide)
      (by decide) (by decide) rfl
  obtain ⟨_, _, _, solution⟩ := truthful _ answer
  exact ⟨answer, solution, impossible refusal⟩

/-- When the rank is the number of columns, the solver answers exactly the systems that have a
solution, over every modulus, and the answer is the only reduced one. A square system always has
one. -/
theorem solve_of_full_column_rank (proper : 2 ≤ m) (fits : m < Word.long) (nonempty : rows ≠ [])
    (rectangular : ∀ row ∈ rows, row.length = columns)
    (small : ∀ row ∈ rows, ∀ entry ∈ row, entry < Word.long)
    (lengths : rows.length = sides.length) (full : matrixRank rows m = .ok columns) :
    ((∃ x, solve rows sides m = .ok x) ↔ ∃ x, x.length = columns ∧ Solves m rows sides x) ∧
    (∀ x, solve rows sides m = .ok x →
      x.length = columns ∧ (∀ value ∈ x, value < m) ∧ Solves m rows sides x ∧
      ∀ y, y.length = columns → (∀ value ∈ y, value < m) → Solves m rows sides y → y = x) ∧
    (∀ row, solve rows sides m ≠ .error (.fault (.equationFails row))) ∧
    (rows.length = columns → ∃ x, solve rows sides m = .ok x) := by
  have : NeZero m := ⟨by omega⟩
  obtain ⟨start, finish, elimination⟩ :=
    elimination_spec fits (width_eq nonempty rectangular) rectangular lengths
  have fullRank : finish.rank = columns :=
    Except.ok.inj (elimination.matrixRank_eq.symm.trans full)
  have sized := elimination.progress.sized
  obtain ⟨verified, complete⟩ := elimination.solve_of_exhausted fits nonempty small
    (elimination.progress.echelon.exhausted_of_full fullRank)
  refine ⟨complete, ?_, verified, fun square => ?_⟩
  · intro x answered
    obtain ⟨rfl, solution⟩ := elimination.of_solve_eq_ok fits nonempty small answered
    exact ⟨sized.length_candidate, sized.candidate_lt, solution, fun y length below =>
      elimination.eq_candidate fullRank length below⟩
  · obtain ⟨x, answer, _⟩ :=
      solve_of_full_rank fits nonempty rectangular small square lengths full
    exact ⟨x, answer⟩

/-- Three equations modulo six in two unknowns, of full column rank: one side more or less decides
whether there is a solution. -/
theorem solve_of_full_column_rank_tall :
    solve [[1, 0], [2, 5], [4, 3]] [2, 1, 5] 6 = .ok [2, 3] ∧
      (∀ y, y.length = 2 → (∀ value ∈ y, value < 6) →
        Solves 6 [[1, 0], [2, 5], [4, 3]] [2, 1, 5] y → y = [2, 3]) ∧
      ¬ ∃ x, x.length = 2 ∧ Solves 6 [[1, 0], [2, 5], [4, 3]] [2, 1, 4] x := by
  have full : matrixRank [[1, 0], [2, 5], [4, 3]] 6 = .ok 2 := by decide +kernel
  have answer : solve [[1, 0], [2, 5], [4, 3]] [2, 1, 5] 6 = .ok [2, 3] := by decide +kernel
  have refusal : solve [[1, 0], [2, 5], [4, 3]] [2, 1, 4] 6 = .error (.fault .noSolution) := by
    decide +kernel
  have solvable := @solve_of_full_column_rank 6 2 [[1, 0], [2, 5], [4, 3]] [2, 1, 5] (by decide)
    (by decide) (by decide) (by decide) (by decide) rfl full
  have unsolvable := @solve_of_full_column_rank 6 2 [[1, 0], [2, 5], [4, 3]] [2, 1, 4] (by decide)
    (by decide) (by decide) (by decide) (by decide) rfl full
  refine ⟨answer, (solvable.2.1 _ answer).2.2.2, fun solution => ?_⟩
  obtain ⟨x, other⟩ := unsolvable.1.mpr solution
  cases refusal.symm.trans other

end ResidueAlgebra.LinearSystem
