import Mathlib.Tactic.LinearCombination
import ResidueAlgebra.Proofs.Linear.FullRank

/-!
# Unit pivots

Which entries are units decides how many pivots elimination finds, and over a composite modulus
their number says less than over a field. There is no pivot at all exactly when no entry is a unit;
two rows with two entries each get both pivots when the determinant and an entry of the first column
are units.
-/
set_option autoImplicit false
namespace ResidueAlgebra

variable {m columns : Nat}

theorem Equation.usable_iff (proper : 1 < m) {equation : Equation} {column : Nat} :
    equation.Usable m column ↔ IsUnit (equation.coefficient m column) := by
  refine ⟨Usable.isUnit, fun invertible => ?_⟩
  have coprime := (ZMod.isUnit_iff_coprime _ m).mp invertible
  refine ⟨?_, coprime⟩
  intro zero
  rw [zero, Nat.coprime_zero_left] at coprime
  omega

namespace LinearSystem

/-! ## The system of a matrix -/

def ofMatrix (m columns : Nat) (rows : List (List Nat)) : LinearSystem :=
  ⟨m, columns, false, [], rows.map fun row => reducedEquation m row 0, false⟩

theorem ofRows_eq [NeZero m] {rows : List (List Nat)} (wide : width rows = columns)
    (rectangular : ∀ row ∈ rows, row.length = columns) :
    ofRows rows m = .ok (ofMatrix m columns rows) := by
  have zeros : ∀ list : List (List Nat), (list.zip (List.replicate list.length 0)).map
        (fun pair => reducedEquation m pair.1 pair.2)
      = list.map fun row => reducedEquation m row 0 := by
    intro list
    induction list with
    | nil => rfl
    | cons row rest ih =>
        rw [List.length_cons, List.replicate_succ, List.zip_cons_cons, List.map_cons, ih,
          List.map_cons]
  rw [ofRows, build_eq wide rectangular, zeros, ofMatrix]

theorem ofMatrix_sized [NeZero m] {rows : List (List Nat)} (wide : width rows = columns)
    (rectangular : ∀ row ∈ rows, row.length = columns) :
    (ofMatrix m columns rows).Sized m columns := by
  subst wide
  exact (build_fresh (ofRows_eq rfl rectangular)).sized

theorem matrixRank_of_run [NeZero m] {rows : List (List Nat)} (wide : width rows = columns)
    (rectangular : ∀ row ∈ rows, row.length = columns) {finish : LinearSystem}
    (run : (List.range columns).foldlM processColumn (ofMatrix m columns rows) = .ok finish) :
    matrixRank rows m = .ok finish.rank := by
  have started : (ofMatrix m columns rows).eliminate = .ok { finish with reduced := true } := by
    have notReduced : (ofMatrix m columns rows).reduced = false := rfl
    have columnsEq : (ofMatrix m columns rows).columns = columns := rfl
    rw [eliminate, notReduced, if_neg Bool.false_ne_true, columnsEq, run]
    rfl
  rw [matrixRank, ofRows_eq wide rectangular, Outcome.ok_bind, started]
  rfl

theorem pivoted_rank (system : LinearSystem) (column : Nat) (chosen : Equation)
    (others : List Equation) :
    (system.pivoted m column chosen others).rank = system.rank + 1 := by
  simp [pivoted, rank]

/-! ## No pivot -/

def Barren (m bound : Nat) (system : LinearSystem) : Prop :=
  ∀ equation ∈ system.pending, ∀ column < bound, ¬ equation.Usable m column

theorem Barren.of_succ {bound : Nat} {system : LinearSystem}
    (barren : system.Barren m (bound + 1)) : system.Barren m bound :=
  fun equation member column below => barren equation member column (Nat.lt_succ_of_lt below)

theorem Sized.run_cases [NeZero m] (fits : m < Word.long) {start : LinearSystem}
    (sized : start.Sized m columns) {bound : Nat} (inside : bound ≤ columns) :
    ∃ finish, (List.range bound).foldlM processColumn start = .ok finish ∧
      finish.Sized m columns ∧
      ((finish = start ∧ start.Barren m bound) ∨
        (start.rank < finish.rank ∧ ¬ start.Barren m bound)) := by
  induction bound with
  | zero => exact ⟨start, rfl, sized, Or.inl ⟨rfl, by simp [Barren]⟩⟩
  | succ bound ih =>
      obtain ⟨current, run, currentSized, reached⟩ := ih (Nat.le_of_succ_le inside)
      rcases processColumn_cases fits currentSized inside with
        ⟨step, _, useless⟩ | ⟨chosen, others, step, _, usable, same⟩
      · refine ⟨current, foldlM_range_succ run step, currentSized, ?_⟩
        rcases reached with ⟨rfl, barren⟩ | ⟨grown, fertile⟩
        · refine Or.inl ⟨rfl, fun equation member column below => ?_⟩
          rcases Nat.lt_succ_iff_lt_or_eq.mp below with before | rfl
          · exact barren equation member column before
          · exact useless equation member
        · exact Or.inr ⟨grown, fun barren => fertile barren.of_succ⟩
      · refine ⟨_, foldlM_range_succ run step, currentSized.pivoted same, Or.inr ?_⟩
        rw [pivoted_rank]
        rcases reached with ⟨rfl, _⟩ | ⟨grown, fertile⟩
        · refine ⟨Nat.lt_succ_self _, fun barren => ?_⟩
          have pending := same.subset (List.mem_cons_self ..)
          exact barren chosen pending bound (Nat.lt_succ_self bound) usable
        · exact ⟨Nat.lt_succ_of_lt grown, fun barren => fertile barren.of_succ⟩

theorem matrixRank_eq_zero_iff [NeZero m] (fits : m < Word.long) (proper : 1 < m)
    {rows : List (List Nat)} (wide : width rows = columns)
    (rectangular : ∀ row ∈ rows, row.length = columns) :
    matrixRank rows m = .ok 0 ↔
      ∀ row ∈ rows, ∀ column < columns, ¬ IsUnit ((row.getD column 0 : Nat) : ZMod m) := by
  have barren_iff : (ofMatrix m columns rows).Barren m columns ↔
      ∀ row ∈ rows, ∀ column < columns, ¬ IsUnit ((row.getD column 0 : Nat) : ZMod m) := by
    simp only [Barren, ofMatrix, List.forall_mem_map, Equation.usable_iff proper,
      coefficient_reducedEquation]
    rfl
  obtain ⟨finish, run, _, reached⟩ :=
    (ofMatrix_sized wide rectangular).run_cases fits (Nat.le_refl columns)
  rw [matrixRank_of_run wide rectangular run, ← barren_iff]
  rcases reached with ⟨rfl, barren⟩ | ⟨grown, fertile⟩
  · exact iff_of_true rfl barren
  · refine iff_of_false (fun none => ?_) fertile
    rw [Except.ok.inj none] at grown
    exact Nat.not_lt_zero _ grown

/-! ## Two rows -/

/-- With the pivot in the first column, what is left of the other equation in the second one is the
determinant, up to a unit. -/
theorem coefficient_clearedBy_scaled [NeZero m] {chosen other : Equation}
    (chosenFits : chosen.Fits m columns) (otherFits : other.Fits m columns)
    (usable : chosen.Usable m 0) :
    (clearedBy m 0 (chosen.scaled (chosen.coefficient m 0)⁻¹) other).coefficient m 1
      = (chosen.coefficient m 0)⁻¹ * (chosen.coefficient m 0 * other.coefficient m 1
        - chosen.coefficient m 1 * other.coefficient m 0) := by
  have cancel := ZMod.mul_inv_of_unit _ usable.isUnit
  rw [clearedBy, Equation.coefficient_minus _ otherFits (chosenFits.scaled _),
    Equation.coefficient_scaled]
  linear_combination (- other.coefficient m 1) * cancel

theorem Sized.run_pair [NeZero m] (fits : m < Word.long) (proper : 1 < m) {start : LinearSystem}
    (sized : start.Sized m 2) {first second : Equation} (pending : start.pending = [first, second])
    (pivot : first.Usable m 0 ∨ second.Usable m 0)
    (determinant : IsUnit (first.coefficient m 0 * second.coefficient m 1
      - first.coefficient m 1 * second.coefficient m 0)) :
    ∃ finish, (List.range 2).foldlM processColumn start = .ok finish ∧
      finish.rank = start.rank + 2 := by
  rcases processColumn_cases fits sized (show 0 < 2 by decide) with
    ⟨_, _, useless⟩ | ⟨chosen, others, step, _, usable, same⟩
  · rw [pending] at useless
    rcases pivot with usable | usable
    · exact absurd usable (useless first (by simp))
    · exact absurd usable (useless second (by simp))
  · obtain ⟨other, rfl, invertible⟩ : ∃ other, others = [other] ∧
        IsUnit (chosen.coefficient m 0 * other.coefficient m 1
          - chosen.coefficient m 1 * other.coefficient m 0) := by
      rw [pending, List.perm_pair] at same
      -- An exchange of the two equations only changes the sign of the determinant.
      rcases same with kept | exchanged
      · cases kept
        exact ⟨second, rfl, determinant⟩
      · cases exchanged
        refine ⟨first, rfl, ?_⟩
        rw [← IsUnit.neg_iff]
        convert determinant using 1
        ring
    have chosenFits := sized.pending chosen (same.subset (by simp))
    have otherFits := sized.pending other (same.subset (by simp))
    have remaining : IsUnit ((clearedBy m 0 (chosen.scaled (chosen.coefficient m 0)⁻¹)
        other).coefficient m 1) := by
      rw [coefficient_clearedBy_scaled chosenFits otherFits usable]
      exact usable.isUnit_inv.mul invertible
    have firstStep : (List.range 1).foldlM processColumn start
        = .ok (start.pivoted m 0 chosen [other]) := foldlM_range_succ rfl step
    rcases processColumn_cases fits (sized.pivoted same) (show 1 < 2 by decide) with
      ⟨_, _, useless⟩ | ⟨_, _, last, _⟩
    · exact absurd ((Equation.usable_iff proper).mpr remaining)
        (useless _ (List.mem_singleton_self _))
    · refine ⟨_, foldlM_range_succ firstStep last, ?_⟩
      rw [pivoted_rank, pivoted_rank]

theorem isUnit_of_matrixRank_row [NeZero m] (fits : m < Word.long) (proper : 1 < m) {a b : Nat}
    (one : matrixRank [[a, b]] m = .ok 1) : IsUnit (a : ZMod m) ∨ IsUnit (b : ZMod m) := by
  have rectangular : ∀ row ∈ [[a, b]], row.length = 2 := by simp
  by_contra neither
  obtain ⟨first, second⟩ := not_or.mp neither
  have none : matrixRank [[a, b]] m = .ok 0 := by
    refine (matrixRank_eq_zero_iff fits proper rfl rectangular).mpr fun row member column inside => ?_
    obtain rfl := List.mem_singleton.mp member
    match column with
    | 0 => exact first
    | 1 => exact second
  cases one.symm.trans none

theorem matrixRank_pair [NeZero m] (fits : m < Word.long) (proper : 1 < m) {a b c d : Nat}
    (pivot : IsUnit (a : ZMod m) ∨ IsUnit (c : ZMod m))
    (determinant : IsUnit ((a : ZMod m) * d - b * c)) :
    matrixRank [[a, b], [c, d]] m = .ok 2 := by
  have rectangular : ∀ row ∈ [[a, b], [c, d]], row.length = 2 := by simp
  have entry : ∀ row column, (reducedEquation m row 0).coefficient m column
      = ((row.getD column 0 : Nat) : ZMod m) :=
    fun row column => coefficient_reducedEquation row 0 column
  have pending : (ofMatrix m 2 [[a, b], [c, d]]).pending
      = [reducedEquation m [a, b] 0, reducedEquation m [c, d] 0] := rfl
  obtain ⟨finish, run, rank⟩ := (ofMatrix_sized rfl rectangular).run_pair fits proper pending
    (by simpa [Equation.usable_iff proper, entry] using pivot) (by simpa [entry] using determinant)
  rw [matrixRank_of_run rfl rectangular run, rank]
  rfl

end LinearSystem

end ResidueAlgebra
