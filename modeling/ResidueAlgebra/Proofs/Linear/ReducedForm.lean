import ResidueAlgebra.Proofs.Linear.FullRank

/-!
# Reduced echelon form

What elimination leaves behind, said of the rows, sides and pivots a caller reads off the system:
the shape is kept, the congruences have the same solutions, the pivot of row `i` stands in a column
that is the `i`-th unit vector, and rows and pivots are those of the bare matrix. Over a prime
modulus the rows past the rank are zero and nothing stands to the left of a pivot.
-/
set_option autoImplicit false
namespace ResidueAlgebra

namespace Equation

variable {m columns : Nat}

theorem Fits.getElem?_eq [NeZero m] {equation : Equation} (fitted : equation.Fits m columns)
    {column value : Nat} (inside : column < columns) (small : value < m)
    (same : equation.coefficient m column = (value : ZMod m)) :
    equation.entries[column]? = some value := by
  have bound : column < equation.entries.length := fitted.length_eq ▸ inside
  have stored : equation.entries.getD column 0 = value := by
    have values := congrArg ZMod.val same
    rwa [coefficient, ZMod.val_cast_of_lt (fitted.entry_lt column),
      ZMod.val_cast_of_lt small] at values
  rw [List.getD_eq_getElem _ _ bound] at stored
  rw [List.getElem?_eq_getElem bound, stored]

theorem Fits.entries_eq_zero [NeZero m] {equation : Equation} (fitted : equation.Fits m columns)
    (zero : ∀ column < columns, equation.coefficient m column = 0) :
    ∀ entry ∈ equation.entries, entry = 0 := by
  intro entry member
  obtain ⟨column, bound, rfl⟩ := List.getElem_of_mem member
  have inside : column < columns := fitted.length_eq ▸ bound
  have stored := fitted.getElem?_eq inside (NeZero.pos m) (by rw [Nat.cast_zero, zero column inside])
  rw [List.getElem?_eq_getElem bound] at stored
  exact Option.some.inj stored

theorem sum_zip_eq (left right : List Nat) :
    ((left.zip right).map fun pair => (pair.1 * pair.2 : ZMod m)).sum
      = ∑ column ∈ Finset.range left.length,
        ((left.getD column 0 : Nat) : ZMod m) * (right.getD column 0 : Nat) := by
  induction left generalizing right with
  | nil => simp
  | cons entry left ih =>
      cases right with
      | nil => simp
      | cons value right =>
          rw [List.length_cons, Finset.sum_range_succ', List.zip_cons_cons, List.map_cons,
            List.sum_cons, ih right, add_comm]
          rfl

def assignment (m : Nat) (x : List Nat) (column : Nat) : ZMod m :=
  (x.getD column 0 : Nat)

theorem holds_iff_sum (row : List Nat) (side : Nat) (x : List Nat) :
    (Equation.mk row side).Holds (m := m) (assignment m x) 1 ↔
      ((row.zip x).map fun term => (term.1 * term.2 : ZMod m)).sum = side := by
  rw [sum_zip_eq, Holds, smul_eq_mul, mul_one]
  rfl

theorem holds_iff_modEq (row : List Nat) (side : Nat) (x : List Nat) :
    (Equation.mk row side).Holds (m := m) (assignment m x) 1 ↔
      ((row.zip x).map fun term => term.1 * term.2).sum ≡ side [MOD m] := by
  have sum : ((((row.zip x).map fun term => term.1 * term.2).sum : Nat) : ZMod m)
      = ((row.zip x).map fun term => (term.1 * term.2 : ZMod m)).sum := by
    rw [Nat.cast_list_sum, List.map_map]
    simp [Function.comp_def]
  rw [← ZMod.natCast_eq_natCast_iff, sum, holds_iff_sum]

end Equation

namespace LinearSystem

variable {m columns : Nat}

/-! ## Congruences -/

/-- The vector satisfies every congruence; entries without a partner do not count. -/
def Solves (m : Nat) (rows : List (List Nat)) (sides x : List Nat) : Prop :=
  ∀ pair ∈ rows.zip sides, ((pair.1.zip x).map fun term => term.1 * term.2).sum ≡ pair.2 [MOD m]

theorem solves_iff_satisfied (system : LinearSystem) (x : List Nat) :
    Solves m system.rows (system.equations.map Equation.side) x ↔
      system.Satisfied (m := m) (Equation.assignment m x) 1 := by
  rw [Solves, rows, List.zip_map', List.forall_mem_map, Satisfied]
  exact forall₂_congr fun equation _ =>
    (Equation.holds_iff_modEq equation.entries equation.side x).symm

theorem solves_given_iff {start : LinearSystem} {rows : List (List Nat)} {sides : List Nat}
    (solvedNil : start.solved = [])
    (pending : start.pending = (rows.zip sides).map fun pair => reducedEquation m pair.1 pair.2)
    (x : List Nat) :
    Solves m rows sides x ↔
      start.Satisfied (m := m) (Equation.assignment m x) 1 := by
  rw [satisfied_given_iff solvedNil pending, Solves]
  exact forall₂_congr fun pair _ => (Equation.holds_iff_modEq pair.1 pair.2 x).symm

/-! ## Rows and pivots -/

theorem pivots_map_fst (system : LinearSystem) :
    system.pivots.map Prod.fst = List.range system.rank := by
  rw [pivots, List.map_map, rank, List.range_eq_range', ← List.zipIdx_map_snd]
  rfl

theorem pivots_map_snd (system : LinearSystem) :
    system.pivots.map Prod.snd = system.solved.map Prod.fst := by
  rw [pivots, List.map_map]
  conv_rhs => rw [← List.zipIdx_map_fst 0 system.solved, List.map_map]
  rfl

theorem mem_pivots_iff {system : LinearSystem} {row column : Nat} :
    (row, column) ∈ system.pivots ↔
      ∃ equation, system.solved[row]? = some (column, equation) := by
  rw [pivots, List.mem_map]
  constructor
  · rintro ⟨⟨⟨owned, equation⟩, position⟩, member, same⟩
    cases same
    exact ⟨equation, List.mk_mem_zipIdx_iff_getElem?.mp member⟩
  · rintro ⟨equation, found⟩
    exact ⟨((column, equation), row), List.mk_mem_zipIdx_iff_getElem?.mpr found, rfl⟩

theorem bare_rows (system : LinearSystem) : system.bare.rows = system.rows := by
  rw [rows, bare_equations, List.map_map]
  rfl

theorem bare_pivots (system : LinearSystem) : system.bare.pivots = system.pivots := by
  rw [pivots, bare, List.zipIdx_map, List.map_map]
  rfl

theorem Progress.length_equations {bound : Nat} {start current : LinearSystem}
    (progress : Progress m columns bound start current) :
    current.equations.length = start.solved.length + start.pending.length := by
  rw [equations, List.length_append, List.length_map, progress.total]

theorem Sized.map_length {system : LinearSystem} (sized : system.Sized m columns) :
    system.rows.map List.length = List.replicate system.equations.length columns := by
  rw [List.eq_replicate_iff, rows, List.map_map, List.length_map]
  refine ⟨rfl, ?_⟩
  intro length member
  obtain ⟨equation, present, rfl⟩ := List.mem_map.mp member
  exact (sized.fits equation present).length_eq

/-! ## Pivot columns -/

theorem Echelon.coefficient_eq {system : LinearSystem} {bound : Nat}
    (echelon : system.Echelon m bound) {row column : Nat} {owner : Equation}
    (owned : system.solved[row]? = some (column, owner)) {position : Nat} {equation : Equation}
    (found : system.equations[position]? = some equation) :
    equation.coefficient m column = if position = row then 1 else 0 := by
  have ownerMember := List.mem_of_getElem? owned
  rcases Nat.lt_or_ge position system.solved.length with inside | outside
  · rw [equations, List.getElem?_append_left (by simpa using inside), List.getElem?_map] at found
    obtain ⟨other, located, rfl⟩ := Option.map_eq_some_iff.mp found
    by_cases same : position = row
    · subst same
      rw [if_pos rfl]
      cases located.symm.trans owned
      exact echelon.pivot_one (column, owner) ownerMember
    · rw [if_neg same]
      refine echelon.solved_zero (column, owner) ownerMember other (List.mem_of_getElem? located) ?_
      intro columnsEqual
      -- The columns are increasing, so one column belongs to one position.
      apply same
      have keys : (system.solved.map Prod.fst)[position]? = (system.solved.map Prod.fst)[row]? := by
        rw [List.getElem?_map, List.getElem?_map, located, owned, Option.map_some, Option.map_some,
          columnsEqual]
      exact (List.getElem?_inj (by simpa using inside) echelon.distinct).mp keys
  · have rowInside : row < system.solved.length := by
      obtain ⟨bound, _⟩ := List.getElem?_eq_some_iff.mp owned
      exact bound
    rw [if_neg (by omega)]
    rw [equations, List.getElem?_append_right (by simpa using outside)] at found
    exact echelon.pending_zero (column, owner) ownerMember equation (List.mem_of_getElem? found)

theorem Progress.pivot_column [NeZero m] {start finish : LinearSystem}
    (progress : Progress m columns columns start finish) {row column : Nat}
    (pivot : (row, column) ∈ finish.pivots) :
    finish.rows.map (fun entries => entries[column]?)
      = (List.range finish.equations.length).map
        fun position => some (if position = row then 1 else 0) := by
  obtain ⟨owner, owned⟩ := mem_pivots_iff.mp pivot
  have ownerMember := List.mem_of_getElem? owned
  have inside := progress.echelon.columns_lt _ ownerMember
  have proper := progress.proper (List.ne_nil_of_mem ownerMember)
  apply List.ext_getElem
  · simp [rows]
  · intro position present _
    have bound : position < finish.equations.length := by simpa [rows] using present
    have fitted := progress.sized.fits _ (List.getElem_mem bound)
    have small : (if position = row then 1 else 0) < m := by
      split
      · exact proper
      · exact NeZero.pos m
    simp only [rows, List.map_map, List.getElem_map, List.getElem_range, Function.comp_apply]
    apply fitted.getElem?_eq inside small
    rw [progress.echelon.coefficient_eq owned (List.getElem?_eq_getElem bound), Nat.cast_ite,
      Nat.cast_one, Nat.cast_zero]

/-! ## Prime moduli -/

theorem Progress.left_of_pivot [NeZero m] (prime : m.Prime) {start finish : LinearSystem}
    (progress : Progress m columns columns start finish) {row column : Nat}
    (pivot : (row, column) ∈ finish.pivots) {entries : List Nat}
    (found : finish.rows[row]? = some entries) {other : Nat} (left : other < column) :
    entries[other]? = some 0 := by
  obtain ⟨owner, owned⟩ := mem_pivots_iff.mp pivot
  have ownerMember := List.mem_of_getElem? owned
  have inside := progress.echelon.columns_lt _ ownerMember
  obtain ⟨bound, _⟩ := List.getElem?_eq_some_iff.mp owned
  have located : finish.equations[row]? = some owner := by
    rw [equations, List.getElem?_append_left (by simpa using bound), List.getElem?_map, owned,
      Option.map_some]
  rw [rows, List.getElem?_map, located, Option.map_some, Option.some.injEq] at found
  subst found
  apply (progress.sized.solved _ ownerMember).getElem?_eq (Nat.lt_trans left inside) prime.pos
  rw [Nat.cast_zero]
  exact (progress.staircase prime).solved_left _ ownerMember other left

theorem Progress.past_rank [NeZero m] (prime : m.Prime) {start finish : LinearSystem}
    (progress : Progress m columns columns start finish) :
    ∀ entries ∈ finish.rows.drop finish.rank, ∀ entry ∈ entries, entry = 0 := by
  intro entries member entry present
  have rest : finish.rows.drop finish.rank = finish.pending.map Equation.entries := by
    rw [rows, equations, List.map_append, rank, List.drop_left' (by simp)]
  rw [rest] at member
  obtain ⟨equation, pending, rfl⟩ := List.mem_map.mp member
  exact (progress.sized.pending equation pending).entries_eq_zero
    ((progress.staircase prime).pending_left equation pending) entry present

/-! ## Elimination as a whole -/

/-- Elimination keeps the shape and the solutions of a system of congruences and brings it to
reduced echelon form; rows and pivots do not depend on the sides. -/
theorem eliminate_reduced_form {m : Nat} (positive : 0 < m) (fits : m < Word.long)
    {rows : List (List Nat)} {sides : List Nat}
    (rectangular : ∀ row ∈ rows, ∀ other ∈ rows, row.length = other.length)
    (lengths : rows.length = sides.length) :
    ∃ start finish finalSides, ofEquations rows sides m = .ok start ∧
      start.eliminate = .ok finish ∧ finish.sides = some finalSides ∧
      -- The shape is unchanged and everything is reduced.
      finish.rows.map List.length = rows.map List.length ∧ finalSides.length = sides.length ∧
      (∀ row ∈ finish.rows, ∀ entry ∈ row, entry < m) ∧ (∀ side ∈ finalSides, side < m) ∧
      -- The solutions are the same.
      (∀ x, Solves m rows sides x ↔ Solves m finish.rows finalSides x) ∧
      -- One pivot a row, in increasing columns that are unit vectors.
      finish.pivots.map Prod.fst = List.range finish.rank ∧
      (finish.pivots.map Prod.snd).Pairwise (· < ·) ∧
      (∀ pivot ∈ finish.pivots, finish.rows.map (fun row => row[pivot.2]?)
        = (List.range rows.length).map fun row => some (if row = pivot.1 then 1 else 0)) ∧
      -- The sides have no influence on rows and pivots.
      (∃ bareStart bareFinish, ofRows rows m = .ok bareStart ∧
        bareStart.eliminate = .ok bareFinish ∧ bareFinish.rows = finish.rows ∧
        bareFinish.pivots = finish.pivots) ∧
      (m.Prime →
        (∀ pivot ∈ finish.pivots, ∀ row, finish.rows[pivot.1]? = some row →
          ∀ column < pivot.2, row[column]? = some 0) ∧
        ∀ row ∈ finish.rows.drop finish.rank, ∀ entry ∈ row, entry = 0) := by
  have : NeZero m := ⟨Nat.ne_of_gt positive⟩
  have even : ∀ row ∈ rows, row.length = width rows := by
    intro row member
    exact (width_eq (List.ne_nil_of_mem member) fun other present =>
      rectangular other present row member).symm
  obtain ⟨start, finish, built, run, bareBuilt, bareRun, fresh, progress, augmented, pending⟩ :=
    elimination_spec fits rfl even lengths
  have solvedNil := fresh.solved_nil
  have count : finish.equations.length = rows.length := by
    rw [progress.length_equations, solvedNil, pending, List.length_map, List.length_zip, ← lengths,
      List.length_nil]
    omega
  refine ⟨start, finish, finish.equations.map Equation.side, built, run, ?_, ?_, ?_, ?_, ?_, ?_,
    finish.pivots_map_fst, ?_, ?_, ⟨start.bare, finish.bare, bareBuilt, bareRun, finish.bare_rows,
    finish.bare_pivots⟩, ?_⟩
  · rw [LinearSystem.sides, progress.augmented_eq, augmented, if_pos rfl]
  · rw [progress.sized.map_length, count, eq_comm, List.eq_replicate_iff, List.length_map]
    exact ⟨rfl, by simpa using even⟩
  · rw [List.length_map, count, lengths]
  · intro row member
    obtain ⟨equation, present, rfl⟩ := List.mem_map.mp member
    exact (progress.sized.fits equation present).entries_lt
  · intro side member
    obtain ⟨equation, present, rfl⟩ := List.mem_map.mp member
    exact (progress.sized.fits equation present).side_lt
  · intro x
    rw [solves_given_iff solvedNil pending, solves_iff_satisfied]
    exact (progress.equivalent _ _ _).symm
  · rw [pivots_map_snd]
    exact progress.echelon.increasing
  · rintro ⟨row, column⟩ pivot
    rw [progress.pivot_column pivot, count]
  · intro prime
    refine ⟨?_, progress.past_rank prime⟩
    rintro ⟨row, column⟩ pivot entries found other left
    exact progress.left_of_pivot prime pivot found left

/-- Modulo six the first column has no unit and keeps its entries, and the rows change places. -/
theorem eliminate_reduced_form_skipped_column :
    (do let start ← ofEquations [[2, 3], [4, 1]] [1, 5] 6; start.eliminate)
      = .ok ⟨6, 2, true, [(1, ⟨[4, 1], 5⟩)], [⟨[2, 0], 4⟩], true⟩ ∧
    ∀ x, Solves 6 [[2, 3], [4, 1]] [1, 5] x ↔ Solves 6 [[4, 1], [2, 0]] [5, 4] x := by
  have whole : (do let start ← ofEquations [[2, 3], [4, 1]] [1, 5] 6; start.eliminate)
      = .ok ⟨6, 2, true, [(1, ⟨[4, 1], 5⟩)], [⟨[2, 0], 4⟩], true⟩ := by
    decide +kernel
  obtain ⟨start, finish, finalSides, built, run, final, _, _, _, _, same, _⟩ :=
    @eliminate_reduced_form 6 (by decide) (by decide) [[2, 3], [4, 1]] [1, 5] (by decide) rfl
  refine ⟨whole, ?_⟩
  rw [built, Outcome.ok_bind, run] at whole
  cases whole
  cases final
  exact same

end LinearSystem

end ResidueAlgebra
