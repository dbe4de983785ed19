import Mathlib.Algebra.BigOperators.Ring.Finset
import Mathlib.Data.Finset.Card
import ResidueAlgebra.Proofs.Linear.Rank

/-!
# Systems built from rows and their ranks

The system built from given rows and sides says what they say, and the matrix whose rank is taken
shares its elimination. A system has at most as many pivots as columns. With that many every column
has one, so that each equation with a pivot names one unknown and nothing is left of the others.
-/
set_option autoImplicit false
namespace ResidueAlgebra.LinearSystem

variable {m columns : Nat}

/-! ## Building a system -/

def reducedEquation (m : Nat) (row : List Nat) (side : Nat) : Equation :=
  ⟨row.map (· % m), side % m⟩

theorem reducedEquation_fits [NeZero m] {row : List Nat} (length : row.length = columns)
    (side : Nat) : (reducedEquation m row side).Fits m columns where
  length_eq := by rw [reducedEquation, List.length_map, length]
  entries_lt := by
    intro entry member
    obtain ⟨old, _, rfl⟩ := List.mem_map.mp member
    exact Nat.mod_lt _ (NeZero.pos m)
  side_lt := Nat.mod_lt _ (NeZero.pos m)

theorem coefficient_reducedEquation (row : List Nat) (side column : Nat) :
    (reducedEquation m row side).coefficient m column
      = (Equation.mk row side).coefficient m column := by
  rcases Nat.lt_or_ge column row.length with inside | outside
  · simp [Equation.coefficient, reducedEquation, inside]
  · simp [Equation.coefficient, reducedEquation, outside]

theorem holds_reducedEquation_iff {M : Type} [AddCommGroup M] [Module (ZMod m) M] (row : List Nat)
    (side : Nat) (unknowns : Nat → M) (unit : M) :
    (reducedEquation m row side).Holds (m := m) unknowns unit ↔
      (Equation.mk row side).Holds (m := m) unknowns unit := by
  simp only [Equation.Holds, coefficient_reducedEquation]
  simp [reducedEquation]

def width (rows : List (List Nat)) : Nat :=
  (rows.head?.map List.length).getD 0

theorem width_eq {rows : List (List Nat)} (nonempty : rows ≠ [])
    (rectangular : ∀ row ∈ rows, row.length = columns) : width rows = columns := by
  cases rows with
  | nil => exact absurd rfl nonempty
  | cons row rest => exact rectangular row (List.mem_cons_self ..)

theorem length_eq_width {rows : List (List Nat)}
    (rectangular : ∀ row ∈ rows, ∀ other ∈ rows, row.length = other.length) :
    ∀ row ∈ rows, row.length = width rows := by
  intro row member
  exact (width_eq (List.ne_nil_of_mem member) fun other present =>
    rectangular other present row member).symm

theorem build_eq [NeZero m] {rows : List (List Nat)} (wide : width rows = columns)
    (rectangular : ∀ row ∈ rows, row.length = columns) (sides : List Nat) (augmented : Bool) :
    build rows sides augmented m = .ok ⟨m, columns, augmented, [],
      (rows.zip sides).map fun pair => reducedEquation m pair.1 pair.2, false⟩ := by
  have first : (rows.head?.map List.length).getD 0 = columns := wide
  have even : (rows.any fun row => row.length != columns) = false := by
    simpa using rectangular
  have pending : (rows.zip sides).mapM (fun pair => do
        let entries ← pair.1.mapM fun entry => Residue.reduce entry m
        let side ← Residue.reduce pair.2 m
        .ok (Equation.mk entries side))
      = .ok ((rows.zip sides).map fun pair => reducedEquation m pair.1 pair.2) := by
    refine Outcome.mapM_eq_map _ fun pair _ => ?_
    have entries : pair.1.mapM (fun entry => Residue.reduce entry m)
        = .ok (pair.1.map (· % m)) :=
      Outcome.mapM_eq_map _ fun entry _ => Residue.reduce_eq (NeZero.pos m)
    rw [entries, Outcome.ok_bind, Residue.reduce_eq (NeZero.pos m), Outcome.ok_bind]
    rfl
  rw [build, if_neg (NeZero.ne m)]
  dsimp only
  rw [first, even, if_neg Bool.false_ne_true, pending, Outcome.ok_bind]

theorem build_fresh [NeZero m] {rows : List (List Nat)} {sides : List Nat} {augmented : Bool}
    {start : LinearSystem} (built : build rows sides augmented m = .ok start) :
    start.Fresh m (width rows) := by
  have rectangular : ∀ row ∈ rows, row.length = width rows := by
    by_contra ragged
    have uneven : (rows.any fun row => row.length != width rows) = true := by
      simpa using ragged
    have refused : build rows sides augmented m = Outcome.reject .raggedRows := by
      rw [build, if_neg (NeZero.ne m)]
      exact if_pos uneven
    cases built.symm.trans refused
  cases built.symm.trans (build_eq rfl rectangular sides augmented)
  refine ⟨⟨rfl, rfl, ?_⟩, rfl, rfl⟩
  intro equation member
  have pending : equation ∈ (rows.zip sides).map fun pair => reducedEquation m pair.1 pair.2 :=
    member
  obtain ⟨pair, present, rfl⟩ := List.mem_map.mp pending
  exact reducedEquation_fits (rectangular pair.1 (List.of_mem_zip present).1) pair.2

/-- Sides replaced by zeros, as the rank is computed. -/
theorem zip_zeros_bare (m : Nat) {rows : List (List Nat)} {sides : List Nat}
    (lengths : rows.length = sides.length) :
    (rows.zip (List.replicate rows.length 0)).map (fun pair => reducedEquation m pair.1 pair.2)
      = ((rows.zip sides).map fun pair => reducedEquation m pair.1 pair.2).map Equation.bare := by
  induction rows generalizing sides with
  | nil => simp
  | cons row rows ih =>
      cases sides with
      | nil => simp at lengths
      | cons side sides =>
          simp only [List.length_cons, Nat.add_right_cancel_iff] at lengths
          simp only [List.length_cons, List.replicate_succ, List.zip_cons_cons, List.map_cons,
            ih lengths]
          simp [reducedEquation, Equation.bare]

theorem satisfied_given_iff {M : Type} [AddCommGroup M] [Module (ZMod m) M] {start : LinearSystem}
    {rows : List (List Nat)} {sides : List Nat} (solvedNil : start.solved = [])
    (pending : start.pending = (rows.zip sides).map fun pair => reducedEquation m pair.1 pair.2)
    (unknowns : Nat → M) (unit : M) :
    start.Satisfied (m := m) unknowns unit ↔
      ∀ pair ∈ rows.zip sides, (Equation.mk pair.1 pair.2).Holds (m := m) unknowns unit := by
  rw [Satisfied, equations, solvedNil, pending, List.map_nil, List.nil_append, List.forall_mem_map]
  simp only [holds_reducedEquation_iff]

/-- What is known of the elimination of given rows and sides. The matrix whose rank is taken goes
through the same steps. -/
structure Elimination (m columns : Nat) (rows : List (List Nat)) (sides : List Nat)
    (start finish : LinearSystem) : Prop where
  built : ofEquations rows sides m = .ok start
  run : start.eliminate = .ok finish
  bare_built : ofRows rows m = .ok start.bare
  bare_run : start.bare.eliminate = .ok finish.bare
  fresh : start.Fresh m columns
  progress : Progress m columns columns start finish
  augmented_eq : start.augmented = true
  pending_eq : start.pending = (rows.zip sides).map fun pair => reducedEquation m pair.1 pair.2

theorem elimination_spec [NeZero m] (fits : m < Word.long) {rows : List (List Nat)}
    (wide : width rows = columns) (rectangular : ∀ row ∈ rows, row.length = columns)
    {sides : List Nat} (lengths : rows.length = sides.length) :
    ∃ start finish, Elimination m columns rows sides start finish := by
  have built := @build_eq m columns _ rows wide rectangular sides true
  have fresh := wide ▸ build_fresh built
  generalize shape : (LinearSystem.mk m columns true []
    ((rows.zip sides).map fun pair => reducedEquation m pair.1 pair.2) false) = start at built fresh
  obtain ⟨finish, run, bareRun, progress⟩ := fresh.eliminate_spec fits
  have bare : ofRows rows m = .ok start.bare := by
    rw [ofRows, build_eq wide rectangular, zip_zeros_bare m lengths, ← shape]
    rfl
  refine ⟨start, finish, ?_, run, bare, bareRun, fresh, progress, by rw [← shape],
    by rw [← shape]⟩
  simp [ofEquations, if_pos lengths, built]

namespace Elimination

variable {rows : List (List Nat)} {sides : List Nat} {start finish : LinearSystem}

theorem matrixRank_eq (elimination : Elimination m columns rows sides start finish) :
    matrixRank rows m = .ok finish.rank := by
  simp [matrixRank, elimination.bare_built, elimination.bare_run, bare_rank]

theorem length_eq (elimination : Elimination m columns rows sides start finish)
    (lengths : rows.length = sides.length) :
    finish.solved.length + finish.pending.length = rows.length := by
  rw [elimination.progress.total, elimination.fresh.solved_nil, elimination.pending_eq,
    List.length_map, List.length_zip, ← lengths, List.length_nil]
  omega

theorem satisfied_iff {M : Type} [AddCommGroup M] [Module (ZMod m) M]
    (elimination : Elimination m columns rows sides start finish) (unknowns : Nat → M) (unit : M) :
    finish.Satisfied (m := m) unknowns unit ↔
      ∀ pair ∈ rows.zip sides, (Equation.mk pair.1 pair.2).Holds (m := m) unknowns unit :=
  (elimination.progress.equivalent M unknowns unit).trans
    (satisfied_given_iff elimination.fresh.solved_nil elimination.pending_eq unknowns unit)

end Elimination

/-! ## Full rank -/

theorem Echelon.distinct {system : LinearSystem} {bound : Nat} (echelon : system.Echelon m bound) :
    (system.solved.map Prod.fst).Nodup :=
  echelon.increasing.imp fun before => Nat.ne_of_lt before

theorem Echelon.columns_subset {system : LinearSystem} {bound : Nat}
    (echelon : system.Echelon m bound) :
    (system.solved.map Prod.fst).toFinset ⊆ Finset.range bound := by
  intro column member
  obtain ⟨owned, present, rfl⟩ := List.mem_map.mp (List.mem_toFinset.mp member)
  exact Finset.mem_range.mpr (echelon.columns_lt owned present)

theorem Echelon.rank_le {system : LinearSystem} {bound : Nat} (echelon : system.Echelon m bound) :
    system.rank ≤ bound := by
  have card := Finset.card_le_card echelon.columns_subset
  rwa [List.toFinset_card_of_nodup echelon.distinct, List.length_map, Finset.card_range] at card

theorem matrixRank_spec [NeZero m] (fits : m < Word.long) {rows : List (List Nat)}
    (nonempty : rows ≠ []) (rectangular : ∀ row ∈ rows, row.length = columns) :
    ∃ rank, matrixRank rows m = .ok rank ∧ rank ≤ rows.length ∧ rank ≤ columns := by
  have lengths : rows.length = (List.replicate rows.length 0).length := by simp
  obtain ⟨start, finish, elimination⟩ :=
    elimination_spec fits (width_eq nonempty rectangular) rectangular lengths
  refine ⟨finish.rank, elimination.matrixRank_eq, ?_, elimination.progress.echelon.rank_le⟩
  rw [← elimination.length_eq lengths]
  exact Nat.le_add_right ..

theorem Echelon.owned_of_full {system : LinearSystem} (echelon : system.Echelon m columns)
    (full : system.rank = columns) {column : Nat} (inside : column < columns) :
    ∃ equation, (column, equation) ∈ system.solved := by
  have all : (system.solved.map Prod.fst).toFinset = Finset.range columns := by
    apply Finset.eq_of_subset_of_card_le echelon.columns_subset
    rw [List.toFinset_card_of_nodup echelon.distinct, List.length_map, Finset.card_range]
    exact Nat.le_of_eq full.symm
  have member : column ∈ (system.solved.map Prod.fst).toFinset := by
    rw [all]
    exact Finset.mem_range.mpr inside
  obtain ⟨⟨key, equation⟩, present, same⟩ := List.mem_map.mp (List.mem_toFinset.mp member)
  obtain rfl : key = column := same
  exact ⟨equation, present⟩

theorem Echelon.holds_iff {M : Type} [AddCommGroup M] [Module (ZMod m) M] {system : LinearSystem}
    (echelon : system.Echelon m columns) (sized : system.Sized m columns)
    (full : system.rank = columns) {column : Nat} {equation : Equation}
    (member : (column, equation) ∈ system.solved) (unknowns : Nat → M) (unit : M) :
    equation.Holds (m := m) unknowns unit ↔
      unknowns column = (equation.side : ZMod m) • unit := by
  have collapse : ∑ other ∈ Finset.range columns, equation.coefficient m other • unknowns other
      = unknowns column := by
    rw [Finset.sum_eq_single column]
    · rw [echelon.pivot_one (column, equation) member, one_smul]
    · intro other inside different
      obtain ⟨owner, present⟩ := echelon.owned_of_full full (Finset.mem_range.mp inside)
      rw [echelon.solved_zero (other, owner) present (column, equation) member different.symm,
        zero_smul]
    · intro outside
      exact absurd (Finset.mem_range.mpr (echelon.columns_lt (column, equation) member)) outside
  rw [Equation.Holds, (sized.solved (column, equation) member).length_eq, collapse]

def Exhausted (m bound : Nat) (system : LinearSystem) : Prop :=
  ∀ equation ∈ system.pending, ∀ column < bound, equation.coefficient m column = 0

theorem Echelon.exhausted_of_full {system : LinearSystem} (echelon : system.Echelon m columns)
    (full : system.rank = columns) : system.Exhausted m columns := by
  intro equation member column inside
  obtain ⟨owner, present⟩ := echelon.owned_of_full full inside
  exact echelon.pending_zero (column, owner) present equation member

end ResidueAlgebra.LinearSystem
