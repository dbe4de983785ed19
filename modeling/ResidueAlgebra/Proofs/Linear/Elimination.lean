import ResidueAlgebra.Proofs.Linear.Equation

/-!
# Elimination

What processing one column does is said once, by `processColumn_cases`: nothing, when no pending
equation has a usable entry there, or the exchange, scaling and clearing collected in `pivoted`.
From it follow, column by column, that elimination never fails, keeps the set of solutions over every
module, leaves a unit vector in each pivot column, and treats the entries in the same way whatever
the sides are. Over a prime modulus a column without a pivot is zero in every pending equation, and
the equations end in the form of a staircase.
-/
set_option autoImplicit false
namespace ResidueAlgebra.LinearSystem

variable {m columns : Nat}

structure Sized (m columns : Nat) (system : LinearSystem) : Prop where
  modulus_eq : system.modulus = m
  columns_eq : system.columns = columns
  fits : ∀ equation ∈ system.equations, equation.Fits m columns

theorem Sized.solved {system : LinearSystem} (sized : system.Sized m columns) :
    ∀ owned ∈ system.solved, owned.2.Fits m columns := fun _ member =>
  sized.fits _ (List.mem_append_left _ (List.mem_map_of_mem member))

theorem Sized.pending {system : LinearSystem} (sized : system.Sized m columns) :
    ∀ equation ∈ system.pending, equation.Fits m columns := fun _ member =>
  sized.fits _ (List.mem_append_right _ member)

/-! ## One column -/

def clearedBy (m column : Nat) (pivot equation : Equation) : Equation :=
  equation.minus (equation.coefficient m column) pivot

/-- The system after `chosen` became the pivot of the column, `others` staying pending. -/
def pivoted (system : LinearSystem) (m column : Nat) (chosen : Equation) (others : List Equation) :
    LinearSystem :=
  let pivot := chosen.scaled (chosen.coefficient m column)⁻¹
  { system with
    solved := system.solved.map (fun owned => (owned.1, clearedBy m column pivot owned.2))
      ++ [(column, pivot)]
    pending := others.map (clearedBy m column pivot) }

theorem exchange_spec {column : Nat} (inside : column < columns) (first : Equation)
    {rest : List Equation} (fitted : ∀ equation ∈ rest, equation.Fits m columns) :
    (exchange m column first rest = .ok none ∧ ∀ equation ∈ rest, ¬ equation.Usable m column) ∨
      ∃ chosen others, exchange m column first rest = .ok (some (chosen, others)) ∧
        chosen.Usable m column ∧ (chosen :: others).Perm (first :: rest) := by
  induction rest with
  | nil => exact Or.inl ⟨rfl, by simp⟩
  | cons equation rest ih =>
      obtain ⟨equationFitted, restFitted⟩ := List.forall_mem_cons.mp fitted
      rw [exchange, equationFitted.hasUnit_eq inside, Outcome.ok_bind]
      by_cases usable : equation.Usable m column
      · right
        refine ⟨equation, first :: rest, ?_, usable, List.Perm.swap ..⟩
        rw [decide_eq_true usable, if_pos rfl]
      · rw [decide_eq_false usable, if_neg Bool.false_ne_true]
        rcases ih restFitted with ⟨run, none⟩ | ⟨chosen, others, run, found, same⟩
        · left
          rw [run]
          refine ⟨rfl, ?_⟩
          intro later member
          rcases List.mem_cons.mp member with rfl | inRest
          · exact usable
          · exact none later inRest
        · right
          refine ⟨chosen, equation :: others, by rw [run]; rfl, found, ?_⟩
          calc (chosen :: equation :: others).Perm (equation :: chosen :: others) :=
                List.Perm.swap ..
            _ |>.Perm (equation :: first :: rest) := List.Perm.cons _ same
            _ |>.Perm (first :: equation :: rest) := List.Perm.swap ..

theorem choosePivot_spec {column : Nat} (inside : column < columns) {pending : List Equation}
    (fitted : ∀ equation ∈ pending, equation.Fits m columns) :
    (choosePivot m column pending = .ok none ∧
        ∀ equation ∈ pending, ¬ equation.Usable m column) ∨
      ∃ chosen others, choosePivot m column pending = .ok (some (chosen, others)) ∧
        chosen.Usable m column ∧ (chosen :: others).Perm pending := by
  cases pending with
  | nil => exact Or.inl ⟨rfl, by simp⟩
  | cons first rest =>
      obtain ⟨firstFitted, restFitted⟩ := List.forall_mem_cons.mp fitted
      rw [choosePivot, firstFitted.hasUnit_eq inside, Outcome.ok_bind]
      by_cases usable : first.Usable m column
      · right
        refine ⟨first, rest, ?_, usable, List.Perm.refl _⟩
        rw [decide_eq_true usable, if_pos rfl]
      · rw [decide_eq_false usable, if_neg Bool.false_ne_true]
        rcases exchange_spec inside first restFitted with ⟨run, none⟩ | found
        · left
          refine ⟨run, ?_⟩
          intro later member
          rcases List.mem_cons.mp member with rfl | inRest
          · exact usable
          · exact none later inRest
        · exact Or.inr found

theorem processColumn_cases [NeZero m] (fits : m < Word.long) {system : LinearSystem}
    (sized : system.Sized m columns) {column : Nat} (inside : column < columns) :
    (system.processColumn column = .ok system ∧
        choosePivot m column system.pending = .ok none ∧
        ∀ equation ∈ system.pending, ¬ equation.Usable m column) ∨
      ∃ chosen others, system.processColumn column = .ok (system.pivoted m column chosen others) ∧
        choosePivot m column system.pending = .ok (some (chosen, others)) ∧
        chosen.Usable m column ∧ (chosen :: others).Perm system.pending := by
  rcases choosePivot_spec inside sized.pending with
    ⟨run, none⟩ | ⟨chosen, others, run, usable, same⟩
  · left
    refine ⟨?_, run, none⟩
    rw [processColumn, sized.modulus_eq, run]
    rfl
  · right
    refine ⟨chosen, others, ?_, run, usable, same⟩
    have chosenFits : chosen.Fits m columns :=
      sized.pending chosen (same.subset (List.mem_cons_self ..))
    have pivotFits := chosenFits.scaled (chosen.coefficient m column)⁻¹
    have solved : system.solved.mapM (fun owned => do
          let cleared ← owned.2.clear m column (chosen.scaled (chosen.coefficient m column)⁻¹)
          .ok (owned.1, cleared))
        = .ok (system.solved.map fun owned => (owned.1,
          clearedBy m column (chosen.scaled (chosen.coefficient m column)⁻¹) owned.2)) := by
      refine Outcome.mapM_eq_map _ fun owned member => ?_
      rw [(sized.solved owned member).clear_eq fits pivotFits inside, Outcome.ok_bind]
      rfl
    have pending : others.mapM (fun equation =>
          equation.clear m column (chosen.scaled (chosen.coefficient m column)⁻¹))
        = .ok (others.map
          (clearedBy m column (chosen.scaled (chosen.coefficient m column)⁻¹))) := by
      refine Outcome.mapM_eq_map _ fun equation member => ?_
      have present := same.subset (List.mem_cons_of_mem _ member)
      exact (sized.pending equation present).clear_eq fits pivotFits inside
    rw [processColumn, sized.modulus_eq, run, Outcome.ok_bind]
    dsimp only
    rw [chosenFits.normalize_eq fits inside usable, Outcome.ok_bind, solved, Outcome.ok_bind,
      pending, Outcome.ok_bind]
    simp only [pivoted, sized.modulus_eq]

theorem clearedBy_fits [NeZero m] {column : Nat} (pivot : Equation) {equation : Equation}
    (fitted : equation.Fits m columns) : (clearedBy m column pivot equation).Fits m columns :=
  fitted.minus _ pivot

theorem pivoted_equations (system : LinearSystem) (m column : Nat) (chosen : Equation)
    (others : List Equation) (pivot : Equation)
    (scaled : pivot = chosen.scaled (chosen.coefficient m column)⁻¹) :
    (system.pivoted m column chosen others).equations
      = (system.solved.map Prod.snd).map (clearedBy m column pivot) ++ pivot ::
        others.map (clearedBy m column pivot) := by
  subst scaled
  simp [equations, pivoted, List.map_map, Function.comp_def]

theorem Sized.pivoted [NeZero m] {system : LinearSystem} (sized : system.Sized m columns)
    {column : Nat} {chosen : Equation} {others : List Equation}
    (same : (chosen :: others).Perm system.pending) :
    (system.pivoted m column chosen others).Sized m columns where
  modulus_eq := sized.modulus_eq
  columns_eq := sized.columns_eq
  fits := by
    intro equation member
    rw [pivoted_equations system m column chosen others _ rfl, List.mem_append, List.mem_cons,
      List.mem_map, List.mem_map] at member
    rcases member with ⟨old, inSolved, rfl⟩ | rfl | ⟨old, inOthers, rfl⟩
    · exact clearedBy_fits _ (sized.fits old (List.mem_append_left _ inSolved))
    · exact (sized.pending chosen (same.subset (List.mem_cons_self ..))).scaled _
    · exact clearedBy_fits _ (sized.pending old (same.subset (List.mem_cons_of_mem _ inOthers)))

/-! ## Solutions are kept -/

def Satisfied {M : Type} [AddCommGroup M] [Module (ZMod m) M] (unknowns : Nat → M) (unit : M)
    (system : LinearSystem) : Prop :=
  ∀ equation ∈ system.equations, equation.Holds (m := m) unknowns unit

/-- Both systems have the same solutions over every module. -/
def Equivalent (m : Nat) (left right : LinearSystem) : Prop :=
  ∀ (M : Type) [AddCommGroup M] [Module (ZMod m) M] (unknowns : Nat → M) (unit : M),
    left.Satisfied (m := m) unknowns unit ↔ right.Satisfied (m := m) unknowns unit

theorem pivoted_equivalent [NeZero m] {system : LinearSystem} (sized : system.Sized m columns)
    {column : Nat} {chosen : Equation} {others : List Equation}
    (usable : chosen.Usable m column) (same : (chosen :: others).Perm system.pending) :
    Equivalent m (system.pivoted m column chosen others) system := by
  intro M _ _ unknowns unit
  have chosenFits : chosen.Fits m columns :=
    sized.pending chosen (same.subset (List.mem_cons_self ..))
  have scale := Equation.holds_scaled_iff usable.isUnit_inv chosen unknowns unit
  have split : system.Satisfied (m := m) unknowns unit ↔
      (∀ equation ∈ system.solved.map Prod.snd, equation.Holds (m := m) unknowns unit) ∧
        chosen.Holds (m := m) unknowns unit ∧
        ∀ equation ∈ others, equation.Holds (m := m) unknowns unit := by
    rw [Satisfied, equations, List.forall_mem_append, ← List.forall_mem_cons]
    exact and_congr_right fun _ => forall_congr' fun _ => by rw [same.mem_iff]
  rw [split, Satisfied, pivoted_equations system m column chosen others _ rfl,
    List.forall_mem_append, List.forall_mem_cons, scale]
  -- Clearing is reversible as soon as the pivot holds, which both sides say.
  have clear : chosen.Holds (m := m) unknowns unit → ∀ list : List Equation,
      (∀ equation ∈ list, equation.Fits m columns) →
      ((∀ equation ∈ list.map (clearedBy m column
          (chosen.scaled (chosen.coefficient m column)⁻¹)), equation.Holds (m := m) unknowns unit) ↔
        ∀ equation ∈ list, equation.Holds (m := m) unknowns unit) := by
    intro holds list fitted
    rw [List.forall_mem_map]
    refine forall₂_congr fun equation member => ?_
    exact Equation.holds_minus_iff _ (fitted equation member) (chosenFits.scaled _)
      (scale.mpr holds)
  have solvedFits : ∀ equation ∈ system.solved.map Prod.snd, equation.Fits m columns :=
    fun equation member => sized.fits equation (List.mem_append_left _ member)
  have othersFit : ∀ equation ∈ others, equation.Fits m columns := fun equation member =>
    sized.pending equation (same.subset (List.mem_cons_of_mem _ member))
  constructor
  · rintro ⟨solved, pivot, pending⟩
    exact ⟨(clear pivot _ solvedFits).mp solved, pivot, (clear pivot _ othersFit).mp pending⟩
  · rintro ⟨solved, pivot, pending⟩
    exact ⟨(clear pivot _ solvedFits).mpr solved, pivot, (clear pivot _ othersFit).mpr pending⟩

/-! ## Echelon form -/

/-- The pivot columns are increasing and lie below `bound`, and each of them holds a one in the
equation that owns it and zeros elsewhere. -/
structure Echelon (m bound : Nat) (system : LinearSystem) : Prop where
  columns_lt : ∀ owned ∈ system.solved, owned.1 < bound
  increasing : (system.solved.map Prod.fst).Pairwise (· < ·)
  pivot_one : ∀ owned ∈ system.solved, owned.2.coefficient m owned.1 = 1
  solved_zero : ∀ owned ∈ system.solved, ∀ other ∈ system.solved, other.1 ≠ owned.1 →
    other.2.coefficient m owned.1 = 0
  pending_zero : ∀ owned ∈ system.solved, ∀ equation ∈ system.pending,
    equation.coefficient m owned.1 = 0

theorem Echelon.mono {system : LinearSystem} {bound later : Nat} (ordered : bound ≤ later)
    (echelon : system.Echelon m bound) : system.Echelon m later :=
  { echelon with
    columns_lt := fun owned member => Nat.lt_of_lt_of_le (echelon.columns_lt owned member) ordered }

theorem coefficient_scaled_inv [NeZero m] {column : Nat} {chosen : Equation}
    (usable : chosen.Usable m column) :
    (chosen.scaled (chosen.coefficient m column)⁻¹).coefficient m column = 1 := by
  simp [Equation.coefficient_scaled, ZMod.mul_inv_of_unit _ usable.isUnit]

theorem Echelon.pivoted [NeZero m] {system : LinearSystem} (sized : system.Sized m columns)
    {column : Nat} {chosen : Equation} {others : List Equation} (usable : chosen.Usable m column)
    (same : (chosen :: others).Perm system.pending) (echelon : system.Echelon m column) :
    (system.pivoted m column chosen others).Echelon m (column + 1) := by
  have chosenPending : chosen ∈ system.pending := same.subset (List.mem_cons_self ..)
  have pivotFits := (sized.pending chosen chosenPending).scaled (chosen.coefficient m column)⁻¹
  have pivotOne := coefficient_scaled_inv usable
  have pivotZero : ∀ owned ∈ system.solved,
      (chosen.scaled (chosen.coefficient m column)⁻¹).coefficient m owned.1 = 0 := by
    intro owned member
    simp [Equation.coefficient_scaled, echelon.pending_zero owned member chosen chosenPending]
  have shape : (system.pivoted m column chosen others).solved
      = system.solved.map (fun owned => (owned.1, clearedBy m column
        (chosen.scaled (chosen.coefficient m column)⁻¹) owned.2))
      ++ [(column, chosen.scaled (chosen.coefficient m column)⁻¹)] := rfl
  have rest : (system.pivoted m column chosen others).pending
      = others.map (clearedBy m column (chosen.scaled (chosen.coefficient m column)⁻¹)) := rfl
  generalize chosen.scaled (chosen.coefficient m column)⁻¹ = pivot at *
  -- Clearing empties the new pivot column and does not touch the old ones.
  have emptied : ∀ equation : Equation, equation.Fits m columns →
      (clearedBy m column pivot equation).coefficient m column = 0 := by
    intro equation fitted
    simp [clearedBy, Equation.coefficient_minus _ fitted pivotFits, pivotOne]
  have untouched : ∀ equation : Equation, equation.Fits m columns → ∀ owned ∈ system.solved,
      (clearedBy m column pivot equation).coefficient m owned.1
        = equation.coefficient m owned.1 := by
    intro equation fitted owned member
    simp [clearedBy, Equation.coefficient_minus _ fitted pivotFits, pivotZero owned member]
  have members : ∀ owned, owned ∈ (system.pivoted m column chosen others).solved ↔
      (∃ old ∈ system.solved, (old.1, clearedBy m column pivot old.2) = owned) ∨
        owned = (column, pivot) := by
    intro owned
    rw [shape, List.mem_append, List.mem_map, List.mem_singleton]
  constructor
  · intro owned member
    rcases (members owned).mp member with ⟨old, inSolved, rfl⟩ | rfl
    · exact Nat.lt_succ_of_lt (echelon.columns_lt old inSolved)
    · exact Nat.lt_succ_self column
  · rw [shape, List.map_append, List.map_map, List.pairwise_append]
    refine ⟨echelon.increasing, List.pairwise_singleton .., ?_⟩
    intro before inSolved after isColumn
    obtain ⟨old, member, rfl⟩ := List.mem_map.mp inSolved
    rw [List.mem_singleton.mp isColumn]
    exact echelon.columns_lt old member
  · intro owned member
    rcases (members owned).mp member with ⟨old, inSolved, rfl⟩ | rfl
    · rw [untouched old.2 (sized.solved old inSolved) old inSolved]
      exact echelon.pivot_one old inSolved
    · exact pivotOne
  · intro owned member other otherMember different
    rcases (members owned).mp member with ⟨old, inSolved, rfl⟩ | rfl
    · rcases (members other).mp otherMember with ⟨second, inSolved', rfl⟩ | rfl
      · rw [untouched second.2 (sized.solved second inSolved') old inSolved]
        exact echelon.solved_zero old inSolved second inSolved' different
      · exact pivotZero old inSolved
    · rcases (members other).mp otherMember with ⟨second, inSolved', rfl⟩ | rfl
      · exact emptied second.2 (sized.solved second inSolved')
      · exact absurd rfl different
  · intro owned member equation inPending
    rw [rest] at inPending
    obtain ⟨kept, inOthers, rfl⟩ := List.mem_map.mp inPending
    have keptPending : kept ∈ system.pending := same.subset (List.mem_cons_of_mem _ inOthers)
    have keptFits := sized.pending kept keptPending
    rcases (members owned).mp member with ⟨old, inSolved, rfl⟩ | rfl
    · rw [untouched kept keptFits old inSolved]
      exact echelon.pending_zero old inSolved kept keptPending
    · exact emptied kept keptFits

/-! ## Staircase form over a prime modulus -/

/-- Nothing stands to the left of a pivot or below `bound` in a pending equation. -/
structure Staircase (m bound : Nat) (system : LinearSystem) : Prop where
  solved_left : ∀ owned ∈ system.solved, ∀ column < owned.1, owned.2.coefficient m column = 0
  pending_left : ∀ equation ∈ system.pending, ∀ column < bound, equation.coefficient m column = 0

theorem coefficient_eq_zero_of_not_usable [NeZero m] (prime : m.Prime) {equation : Equation}
    (fitted : equation.Fits m columns) {column : Nat} (useless : ¬ equation.Usable m column) :
    equation.coefficient m column = 0 := by
  have small := fitted.entry_lt column
  by_contra nonzero
  have entry : equation.entries.getD column 0 ≠ 0 := by
    intro zero
    exact nonzero (by rw [Equation.coefficient, zero, Nat.cast_zero])
  exact useless ⟨entry, (Nat.coprime_of_lt_prime entry small prime).symm⟩

theorem Staircase.skipped [NeZero m] (prime : m.Prime) {system : LinearSystem}
    (sized : system.Sized m columns) {column : Nat}
    (useless : ∀ equation ∈ system.pending, ¬ equation.Usable m column)
    (staircase : system.Staircase m column) : system.Staircase m (column + 1) where
  solved_left := staircase.solved_left
  pending_left := by
    intro equation member other below
    rcases Nat.lt_succ_iff_lt_or_eq.mp below with before | rfl
    · exact staircase.pending_left equation member other before
    · exact coefficient_eq_zero_of_not_usable prime (sized.pending equation member)
        (useless equation member)

theorem Staircase.pivoted [NeZero m] {system : LinearSystem} (sized : system.Sized m columns)
    {column : Nat} {chosen : Equation} {others : List Equation} (usable : chosen.Usable m column)
    (same : (chosen :: others).Perm system.pending) (echelon : system.Echelon m column)
    (staircase : system.Staircase m column) :
    (system.pivoted m column chosen others).Staircase m (column + 1) := by
  have chosenPending : chosen ∈ system.pending := same.subset (List.mem_cons_self ..)
  have pivotFits := (sized.pending chosen chosenPending).scaled (chosen.coefficient m column)⁻¹
  have pivotOne := coefficient_scaled_inv usable
  have pivotLeft : ∀ other < column,
      (chosen.scaled (chosen.coefficient m column)⁻¹).coefficient m other = 0 := by
    intro other before
    rw [Equation.coefficient_scaled, staircase.pending_left chosen chosenPending other before,
      zero_mul]
  -- Left of its column the pivot is empty, so clearing changes nothing there.
  have untouched : ∀ equation : Equation, equation.Fits m columns → ∀ other < column,
      (clearedBy m column (chosen.scaled (chosen.coefficient m column)⁻¹) equation).coefficient m
        other = equation.coefficient m other := by
    intro equation fitted other before
    simp [clearedBy, Equation.coefficient_minus _ fitted pivotFits, pivotLeft other before]
  constructor
  · intro owned member other before
    rcases List.mem_append.mp member with old | new
    · obtain ⟨kept, inSolved, rfl⟩ := List.mem_map.mp old
      have earlier := echelon.columns_lt kept inSolved
      rw [untouched kept.2 (sized.solved kept inSolved) other (Nat.lt_trans before earlier)]
      exact staircase.solved_left kept inSolved other before
    · obtain rfl := List.mem_singleton.mp new
      exact pivotLeft other before
  · intro equation member other below
    obtain ⟨kept, inOthers, rfl⟩ := List.mem_map.mp member
    have keptPending : kept ∈ system.pending := same.subset (List.mem_cons_of_mem _ inOthers)
    have keptFits := sized.pending kept keptPending
    rcases Nat.lt_succ_iff_lt_or_eq.mp below with before | rfl
    · rw [untouched kept keptFits other before]
      exact staircase.pending_left kept keptPending other before
    · simp [clearedBy, Equation.coefficient_minus _ keptFits pivotFits, pivotOne]

end ResidueAlgebra.LinearSystem
