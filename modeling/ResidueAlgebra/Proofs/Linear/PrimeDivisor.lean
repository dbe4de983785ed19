import ResidueAlgebra.Proofs.Linear.RowSpace

/-!
# Ranks modulo a prime divisor of the modulus

Read modulo a prime `q` that divides `m`, a system eliminated modulo `m` is still in echelon form and
its rows still span the space of the given rows, so there are at most as many pivots as the rank over
the field of `q` elements. If `m` is a power of `q`, an entry that cannot be a pivot is zero modulo
`q`; nothing remains of the equations without a pivot, and the two numbers agree.
-/
set_option autoImplicit false
namespace ResidueAlgebra

variable {m q columns : Nat}

/-! ## Rows over the residues modulo `q` -/

def rowVector (q columns : Nat) (row : List Nat) : Fin columns → ZMod q :=
  fun column => ((row.getD column 0 : Nat) : ZMod q)

def rowSpan (q columns : Nat) (rows : List (List Nat)) :
    Submodule (ZMod q) (Fin columns → ZMod q) :=
  Submodule.span (ZMod q) { vector | ∃ row ∈ rows, rowVector q columns row = vector }

theorem rowSpan_append (left right : List (List Nat)) :
    rowSpan q columns (left ++ right) = rowSpan q columns left ⊔ rowSpan q columns right := by
  rw [rowSpan, rowSpan, rowSpan, ← Submodule.span_union]
  congr 1
  ext vector
  simp [or_and_right, exists_or]

theorem finrank_rowSpan_le [Fact q.Prime] (rows : List (List Nat)) :
    Module.finrank (ZMod q) (rowSpan q columns rows) ≤ rows.length := by
  have listed : { vector | ∃ row ∈ rows, rowVector q columns row = vector }
      = ((rows.map (rowVector q columns)).toFinset : Set (Fin columns → ZMod q)) := by
    ext vector
    simp
  calc Module.finrank (ZMod q) (rowSpan q columns rows)
      ≤ (rows.map (rowVector q columns)).toFinset.card := by
        rw [rowSpan, listed]
        exact finrank_span_finset_le_card _
    _ ≤ rows.length := by
        rw [← List.length_map (rowVector q columns)]
        exact List.toFinset_card_le _

theorem finrank_rowSpan_between_le [Fact q.Prime] (before between after : List (List Nat)) :
    Module.finrank (ZMod q) (rowSpan q columns (before ++ between ++ after))
      ≤ Module.finrank (ZMod q) (rowSpan q columns (before ++ after)) + between.length := by
  have spaces : rowSpan q columns (before ++ between ++ after)
      = rowSpan q columns (before ++ after) ⊔ rowSpan q columns between := by
    rw [rowSpan_append, rowSpan_append, rowSpan_append, sup_right_comm]
  rw [spaces]
  exact (Submodule.finrank_add_le_finrank_add_finrank _ _).trans
    (Nat.add_le_add_left (finrank_rowSpan_le between) _)

theorem rank_toMatrix [Fact q.Prime] (rows : List (List Nat)) :
    (toMatrix q columns rows).rank = Module.finrank (ZMod q) (rowSpan q columns rows) := by
  have listed : Set.range (toMatrix q columns rows).row
      = { vector | ∃ row ∈ rows, rowVector q columns row = vector } := by
    ext vector
    constructor
    · rintro ⟨position, rfl⟩
      exact ⟨_, List.get_mem rows position, rfl⟩
    · rintro ⟨row, member, rfl⟩
      obtain ⟨position, rfl⟩ := List.get_of_mem member
      exact ⟨position, rfl⟩
  rw [Matrix.rank_eq_finrank_span_row, listed, rowSpan]

/-! ## From the modulus to a divisor of it -/

theorem Equation.coefficient_cast (divides : q ∣ m) (equation : Equation) (column : Nat) :
    ZMod.castHom divides (ZMod q) (equation.coefficient m column)
      = equation.coefficient q column :=
  map_natCast _ _

namespace LinearSystem

variable {start finish system : LinearSystem}

theorem Echelon.of_dvd (divides : q ∣ m) {bound : Nat} (echelon : system.Echelon m bound) :
    system.Echelon q bound where
  columns_lt := echelon.columns_lt
  increasing := echelon.increasing
  pivot_one := by
    intro owned member
    rw [← Equation.coefficient_cast divides, echelon.pivot_one owned member, map_one]
  solved_zero := by
    intro owned member other otherMember different
    rw [← Equation.coefficient_cast divides,
      echelon.solved_zero owned member other otherMember different, map_zero]
  pending_zero := by
    intro owned member equation pending
    rw [← Equation.coefficient_cast divides, echelon.pending_zero owned member equation pending,
      map_zero]

theorem cast_mem_rowSpace (divides : q ∣ m) {row : Fin columns → ZMod m}
    (member : row ∈ system.rowSpace m columns) :
    (fun column => ZMod.castHom divides (ZMod q) (row column)) ∈ system.rowSpace q columns := by
  induction member using Submodule.span_induction with
  | mem row present =>
      obtain ⟨equation, inside, rfl⟩ := present
      apply Submodule.subset_span
      exact ⟨equation, inside, funext fun column => (equation.coefficient_cast divides column).symm⟩
  | zero =>
      simp only [Pi.zero_apply, map_zero]
      exact Submodule.zero_mem _
  | add left right _ _ leftCast rightCast =>
      simp only [Pi.add_apply, map_add]
      exact Submodule.add_mem _ leftCast rightCast
  | smul factor row _ cast =>
      simp only [Pi.smul_apply, smul_eq_mul, map_mul]
      exact Submodule.smul_mem _ (ZMod.castHom divides (ZMod q) factor) cast

theorem rowSpace_le_of_dvd (divides : q ∣ m)
    (inside : start.rowSpace m columns ≤ finish.rowSpace m columns) :
    start.rowSpace q columns ≤ finish.rowSpace q columns := by
  apply Submodule.span_le.mpr
  rintro row ⟨equation, member, rfl⟩
  have cast : equation.vector q columns
      = fun column => ZMod.castHom divides (ZMod q) (equation.vector m columns column) :=
    funext fun column => (equation.coefficient_cast divides column).symm
  rw [cast]
  exact cast_mem_rowSpace divides (inside (Submodule.subset_span ⟨equation, member, rfl⟩))

theorem Progress.rowSpace_of_dvd (divides : q ∣ m) (fresh : start.Fresh m columns)
    (progress : Progress m columns columns start finish) :
    finish.rowSpace q columns = start.rowSpace q columns := by
  have same := progress.equivalent.rowSpace_eq progress.sized fresh.sized
  exact le_antisymm (rowSpace_le_of_dvd divides (le_of_eq same))
    (rowSpace_le_of_dvd divides (le_of_eq same.symm))

theorem vector_reducedEquation (divides : q ∣ m) (row : List Nat) (side : Nat) :
    (reducedEquation m row side).vector q columns = rowVector q columns row := by
  have residue : ∀ entry : Nat, ((entry % m : Nat) : ZMod q) = entry := by
    intro entry
    rw [ZMod.natCast_eq_natCast_iff']
    exact Nat.mod_mod_of_dvd entry divides
  funext column
  rcases Nat.lt_or_ge (column : Nat) row.length with inside | outside
  · simp [Equation.vector, Equation.coefficient, rowVector, reducedEquation, inside, residue]
  · simp [Equation.vector, Equation.coefficient, rowVector, reducedEquation, outside]

theorem rowSpace_eq_rowSpan (divides : q ∣ m) {rows : List (List Nat)} {sides : List Nat}
    (lengths : rows.length = sides.length) (solvedNil : start.solved = [])
    (pending : start.pending = (rows.zip sides).map fun pair => reducedEquation m pair.1 pair.2) :
    start.rowSpace q columns = rowSpan q columns rows := by
  rw [rowSpace, rowSpan, equations, solvedNil, pending, List.map_nil, List.nil_append]
  congr 1
  ext found
  constructor
  · rintro ⟨_, member, rfl⟩
    obtain ⟨⟨row, side⟩, present, rfl⟩ := List.mem_map.mp member
    exact ⟨row, (List.of_mem_zip present).1, (vector_reducedEquation divides row side).symm⟩
  · rintro ⟨row, member, rfl⟩
    rw [← List.map_fst_zip (Nat.le_of_eq lengths)] at member
    obtain ⟨pair, present, rfl⟩ := List.mem_map.mp member
    exact ⟨_, List.mem_map_of_mem present, vector_reducedEquation divides pair.1 pair.2⟩

/-! ## Pivots against the rank over the field -/

theorem coefficient_eq_zero_of_power (prime : q.Prime) {exponent : Nat} {equation : Equation}
    {column : Nat} (useless : ¬ equation.Usable (q ^ exponent) column) :
    equation.coefficient q column = 0 := by
  rw [Equation.coefficient, ZMod.natCast_eq_zero_iff]
  -- A number prime to `q` is a unit modulo its powers.
  by_contra foreign
  have coprime : Nat.Coprime (equation.entries.getD column 0) q :=
    ((Nat.Prime.coprime_iff_not_dvd prime).mpr foreign).symm
  refine useless ⟨?_, coprime.pow_right exponent⟩
  intro zero
  rw [zero] at foreign
  exact foreign (dvd_zero q)

theorem Exhausted.processColumn (prime : q.Prime) {exponent : Nat} (power : m = q ^ exponent)
    [NeZero m] (fits : m < Word.long) (divides : q ∣ m) (sized : system.Sized m columns)
    {column : Nat} (inside : column < columns) {next : LinearSystem}
    (step : system.processColumn column = .ok next) (exhausted : system.Exhausted q column) :
    next.Exhausted q (column + 1) := by
  rcases processColumn_cases fits sized inside with
    ⟨run, _, useless⟩ | ⟨chosen, others, run, _, usable, same⟩
  · cases step.symm.trans run
    intro equation member other below
    rcases Nat.lt_succ_iff_lt_or_eq.mp below with before | rfl
    · exact exhausted equation member other before
    · subst power
      exact coefficient_eq_zero_of_power prime (useless equation member)
  · cases step.symm.trans run
    intro equation member other below
    obtain ⟨kept, inOthers, rfl⟩ := List.mem_map.mp member
    have keptPending : kept ∈ system.pending := same.subset (List.mem_cons_of_mem _ inOthers)
    have chosenPending : chosen ∈ system.pending := same.subset (List.mem_cons_self ..)
    have pivotFits := (sized.pending chosen chosenPending).scaled (chosen.coefficient m column)⁻¹
    rw [← Equation.coefficient_cast divides, clearedBy,
      Equation.coefficient_minus _ (sized.pending kept keptPending) pivotFits]
    rcases Nat.lt_succ_iff_lt_or_eq.mp below with before | rfl
    · -- Both the kept equation and the pivot were zero modulo `q` before this column.
      simp only [Equation.coefficient_scaled, map_sub, map_mul, Equation.coefficient_cast,
        exhausted kept keptPending other before, exhausted chosen chosenPending other before,
        zero_mul, mul_zero, sub_zero]
    · rw [coefficient_scaled_inv usable, mul_one, sub_self, map_zero]

theorem Fresh.exhausted (prime : q.Prime) {exponent : Nat} (power : m = q ^ exponent) [NeZero m]
    (fits : m < Word.long) (divides : q ∣ m) (fresh : start.Fresh m columns) {bound : Nat}
    (inside : bound ≤ columns)
    (run : (List.range bound).foldlM LinearSystem.processColumn start = .ok finish) :
    finish.Exhausted q bound := by
  induction bound generalizing finish with
  | zero => exact fun _ _ _ below => absurd below (Nat.not_lt_zero _)
  | succ bound ih =>
      obtain ⟨current, before, _, progress⟩ :=
        fresh.initial.run fits (Nat.le_of_succ_le inside)
      rw [List.range_succ, List.foldlM_append, before, Outcome.ok_bind, List.foldlM_cons] at run
      obtain ⟨next, step, run⟩ := Outcome.bind_eq_ok run
      cases run
      exact (ih (Nat.le_of_succ_le inside) before).processColumn prime power fits divides
        progress.sized inside step

theorem Elimination.exhausted [NeZero m] (fits : m < Word.long) (divides : q ∣ m) (prime : q.Prime)
    {exponent : Nat} (power : m = q ^ exponent) {rows : List (List Nat)} {sides : List Nat}
    (elimination : Elimination m columns rows sides start finish) :
    finish.Exhausted q columns := by
  have run := elimination.run
  rw [eliminate, elimination.fresh.not_reduced, if_neg Bool.false_ne_true,
    elimination.fresh.sized.columns_eq] at run
  obtain ⟨reached, folded, run⟩ := Outcome.bind_eq_ok run
  cases run
  show reached.Exhausted q columns
  exact elimination.fresh.exhausted prime power fits divides (Nat.le_refl columns) folded

theorem matrixRank_prime_divisor [NeZero m] [Fact q.Prime] (fits : m < Word.long)
    (divides : q ∣ m) {rows : List (List Nat)} (wide : width rows = columns)
    (rectangular : ∀ row ∈ rows, row.length = columns) :
    ∃ rank, matrixRank rows m = .ok rank ∧
      rank ≤ Module.finrank (ZMod q) (rowSpan q columns rows) ∧
      ∀ exponent, m = q ^ exponent →
        rank = Module.finrank (ZMod q) (rowSpan q columns rows) := by
  have lengths : rows.length = (List.replicate rows.length 0).length := by simp
  obtain ⟨start, finish, elimination⟩ := elimination_spec fits wide rectangular lengths
  have spaces : finish.rowSpace q columns = rowSpan q columns rows := by
    rw [elimination.progress.rowSpace_of_dvd divides elimination.fresh,
      rowSpace_eq_rowSpan divides lengths elimination.fresh.solved_nil elimination.pending_eq]
  have pivots := (elimination.progress.echelon.of_dvd divides).finrank_pivots
  refine ⟨finish.rank, elimination.matrixRank_eq, ?_, ?_⟩
  · rw [← pivots, ← spaces]
    exact Submodule.finrank_mono (span_pivotRow_le finish)
  · intro exponent power
    rw [← pivots, ← spaces, (elimination.exhausted fits divides Fact.out power).rowSpace_eq]

theorem matrixRank_eq_rank [Fact m.Prime] (fits : m < Word.long) {rows : List (List Nat)}
    (wide : width rows = columns) (rectangular : ∀ row ∈ rows, row.length = columns) :
    matrixRank rows m = .ok (toMatrix m columns rows).rank := by
  obtain ⟨rank, ranked, _, attained⟩ := matrixRank_prime_divisor fits (dvd_refl m) wide rectangular
  rw [ranked, attained 1 (pow_one m).symm, rank_toMatrix]

/-- Elimination never finds more unit pivots than the rank of the matrix over a field of `q`
elements, for `q` a prime divisor of the modulus, and finds that many if the modulus is a power of
`q`, in particular if it is prime itself. -/
theorem matrixRank_le_rank_mod_prime (proper : 2 ≤ m) (fits : m < Word.long) (prime : q.Prime)
    (divides : q ∣ m) {rows : List (List Nat)}
    (rectangular : ∀ row ∈ rows, ∀ other ∈ rows, row.length = other.length) :
    ∃ rank, matrixRank rows m = .ok rank ∧
      rank ≤ (toMatrix q (width rows) rows).rank ∧
      ((∃ exponent, m = q ^ exponent) → rank = (toMatrix q (width rows) rows).rank) ∧
      (m.Prime → rank = (toMatrix m (width rows) rows).rank) := by
  have : NeZero m := ⟨by omega⟩
  have : Fact q.Prime := ⟨prime⟩
  have even := length_eq_width rectangular
  obtain ⟨rank, ranked, bound, attained⟩ := matrixRank_prime_divisor fits divides rfl even
  refine ⟨rank, ranked, ?_, ?_, ?_⟩
  · rw [rank_toMatrix]
    exact bound
  · rintro ⟨exponent, power⟩
    rw [rank_toMatrix]
    exact attained exponent power
  · intro field
    have : Fact m.Prime := ⟨field⟩
    exact Except.ok.inj (ranked.symm.trans (matrixRank_eq_rank fits rfl even))

/-- Modulo eight two of the four entries are units, both in one column, and the rank is that modulo
two. Modulo six neither two nor three is a unit, and both fields have a rank that elimination does
not see. -/
theorem matrixRank_le_rank_mod_prime_zero_divisors :
    (matrixRank [[2, 1], [4, 3]] 8 = .ok 1 ∧ (toMatrix 2 2 [[2, 1], [4, 3]]).rank = 1) ∧
    (matrixRank [[1, 4, 1], [0, 2, 0], [0, 0, 3]] 6 = .ok 1 ∧
      1 ≤ (toMatrix 3 3 [[1, 4, 1], [0, 2, 0], [0, 0, 3]]).rank) := by
  have power : matrixRank [[2, 1], [4, 3]] 8 = .ok 1 := by decide +kernel
  have composite : matrixRank [[1, 4, 1], [0, 2, 0], [0, 0, 3]] 6 = .ok 1 := by decide +kernel
  obtain ⟨_, ranked, _, attained, _⟩ := @matrixRank_le_rank_mod_prime 8 2 (by decide) (by decide)
    Nat.prime_two (by decide) [[2, 1], [4, 3]] (by decide)
  cases power.symm.trans ranked
  obtain ⟨_, ranked', bound, _⟩ := @matrixRank_le_rank_mod_prime 6 3 (by decide) (by decide)
    Nat.prime_three (by decide) [[1, 4, 1], [0, 2, 0], [0, 0, 3]] (by decide)
  cases composite.symm.trans ranked'
  exact ⟨⟨power, (attained ⟨3, rfl⟩).symm⟩, composite, bound⟩

end LinearSystem

end ResidueAlgebra
