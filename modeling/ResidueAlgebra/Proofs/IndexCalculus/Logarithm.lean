import Mathlib.Algebra.Module.ZMod
import Mathlib.FieldTheory.Finite.Basic
import ResidueAlgebra.IndexCalculus.Solver
import ResidueAlgebra.Proofs.IndexCalculus.Admission
import ResidueAlgebra.Proofs.Linear.Solution
import ResidueAlgebra.Proofs.Prime.Smooth

/-!
# Logarithms from relations

The nonzero residues modulo a prime `n`, written additively, are a module over `ZMod (n - 1)` by
Fermat's theorem, and a relation is a linear equation between base primes in that module. A full
system of genuine relations therefore determines every prime of the base as a power of the
generator, whether or not the generator has full order; and it has no column of zeros, so every
prime of the base is below `n`.
-/
set_option autoImplicit false
namespace ResidueAlgebra

variable {n g : Nat} [Fact n.Prime]

/-! ## Exponents modulo `n - 1` -/

instance predNeZero : NeZero (n - 1) :=
  ⟨Nat.sub_ne_zero_of_lt (Fact.out : n.Prime).one_lt⟩

theorem pow_residue_val {base : ZMod n} (nonzero : base ≠ 0) (exponent : Nat) :
    base ^ (exponent : ZMod (n - 1)).val = base ^ exponent := by
  rw [ZMod.val_natCast]
  nth_rewrite 2 [← Nat.div_add_mod exponent (n - 1)]
  rw [pow_add, pow_mul, ZMod.pow_card_sub_one_eq_one nonzero, one_pow, one_mul]

theorem pow_val_add {base : ZMod n} (nonzero : base ≠ 0) (left right : ZMod (n - 1)) :
    base ^ (left + right).val = base ^ left.val * base ^ right.val := by
  rw [← pow_add, ← pow_residue_val nonzero (left.val + right.val), Nat.cast_add,
    ZMod.natCast_zmod_val, ZMod.natCast_zmod_val]

theorem pow_val_sum {base : ZMod n} (nonzero : base ≠ 0) (terms : List (ZMod (n - 1))) :
    base ^ terms.sum.val = (terms.map fun term => base ^ term.val).prod := by
  induction terms with
  | nil => simp
  | cons term rest ih =>
      rw [List.sum_cons, pow_val_add nonzero, ih, List.map_cons, List.prod_cons]

theorem natCast_ne_zero_of_lt {value : Nat} (positive : value ≠ 0) (below : value < n) :
    (value : ZMod n) ≠ 0 := by
  intro zero
  exact positive (Nat.eq_zero_of_dvd_of_lt ((ZMod.natCast_eq_zero_iff value n).mp zero) below)

/-! ## Units as a module -/

instance unitsModule : Module (ZMod (n - 1)) (Additive (ZMod n)ˣ) :=
  AddCommGroup.zmodModule fun unit => by
    rw [← ofMul_toMul unit, ← ofMul_pow, ZMod.units_pow_card_sub_one_eq_one, ofMul_one]

theorem natCast_smul_ofMul (exponent : Nat) (unit : (ZMod n)ˣ) :
    (exponent : ZMod (n - 1)) • Additive.ofMul unit = Additive.ofMul (unit ^ exponent) := by
  simp [Nat.cast_smul_eq_nsmul]

/-- The residue of a number as a unit; one in place of zero. -/
def unitOf (n : Nat) [Fact n.Prime] (value : Nat) : (ZMod n)ˣ :=
  if nonzero : (value : ZMod n) ≠ 0 then Units.mk0 (value : ZMod n) nonzero else 1

theorem unitOf_val {value : Nat} (nonzero : (value : ZMod n) ≠ 0) :
    ((unitOf n value : (ZMod n)ˣ) : ZMod n) = value := by
  simp [unitOf, dif_pos nonzero]

theorem sum_row_eq (exponent : Nat → Nat) (unit : Nat → (ZMod n)ˣ) (primes : List Nat) :
    ∑ column ∈ Finset.range primes.length,
        (((primes.map exponent).getD column 0 : Nat) : ZMod (n - 1)) •
          Additive.ofMul (unit (primes.getD column 0))
      = Additive.ofMul (primes.map fun q => unit q ^ exponent q).prod := by
  induction primes with
  | nil => simp
  | cons q primes ih =>
      rw [List.length_cons, Finset.sum_range_succ']
      simp only [List.map_cons, List.getD_cons_succ, List.getD_cons_zero]
      rw [ih, natCast_smul_ofMul, List.prod_cons, ofMul_mul, add_comm]

/-! ## Genuine relations -/

/-- The value of the relation is the power it stands for, reduced and completely factored. -/
structure Relation.Genuine (g n : Nat) (relation : Relation) : Prop where
  value_eq : (relation.value : ZMod n) = (g : ZMod n) ^ relation.exponent
  nonzero : relation.value ≠ 0
  below : relation.value < n
  complete : relation.factorization.Of relation.value

omit [Fact n.Prime] in
theorem Relation.Genuine.exponent_lt {relation : Relation} (genuine : relation.Genuine g n)
    (fits : n < Word.long) (q : Nat) : relation.factorization.exponent q < Word.long := by
  rw [genuine.complete.exponent_eq]
  have valueFits := Nat.lt_trans genuine.below fits
  have short := TrialDivision.factorization_lt_short genuine.nonzero valueFits q
  exact Nat.lt_trans short (by decide)

/-- In the group of units a relation that splits is a linear equation between the base primes. -/
theorem Relation.Genuine.holds {relation : Relation} (genuine : relation.Genuine g n)
    (nonzero : (g : ZMod n) ≠ 0) {base : FactorBase} (valid : base.Valid)
    (splits : base.splits relation.factorization = true) :
    (Equation.mk (relation.exponentVector base) relation.exponent).Holds (m := n - 1)
      (fun column => Additive.ofMul (unitOf n (base.primes.getD column 0)))
      (Additive.ofMul (unitOf n g)) := by
  have valueNonzero := natCast_ne_zero_of_lt genuine.nonzero genuine.below
  -- A base prime that does not divide the value may be zero modulo `n`, but then its power is one.
  have power : ∀ q ∈ base.primes,
      ((unitOf n q ^ relation.factorization.exponent q : (ZMod n)ˣ) : ZMod n)
        = ((q ^ relation.factorization.exponent q : Nat) : ZMod n) := by
    intro q _
    rw [genuine.complete.exponent_eq, Units.val_pow_eq_pow_val, Nat.cast_pow]
    by_cases divides : q ∣ relation.value
    · have primeNonzero : (q : ZMod n) ≠ 0 := by
        intro zero
        obtain ⟨cofactor, split⟩ := divides
        rw [split, Nat.cast_mul, zero, zero_mul] at valueNonzero
        exact valueNonzero rfl
      rw [unitOf_val primeNonzero]
    · simp [Nat.factorization_eq_zero_of_not_dvd divides]
  have powers : (base.primes.map fun q => unitOf n q ^ relation.factorization.exponent q).prod
      = unitOf n g ^ relation.exponent := by
    apply Units.ext
    calc (((base.primes.map fun q => unitOf n q ^ relation.factorization.exponent q).prod
          : (ZMod n)ˣ) : ZMod n)
        = (base.primes.map fun q =>
            ((q ^ relation.factorization.exponent q : Nat) : ZMod n)).prod := by
          rw [← Units.coeHom_apply, map_list_prod, List.map_map]
          exact congrArg List.prod (List.map_congr_left power)
      _ = ((base.primes.map fun q => q ^ relation.factorization.exponent q).prod : Nat) := by
          rw [Nat.cast_list_prod, List.map_map]
          rfl
      _ = (relation.value : ZMod n) := by
          rw [genuine.complete.prod_base genuine.nonzero valid splits]
      _ = ((unitOf n g ^ relation.exponent : (ZMod n)ˣ) : ZMod n) := by
          simp [unitOf_val nonzero, genuine.value_eq]
  rw [Equation.Holds]
  simp only [Relation.exponentVector, FactorBase.exponentVector, Equation.coefficient,
    List.length_map]
  rw [sum_row_eq relation.factorization.exponent (unitOf n), powers, natCast_smul_ofMul]

/-! ## Full systems -/

/-- What holds of a system while relations for the powers of `g` modulo `n` are gathered. -/
structure RelationSystem.Gathered (base : FactorBase) (g n : Nat) (system : RelationSystem) :
    Prop where
  coherent : system.Coherent
  base_eq : system.base = base
  modulus_eq : system.modulus = n - 1
  genuine : ∀ relation ∈ system.relations, relation.Genuine g n

/-- One reduced logarithm to the base `g` modulo `n` for each prime of the factor base. -/
structure FactorBase.Logs (base : FactorBase) (g n : Nat) (logs : List Nat) : Prop where
  length_eq : logs.length = base.primes.length
  below : ∀ log ∈ logs, log < n - 1
  primes_lt : ∀ q ∈ base.primes, q < n
  power_eq : ∀ pair ∈ base.primes.zip logs, (g : ZMod n) ^ pair.2 = (pair.1 : ZMod n)

namespace RelationSystem.Gathered

variable {base : FactorBase} {system : RelationSystem}

omit [Fact n.Prime] in
theorem entries_lt (gathered : system.Gathered base g n) (fits : n < Word.long) :
    ∀ row ∈ system.matrix, ∀ entry ∈ row, entry < Word.long := by
  intro row inMatrix entry inRow
  rw [gathered.coherent.matrix_eq] at inMatrix
  obtain ⟨relation, member, rfl⟩ := List.mem_map.mp inMatrix
  obtain ⟨q, _, rfl⟩ := List.mem_map.mp inRow
  exact (gathered.genuine relation member).exponent_lt fits q

omit [Fact n.Prime] in
theorem solve_full (gathered : system.Gathered base g n) (valid : base.Valid) (three : 3 ≤ n)
    (fits : n < Word.long) (full : system.isFull = true) :
    ∃ logs, LinearSystem.solve system.matrix system.sides (n - 1) = .ok logs ∧
      logs.length = base.size ∧ (∀ log ∈ logs, log < n - 1) ∧
      ∀ (M : Type) [AddCommGroup M] [Module (ZMod (n - 1)) M] (unknowns : Nat → M) (unit : M),
        (∀ relation ∈ system.relations,
          (Equation.mk (relation.exponentVector base) relation.exponent).Holds (m := n - 1)
            unknowns unit) →
        ∀ column < base.size,
          unknowns column = ((logs.getD column 0 : Nat) : ZMod (n - 1)) • unit := by
  have coherent := gathered.coherent
  have rankFull : system.rank = base.size := by
    rw [← gathered.base_eq]
    exact eq_of_beq full
  have square : system.matrix.length = base.size := by
    simp [coherent.matrix_eq, ← coherent.rank_eq, rankFull]
  have nonempty : system.matrix ≠ [] := by
    rw [← List.length_pos_iff_ne_nil, square]
    exact List.length_pos_iff_ne_nil.mpr valid.nonempty
  have lengths : system.matrix.length = system.sides.length := by
    simp [coherent.matrix_eq, sides]
  have counted : matrixRank system.matrix (n - 1) = .ok base.size := by
    rw [← gathered.modulus_eq, ← rankFull]
    exact coherent.counted
  have rectangular : ∀ row ∈ system.matrix, row.length = base.size := by
    rw [← gathered.base_eq]
    exact coherent.rectangular
  have pairs : system.matrix.zip system.sides
      = system.relations.map fun relation => (relation.exponentVector base, relation.exponent) := by
    simp [coherent.matrix_eq, sides, List.zip_map', gathered.base_eq]
  have : NeZero (n - 1) := ⟨by omega⟩
  obtain ⟨logs, solved, length, below, determined⟩ :=
    LinearSystem.solve_of_full_rank (by omega) nonempty rectangular
      (gathered.entries_lt fits) square lengths counted
  refine ⟨logs, solved, length, below, ?_⟩
  intro M _ _ unknowns unit holds
  apply determined M unknowns unit
  rw [pairs, List.forall_mem_map]
  exact holds

omit [Fact n.Prime] in
/-- A prime at least `n` divides no value, so its column would be zero and the unknown free. -/
theorem primes_lt (gathered : system.Gathered base g n) (valid : base.Valid) (three : 3 ≤ n)
    (fits : n < Word.long) (full : system.isFull = true) : ∀ q ∈ base.primes, q < n := by
  intro q member
  by_contra large
  obtain ⟨column, inside, rfl⟩ := List.mem_iff_getElem.mp member
  obtain ⟨logs, _, _, _, determined⟩ := gathered.solve_full valid three fits full
  have : Fact (1 < n - 1) := ⟨by omega⟩
  have holds : ∀ relation ∈ system.relations,
      (Equation.mk (relation.exponentVector base) relation.exponent).Holds (m := n - 1)
        (fun other => if other = column then (1 : ZMod (n - 1)) else 0) 0 := by
    intro relation present
    have genuine := gathered.genuine relation present
    have zero : relation.factorization.exponent base.primes[column] = 0 := by
      rw [genuine.complete.exponent_eq]
      apply Nat.factorization_eq_zero_of_not_dvd
      intro divides
      have atMost := Nat.le_of_dvd (Nat.pos_of_ne_zero genuine.nonzero) divides
      have below := genuine.below
      omega
    rw [Equation.Holds, smul_zero]
    apply Finset.sum_eq_zero
    intro other _
    by_cases same : other = column
    · subst same
      simp [Equation.coefficient, Relation.exponentVector, FactorBase.exponentVector, inside, zero]
    · simp [same]
  have unknown := determined (ZMod (n - 1)) _ 0 holds column inside
  rw [if_pos rfl, smul_zero] at unknown
  exact one_ne_zero unknown

theorem solve_logs (gathered : system.Gathered base g n) (valid : base.Valid) (three : 3 ≤ n)
    (fits : n < Word.long) (nonzero : (g : ZMod n) ≠ 0) (full : system.isFull = true) :
    ∃ logs, LinearSystem.solve system.matrix system.sides system.modulus = .ok logs ∧
      base.Logs g n logs := by
  have primesLt := gathered.primes_lt valid three fits full
  obtain ⟨logs, solved, length, below, determined⟩ := gathered.solve_full valid three fits full
  rw [gathered.modulus_eq]
  refine ⟨logs, solved, length, below, primesLt, ?_⟩
  intro pair member
  obtain ⟨column, inZip, rfl⟩ := List.mem_iff_getElem.mp member
  have inside : column < base.primes.length := Nat.lt_of_lt_of_le inZip (by simp)
  have inLogs : column < logs.length := length ▸ inside
  have splits : ∀ relation ∈ system.relations, base.splits relation.factorization = true := by
    intro relation present
    have smooth := gathered.coherent.smooth relation present
    rw [Relation.isSmooth, Bool.and_eq_true, gathered.base_eq] at smooth
    exact smooth.2
  have unknown := determined (Additive (ZMod n)ˣ) _ _
    (fun relation present => (gathered.genuine relation present).holds nonzero valid
      (splits relation present)) column inside
  rw [natCast_smul_ofMul, List.getD_eq_getElem _ _ inside, List.getD_eq_getElem _ _ inLogs]
    at unknown
  have present : base.primes[column] ∈ base.primes := List.getElem_mem inside
  have primeNonzero : ((base.primes[column] : Nat) : ZMod n) ≠ 0 :=
    natCast_ne_zero_of_lt (valid.prime _ present).ne_zero (primesLt _ present)
  have powers := congrArg Units.val (Additive.ofMul.injective unknown)
  rw [Units.val_pow_eq_pow_val, unitOf_val nonzero, unitOf_val primeNonzero] at powers
  rw [List.getElem_zip]
  exact powers.symm

end RelationSystem.Gathered

end ResidueAlgebra
