import ResidueAlgebra.Proofs.IndexCalculus.Bounds
import ResidueAlgebra.Proofs.Linear.UnitPivots
import ResidueAlgebra.Proofs.Prime.Factor

/-!
# The search for relations over small bases

Over a base of one or two primes no relation that was admitted blocks the later ones: as long as the
system is not full, one of the primes itself would still be admitted as a value. A search through all
powers of the generator therefore ends with a full system exactly when every prime of the base is
one of these powers, whatever the zero divisors modulo `n - 1` are.
-/
set_option autoImplicit false
namespace ResidueAlgebra

open Traced

variable {n g : Nat}

namespace RelationSystem

/-! ## Primes that would be admitted -/

/-- A relation with this prime as its value would be admitted. -/
structure Admits (system : RelationSystem) (q : Nat) : Prop where
  member : q ∈ system.base.primes
  fresh : q ∉ system.relations.map Relation.value
  raises : ∃ rank, matrixRank
      (system.matrix ++ [system.base.exponentVector (Factorization.single q)]) system.modulus
        = .ok rank ∧ system.rank < rank

theorem Admits.offer {system : RelationSystem} {q : Nat} (admits : system.Admits q) (k : Nat) :
    ∃ grown, system.offer ⟨q, k, Factorization.single q⟩ = .ok (.accepted, grown) := by
  obtain ⟨rank, ranked, above⟩ := admits.raises
  have smooth : (Relation.mk q k (Factorization.single q)).isSmooth system.base = true := by
    have contained := admits.member
    simp [Relation.isSmooth, Factorization.isEmpty, FactorBase.splits, Factorization.primes,
      Factorization.single, FactorBase.contains, contained]
  have unknown : ¬ system.containsValue q = true := by
    have fresh := admits.fresh
    simpa [containsValue] using fresh
  rw [RelationSystem.offer, smooth, if_neg (by decide), if_neg unknown]
  dsimp only
  rw [Relation.exponentVector, ranked, Outcome.ok_bind, if_neg (Nat.not_le.mpr above)]
  exact ⟨_, rfl⟩

theorem Coherent.admits_of_rank_zero {system : RelationSystem} (coherent : system.Coherent)
    (proper : 1 < system.modulus) (fits : system.modulus < Word.long) (none : system.rank = 0)
    {q : Nat} (member : q ∈ system.base.primes) : system.Admits q := by
  have : NeZero system.modulus := ⟨by omega⟩
  have nil : system.relations = [] := by
    rw [← List.length_eq_zero_iff, ← coherent.rank_eq, none]
  have rectangular : ∀ row ∈ [system.base.exponentVector (Factorization.single q)],
      row.length = system.base.size := by
    simp [FactorBase.exponentVector, FactorBase.size]
  have wide := LinearSystem.width_eq (List.cons_ne_nil _ _) rectangular
  obtain ⟨rank, ranked, _⟩ := LinearSystem.matrixRank_spec fits (List.cons_ne_nil _ _) rectangular
  refine ⟨member, by simp [nil], rank, ?_, ?_⟩
  · rw [coherent.matrix_eq, nil, List.map_nil, List.nil_append, ranked]
  · rw [none, Nat.pos_iff_ne_zero]
    rintro rfl
    obtain ⟨index, inside, _, same⟩ := FactorBase.indexOf_of_mem member
    have useless := (LinearSystem.matrixRank_eq_zero_iff fits proper wide rectangular).mp ranked _
      (List.mem_singleton_self _) index inside
    simp [FactorBase.exponentVector, inside, same, Factorization.exponent_single] at useless

theorem Coherent.matrix_of_pair {system : RelationSystem} (coherent : system.Coherent) {p q : Nat}
    (primes : system.base.primes = [p, q]) {relation : Relation}
    (only : system.relations = [relation]) :
    system.matrix
        = [[relation.factorization.exponent p, relation.factorization.exponent q]] ∧
      ∀ value, system.matrix ++ [system.base.exponentVector (Factorization.single value)]
        = [[relation.factorization.exponent p, relation.factorization.exponent q],
          [if value = p then 1 else 0, if value = q then 1 else 0]] := by
  have matrix : system.matrix
      = [[relation.factorization.exponent p, relation.factorization.exponent q]] := by
    rw [coherent.matrix_eq, only, List.map_singleton, Relation.exponentVector,
      FactorBase.exponentVector, primes]
    rfl
  refine ⟨matrix, fun value => ?_⟩
  rw [matrix, FactorBase.exponentVector, primes, List.map_cons, List.map_singleton,
    Factorization.exponent_single, Factorization.exponent_single]
  rfl

/-- One relation over two primes has a unit among its exponents, and the other prime has room for a
second pivot. -/
theorem Gathered.admits_of_rank_one {base : FactorBase} {system : RelationSystem}
    (gathered : system.Gathered base g n) (valid : base.Valid) (three : 3 ≤ n)
    (fits : n < Word.long) (pair : base.size = 2) (one : system.rank = 1) :
    ∃ q, system.Admits q := by
  have coherent := gathered.coherent
  have modulus := gathered.modulus_eq
  have : NeZero system.modulus := ⟨by omega⟩
  have proper : 1 < system.modulus := by omega
  have small : system.modulus < Word.long := by omega
  have : Fact (1 < system.modulus) := ⟨proper⟩
  have validHere : system.base.Valid := gathered.base_eq ▸ valid
  rw [← gathered.base_eq] at pair
  obtain ⟨p, q, primes⟩ := List.length_eq_two.mp pair
  obtain ⟨relation, only⟩ := List.length_eq_one_iff.mp (coherent.rank_eq.symm.trans one)
  obtain ⟨matrix, extended⟩ := coherent.matrix_of_pair primes only
  have distinct : p ≠ q := by
    have increasing := validHere.increasing
    rw [primes] at increasing
    exact Nat.ne_of_lt (List.rel_of_pairwise_cons increasing (List.mem_singleton_self q))
  have known : ∀ value ∈ system.base.primes, value ∈ system.relations.map Relation.value →
      relation.factorization = Factorization.single value := by
    intro value member found
    have genuine := gathered.genuine relation (by simp [only])
    rw [only, List.map_singleton, List.mem_singleton] at found
    subst found
    exact genuine.complete.unique (Factorization.single_of (validHere.prime _ member))
  have counted := coherent.counted
  rw [matrix, one] at counted
  by_cases first : IsUnit ((relation.factorization.exponent p : Nat) : ZMod system.modulus)
  · have member : q ∈ system.base.primes := by simp [primes]
    refine ⟨q, member, fun found => ?_, 2, ?_, by omega⟩
    · rw [known q member found, Factorization.exponent_single, if_neg distinct.symm,
        Nat.cast_zero] at first
      exact not_isUnit_zero first
    · rw [extended, if_neg distinct.symm, if_pos rfl]
      exact LinearSystem.matrixRank_pair small proper (Or.inl first) (by simpa using first)
  · have second := (LinearSystem.isUnit_of_matrixRank_row small proper counted).resolve_left first
    have member : p ∈ system.base.primes := by simp [primes]
    refine ⟨p, member, fun found => first ?_, 2, ?_, by omega⟩
    · rw [known p member found, Factorization.exponent_single, if_pos rfl, Nat.cast_one]
      exact isUnit_one
    · rw [extended, if_pos rfl, if_neg distinct]
      exact LinearSystem.matrixRank_pair small proper (Or.inr (by simp)) (by simpa using second)

theorem Gathered.exists_admits {base : FactorBase} {system : RelationSystem}
    (gathered : system.Gathered base g n) (valid : base.Valid) (three : 3 ≤ n)
    (fits : n < Word.long) (small : base.size ≤ 2) (unfinished : system.isFull = false) :
    ∃ q, system.Admits q := by
  have modulus := gathered.modulus_eq
  have bounded := gathered.coherent.rank_le
  have short : system.rank ≠ system.base.size := by simpa [isFull] using unfinished
  rw [gathered.base_eq] at bounded short
  rcases Nat.eq_zero_or_pos system.rank with none | positive
  · obtain ⟨q, member⟩ := List.exists_mem_of_ne_nil _ valid.nonempty
    rw [← gathered.base_eq] at member
    exact ⟨q, gathered.coherent.admits_of_rank_zero (by omega) (by omega) none member⟩
  · exact gathered.admits_of_rank_one valid three fits (by omega) (by omega)

/-! ## Powers still to be tried -/

/-- Every prime that the system would admit is one of the powers still to be tried. -/
def StillAhead (g n k remaining : Nat) (system : RelationSystem) : Prop :=
  ∀ q, system.Admits q → ∃ j, k ≤ j ∧ j < k + remaining ∧ (g : ZMod n) ^ j = q

variable {base : FactorBase} {system : RelationSystem} {k remaining : Nat}

theorem StillAhead.succ (ahead : system.StillAhead g n k (remaining + 1))
    (missed : ∀ q, system.Admits q → (g : ZMod n) ^ k ≠ q) :
    system.StillAhead g n (k + 1) remaining := by
  intro q admits
  obtain ⟨j, after, before, power⟩ := ahead q admits
  refine ⟨j, ?_, by omega, power⟩
  rcases Nat.lt_or_ge k j with later | now
  · exact later
  · obtain rfl : j = k := by omega
    exact absurd power (missed q admits)

/-- The residue one is no prime. -/
theorem StillAhead.skipped [Fact n.Prime] (ahead : system.StillAhead g n k (remaining + 1))
    (valid : system.base.Valid) (below : ∀ q ∈ system.base.primes, q < n)
    (one : ((g : ZMod n) ^ k).val = 1) : system.StillAhead g n (k + 1) remaining := by
  refine ahead.succ fun q admits power => ?_
  rw [power, ZMod.val_cast_of_lt (below q admits.member)] at one
  exact (valid.prime q admits.member).ne_one one

theorem StillAhead.refused [Fact n.Prime] (ahead : system.StillAhead g n k (remaining + 1))
    (valid : system.base.Valid) (below : ∀ q ∈ system.base.primes, q < n)
    {factorization : Factorization} (complete : factorization.Of ((g : ZMod n) ^ k).val)
    {admission : Admission} (turnedDown : admission ≠ .accepted)
    (offered : system.offer ⟨((g : ZMod n) ^ k).val, k, factorization⟩ = .ok (admission, system)) :
    system.StillAhead g n (k + 1) remaining := by
  refine ahead.succ fun q admits power => turnedDown ?_
  have prime := valid.prime q admits.member
  rw [power, ZMod.val_cast_of_lt (below q admits.member)] at complete offered
  rw [complete.unique (Factorization.single_of prime)] at offered
  obtain ⟨grown, accepted⟩ := admits.offer k
  cases offered.symm.trans accepted
  rfl

theorem StillAhead.accepted [Fact n.Prime] (ahead : system.StillAhead g n k (remaining + 1))
    (below : ∀ q ∈ system.base.primes, q < n)
    (allAdmitted : ∀ q ∈ system.base.primes, system.Admits q) (factorization : Factorization) :
    (system.extended ⟨((g : ZMod n) ^ k).val, k, factorization⟩).StillAhead g n (k + 1)
      remaining := by
  have earlier : (system.extended ⟨((g : ZMod n) ^ k).val, k, factorization⟩).StillAhead g n k
      (remaining + 1) := fun q admits => ahead q (allAdmitted q admits.member)
  refine earlier.succ fun q admits power => admits.fresh ?_
  have value := ZMod.val_cast_of_lt (below q admits.member)
  simp [extended, power, value]

/-- While powers are left the system can still become full, since after each of them the primes that
would be admitted are ahead. -/
theorem stillAhead_invariant [Fact n.Prime] (valid : base.Valid) (small : base.size ≤ 2)
    (three : 3 ≤ n) (fits : n < Word.long) (below : ∀ q ∈ base.primes, q < n) :
    SearchInvariant base g n
      (fun k remaining system => system.isFull = false ∧ system.StillAhead g n k remaining)
      (fun later => later.isFull = true) where
  exhausted := by
    rintro k system gathered ⟨unfinished, ahead⟩
    obtain ⟨q, admits⟩ := gathered.exists_admits valid three fits small unfinished
    obtain ⟨j, after, before, _⟩ := ahead q admits
    omega
  skipped := by
    rintro k remaining system gathered one ⟨unfinished, ahead⟩
    rw [← gathered.base_eq] at valid below
    exact ⟨unfinished, ahead.skipped valid below one⟩
  turnedDown := by
    rintro k remaining system factorization admission gathered complete offered refused
      ⟨unfinished, ahead⟩
    rw [← gathered.base_eq] at valid below
    exact ⟨unfinished, ahead.refused valid below complete refused offered⟩
  filled := fun _ _ full _ => full
  admitted := by
    rintro k remaining system factorization gathered kept notFull ⟨_, ahead⟩
    have modulus := gathered.modulus_eq
    -- A second prime is missing, so this was the first relation.
    have none : system.rank = 0 := by
      have bounded := kept.coherent.rank_le
      simp only [isFull, extended, beq_eq_false_iff_ne] at notFull bounded
      rw [gathered.base_eq] at notFull bounded
      omega
    rw [← gathered.base_eq] at below
    exact ⟨notFull, ahead.accepted below
      (fun q => gathered.coherent.admits_of_rank_zero (by omega) (by omega) none) factorization⟩

end RelationSystem

/-! ## The search -/

def FactorBase.AmongPowers (g n : Nat) (base : FactorBase) : Prop :=
  ∀ q ∈ base.primes, q < n ∧ ∃ k, g ^ k ≡ q [MOD n]

theorem FactorBase.AmongPowers.exists_exponent [Fact n.Prime] {base : FactorBase}
    (among : base.AmongPowers g n) (valid : base.Valid) (nonzero : (g : ZMod n) ≠ 0) {q : Nat}
    (member : q ∈ base.primes) : ∃ j, 1 ≤ j ∧ j < n ∧ (g : ZMod n) ^ j = q := by
  obtain ⟨below, k, power⟩ := among q member
  have reduced : (g : ZMod n) ^ (k % (n - 1)) = q := by
    rw [← ZMod.val_natCast, pow_residue_val nonzero, ← Nat.cast_pow]
    exact (ZMod.natCast_eq_natCast_iff _ _ n).mpr power
  have positive := NeZero.pos (n - 1)
  have small := Nat.mod_lt k positive
  refine ⟨k % (n - 1), Nat.pos_of_ne_zero fun none => ?_, by omega, reduced⟩
  rw [none, pow_zero, ← Nat.cast_one, ZMod.natCast_eq_natCast_iff] at reduced
  have proper := (valid.prime q member).one_lt
  have same := reduced.eq_of_lt_of_lt (Nat.lt_trans proper below) below
  omega

namespace LogSolver

variable {solver : LogSolver} [Fact n.Prime]

theorem gatherRelations_full (valid : solver.base.Valid) (small : solver.base.size ≤ 2)
    (unbounded : solver.relationBound = none) (live : solver.token.requested = false)
    (three : 3 ≤ n) (fits : n < Word.long) (nonzero : (g : ZMod n) ≠ 0)
    (among : solver.base.AmongPowers g n) :
    Ends (solver.gatherRelations g n) fun outcome =>
      ∃ system, outcome = .ok system ∧ system.isFull = true := by
  have bound : solver.relationBound.getD n = n := by rw [unbounded, Option.getD_none]
  have ahead : (RelationSystem.empty solver.base (n - 1)).StillAhead g n 1
      (solver.relationBound.getD n - 1) := by
    intro q admits
    obtain ⟨j, positive, before, power⟩ := among.exists_exponent valid nonzero admits.member
    exact ⟨j, positive, by omega, power⟩
  have invariant := RelationSystem.stillAhead_invariant (g := g) valid small three fits
    fun q member => (among q member).1
  have searched := searchRelations_invariant live fits nonzero invariant
    (RelationSystem.empty_gathered solver.base g) 1 (solver.relationBound.getD n - 1)
    ⟨RelationSystem.empty_not_full valid (n - 1), ahead⟩
  refine (gatherRelations_of_search (by omega) searched).imp ?_
  rintro outcome ⟨system, full, ⟨_, same⟩ | ⟨notFull, _⟩⟩
  · exact ⟨system, same, full⟩
  · cases full.symm.trans notFull

theorem gatherRelations_small_base (valid : solver.base.Valid) (small : solver.base.size ≤ 2)
    (unbounded : solver.relationBound = none) (live : solver.token.requested = false)
    (three : 3 ≤ n) (fits : n < Word.long) (nonzero : (g : ZMod n) ≠ 0) :
    Ends (solver.gatherRelations g n) fun outcome =>
      (solver.base.AmongPowers g n ∧ ∃ system, outcome = .ok system ∧ system.isFull = true) ∨
      (¬ solver.base.AmongPowers g n ∧
        ∃ rank, outcome = .error (.fault (.tooFewRelations rank solver.base.size))) := by
  by_cases among : solver.base.AmongPowers g n
  · refine (gatherRelations_full valid small unbounded live three fits nonzero among).imp ?_
    exact fun outcome full => Or.inl ⟨among, full⟩
  · refine (gatherRelations_spec live fits nonzero).imp fun outcome found => ?_
    rcases found with ⟨system, _, gathered, full⟩ | failed
    · -- A full system is solved, and the solution names the exponents.
      obtain ⟨logs, _, logged⟩ := gathered.solve_logs valid three fits nonzero full
      refine absurd (fun q member => ⟨logged.primes_lt q member, ?_⟩) among
      refine ⟨solver.base.logOf logs q, modEq_of_cast ?_⟩
      rw [Nat.cast_pow, logged.pow_logOf member]
    · exact Or.inr ⟨among, failed⟩

end LogSolver

theorem FactorBase.amongPowers_mod (base : FactorBase) (g n : Nat) :
    base.AmongPowers (g % n) n ↔ base.AmongPowers g n := by
  have reduced : ∀ k q, (g % n) ^ k ≡ q [MOD n] ↔ g ^ k ≡ q [MOD n] := fun k q =>
    ⟨((Nat.mod_modEq g n).pow k).symm.trans, ((Nat.mod_modEq g n).pow k).trans⟩
  simp only [AmongPowers, reduced]

/-- With the default bound and a base of one or two primes, the search fills the system exactly when
every prime of the base is a power of the generator; otherwise there is no other answer than too few
relations. -/
theorem LogSolver.small_base_full_iff {solver : LogSolver} {a : Nat} {primes : List Nat}
    (admitted : FactorBase.ofPrimes primes = .ok solver.base) (small : solver.base.size ≤ 2)
    (unbounded : solver.relationBound = none) (live : solver.token.requested = false)
    (prime : n.Prime) (three : 3 ≤ n) (fits : n < Word.long) (generatorFree : ¬ n ∣ g)
    (targetFree : ¬ n ∣ a) (trace : Trace) :
    ((∃ system, ((solver.gatherRelations g n).runFrom trace).1 = .ok system ∧
        system.isFull = true) ↔ ∀ q ∈ solver.base.primes, q < n ∧ ∃ k, g ^ k ≡ q [MOD n]) ∧
      ((∃ rank, ((solver.solve g a n).runFrom trace).1
          = .error (.fault (.tooFewRelations rank solver.base.size))) ↔
        ¬ ∀ q ∈ solver.base.primes, q < n ∧ ∃ k, g ^ k ≡ q [MOD n]) := by
  have : Fact n.Prime := ⟨prime⟩
  have valid := FactorBase.valid_of_ofPrimes admitted
  have nonzero : (g : ZMod n) ≠ 0 := by rwa [Ne, ZMod.natCast_eq_zero_iff]
  have reducedNonzero : ((g % n : Nat) : ZMod n) ≠ 0 := by rwa [ZMod.natCast_mod]
  have gathering := (gatherRelations_small_base valid small unbounded live three fits
    nonzero).outcome trace
  obtain ⟨outcome, lines, phase, found⟩ :=
    gatherRelations_small_base valid small unbounded live three fits reducedNonzero
  rw [FactorBase.amongPowers_mod] at found
  constructor
  · rcases gathering with ⟨among, full⟩ | ⟨missing, rank, failed⟩
    · exact iff_of_true full among
    · refine iff_of_false ?_ missing
      rintro ⟨system, success, _⟩
      cases failed.symm.trans success
  · rcases found with ⟨among, system, rfl, _⟩ | ⟨missing, rank, rfl⟩
    · refine iff_of_false ?_ (not_not.mpr among)
      rintro ⟨rank, failed⟩
      have answers := (solve_spec valid fits three generatorFree targetFree).outcome trace
      rw [failed] at answers
      obtain ⟨cause, _, halted, _⟩ | ⟨impossible, _⟩ | ⟨impossible, _⟩ | ⟨_, impossible, _⟩ := answers
      · cases (phase.outcome_eq trace).symm.trans (halted trace)
      · cases impossible
      · cases impossible
      · cases impossible
    · have decided := solve_of_search_halt fits three prime generatorFree targetFree phase
      exact iff_of_true ⟨rank, decided.outcome trace⟩ missing

/-- Modulo 30 the first relation of the generator 12, with the exponents 2 and 1, has a zero divisor
in front; the system still becomes full. The powers of 2 modulo 31 do not reach 3. -/
theorem LogSolver.small_base_full_iff_zero_divisor :
    (∃ system, ((gatherRelations ⟨⟨[2, 3]⟩, none, none, .fresh⟩ 12 31).runFrom Trace.empty).1
        = .ok system ∧ system.isFull = true) ∧
      ∃ rank, ((solve ⟨⟨[2, 3]⟩, none, none, .fresh⟩ 2 5 31).runFrom Trace.empty).1
        = .error (.fault (.tooFewRelations rank 2)) := by
  have admitted : FactorBase.ofPrimes [2, 3] = .ok (mk ⟨[2, 3]⟩ none none .fresh).base := by
    decide +kernel
  have reached : ∀ q ∈ (mk ⟨[2, 3]⟩ none none .fresh).base.primes,
      q < 31 ∧ ∃ k, 12 ^ k ≡ q [MOD 31] := by
    intro q member
    rcases List.mem_pair.mp member with rfl | rfl
    · exact ⟨by decide, 6, by decide⟩
    · exact ⟨by decide, 19, by decide +kernel⟩
  have powers : ∀ k, 2 ^ k % 31 ≠ 3 := by
    have cycle : ∀ k, 2 ^ k % 31 = 1 ∨ 2 ^ k % 31 = 2 ∨ 2 ^ k % 31 = 4 ∨ 2 ^ k % 31 = 8 ∨
        2 ^ k % 31 = 16 := by
      intro k
      induction k with
      | zero => exact Or.inl rfl
      | succ k ih =>
          rw [pow_succ, Nat.mul_mod]
          rcases ih with same | same | same | same | same <;> simp [same]
    intro k three
    have residue := cycle k
    omega
  have missing : ¬ ∀ q ∈ (mk ⟨[2, 3]⟩ none none .fresh).base.primes,
      q < 31 ∧ ∃ k, 2 ^ k ≡ q [MOD 31] := by
    intro all
    obtain ⟨_, k, power⟩ := all 3 (by decide)
    exact powers k power
  obtain ⟨full, _⟩ := @small_base_full_iff 31 12 _ 5 _ admitted (by decide) rfl rfl
    (by decide +kernel) (by decide) (by decide) (by decide) (by decide) Trace.empty
  obtain ⟨_, short⟩ := @small_base_full_iff 31 2 _ 5 _ admitted (by decide) rfl rfl
    (by decide +kernel) (by decide) (by decide) (by decide) (by decide) Trace.empty
  exact ⟨full.mpr reached, short.mpr missing⟩

end ResidueAlgebra
