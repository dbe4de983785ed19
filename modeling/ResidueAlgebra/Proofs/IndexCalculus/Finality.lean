import Mathlib.Algebra.IsPrimePow
import ResidueAlgebra.Proofs.IndexCalculus.Runs
import ResidueAlgebra.Proofs.Linear.PrimeDivisor

/-!
# When a dependent relation stays dependent

A relation was answered `linearlyDependent` because its row found no unit pivot. Modulo a prime the
answer is about the rank over a field and nothing that is accepted later can change it; the same
holds modulo a prime power, and for any modulus as soon as the row depends on the others modulo one
of its prime divisors, or only one more relation has room. In all other cases rows accepted later may
turn two zero divisors of the row into a unit, and then the relation is accepted after all.
-/
set_option autoImplicit false
namespace ResidueAlgebra.RelationSystem

variable {base : FactorBase} {m q : Nat} {system later : RelationSystem}

theorem CoherentOver.rectangular (intact : system.CoherentOver base m) (relation : Relation) :
    ∀ row ∈ system.matrix ++ [relation.exponentVector base], row.length = base.size := by
  intro row member
  rcases List.mem_append.mp member with old | new
  · rw [← intact.base_eq]
    exact intact.coherent.rectangular row old
  · rw [List.mem_singleton.mp new]
    exact exponentVector_length relation base

noncomputable def rankWith (q : Nat) (system : RelationSystem) (base : FactorBase)
    (relation : Relation) : Nat :=
  Module.finrank (ZMod q)
    (rowSpan q base.size (system.matrix ++ [relation.exponentVector base]))

theorem CoherentOver.matrixRank_le [Fact q.Prime] (intact : system.CoherentOver base m)
    {modulus : Nat} (positive : 0 < modulus) (fits : modulus < Word.long) (divides : q ∣ modulus)
    {relation : Relation} {rank : Nat}
    (ranked : matrixRank (system.matrix ++ [relation.exponentVector base]) modulus = .ok rank) :
    rank ≤ system.rankWith q base relation ∧
      ∀ exponent, modulus = q ^ exponent → rank = system.rankWith q base relation := by
  have : NeZero modulus := ⟨Nat.ne_of_gt positive⟩
  have rectangular := intact.rectangular relation
  obtain ⟨found, same, spec⟩ := LinearSystem.matrixRank_prime_divisor fits divides
    (LinearSystem.width_eq (by simp) rectangular) rectangular
  cases same.symm.trans ranked
  exact spec

/-- A row that depends on the others modulo a prime divisor is turned down for good: the relations
accepted in between raise the rank modulo the prime by at most their number. -/
theorem CoherentOver.refused_of_dependent [Fact q.Prime] (intact : system.CoherentOver base m)
    (laterIntact : later.CoherentOver base m) (positive : 0 < m) (fits : m < Word.long)
    (divides : q ∣ m) {more : List Relation}
    (relations : later.relations = system.relations ++ more) {relation : Relation}
    (dependent : system.rankWith q base relation ≤ system.rank) (next : RelationSystem) :
    later.offer relation ≠ .ok (.accepted, next) := by
  intro offered
  obtain ⟨matrix, rank⟩ := intact.grown laterIntact relations
  obtain ⟨found, ranked, raised⟩ := rank_of_accepted offered
  rw [laterIntact.base_eq, laterIntact.modulus_eq] at ranked
  have bound : found ≤ system.rankWith q base relation + more.length :=
    calc found ≤ later.rankWith q base relation :=
          (laterIntact.matrixRank_le positive fits divides ranked).1
      _ ≤ system.rankWith q base relation + more.length := by
          rw [rankWith, matrix, rankWith, ← List.length_map fun relation : Relation =>
            relation.exponentVector base]
          exact finrank_rowSpan_between_le ..
  omega

theorem CoherentOver.refused_of_crowded (intact : system.CoherentOver base m)
    (laterIntact : later.CoherentOver base m) (positive : 0 < m) (fits : m < Word.long)
    {more : List Relation} (relations : later.relations = system.relations ++ more)
    {relation : Relation} {found : Nat}
    (ranked : matrixRank (system.matrix ++ [relation.exponentVector base]) m = .ok found)
    (dependent : found ≤ system.rank) (crowded : base.size ≤ system.rank + 1)
    (next : RelationSystem) : later.offer relation ≠ .ok (.accepted, next) := by
  intro offered
  obtain ⟨matrix, rank⟩ := intact.grown laterIntact relations
  obtain ⟨_, _, answered, grown, ⟨refused, _⟩ | ⟨_, rfl⟩⟩ :=
    laterIntact.offer positive fits relation
  · cases offered.symm.trans answered
    exact refused rfl
  · have bound : later.rank + 1 ≤ base.size := grown.base_eq ▸ grown.coherent.rank_le
    -- Any relation accepted in between took the room that was left.
    have none : more = [] := List.length_eq_zero_iff.mp (by omega)
    obtain ⟨again, rerun, raised⟩ := rank_of_accepted offered
    rw [laterIntact.base_eq, laterIntact.modulus_eq, matrix, none, List.map_nil, List.append_nil]
      at rerun
    cases ranked.symm.trans rerun
    omega

/-- A relation once answered `linearlyDependent` is not accepted later in the run if the modulus is a
prime power, if there was room for one more relation only, or if its row does not raise the rank
modulo some prime divisor of the modulus either. -/
theorem linearlyDependent_final {before between : List Relation}
    {answers laterAnswers : List Admission} {next : RelationSystem} {relation : Relation}
    (proper : 2 ≤ m) (fits : m < Word.long)
    (reached : (empty base m).offerAll before = .ok (answers, system))
    (refused : system.offer relation = .ok (.linearlyDependent, next))
    (settled : IsPrimePow m ∨ base.size ≤ system.rank + 1 ∨
      ∃ q rank, q.Prime ∧ q ∣ m ∧
        matrixRank (system.matrix ++ [relation.exponentVector base]) q = .ok rank ∧
        rank ≤ system.rank)
    (continued : next.offerAll between = .ok (laterAnswers, later)) :
    ∃ admission, later.offer relation = .ok (admission, later) ∧ admission ≠ .accepted := by
  have positive : 0 < m := by omega
  obtain ⟨_, _, run, intact, _, _⟩ :=
    (empty_coherentOver base positive).offerAll positive fits before
  cases run.symm.trans reached
  obtain ⟨rfl, found, ranked, dependent⟩ := rank_of_dependent refused
  rw [intact.base_eq, intact.modulus_eq] at ranked
  obtain ⟨_, _, rerun, laterIntact, _, relations⟩ := intact.offerAll positive fits between
  cases rerun.symm.trans continued
  have rejected : ∀ final, later.offer relation ≠ .ok (.accepted, final) := by
    rcases settled with power | crowded | ⟨q, rank, prime, divides, modular, low⟩
    · obtain ⟨q, exponent, prime, nonzero, rfl⟩ := (isPrimePow_nat_iff m).mp power
      have : Fact q.Prime := ⟨prime⟩
      have divides : q ∣ q ^ exponent := dvd_pow_self q (Nat.ne_of_gt nonzero)
      rw [(intact.matrixRank_le positive fits divides ranked).2 exponent rfl] at dependent
      exact intact.refused_of_dependent laterIntact positive fits divides relations dependent
    · exact intact.refused_of_crowded laterIntact positive fits relations ranked dependent crowded
    · have : Fact q.Prime := ⟨prime⟩
      have small : q < Word.long := Nat.lt_of_le_of_lt (Nat.le_of_dvd positive divides) fits
      rw [(intact.matrixRank_le prime.pos small (dvd_refl q) modular).2 1 (pow_one q).symm] at low
      exact intact.refused_of_dependent laterIntact positive fits divides relations low
  obtain ⟨admission, final, offered, _, ⟨different, rfl⟩ | ⟨rfl, _⟩⟩ :=
    laterIntact.offer positive fits relation
  · exact ⟨admission, offered, different⟩
  · exact absurd offered (rejected final)

/-- Modulo six, the row of 4 is zero modulo two; relations accepted later do not help it. -/
theorem linearlyDependent_final_even_row :
    ∃ later, (empty ⟨[2, 3, 5]⟩ 6).offerAll [⟨4, 1, ⟨[(2, 2)], by decide⟩⟩,
        ⟨6, 2, ⟨[(2, 1), (3, 1)], by decide⟩⟩, ⟨108, 3, ⟨[(2, 2), (3, 3)], by decide⟩⟩]
        = .ok ([.linearlyDependent, .accepted, .accepted], later) ∧
      later.rank = 2 ∧
      ∃ admission, later.offer ⟨4, 1, ⟨[(2, 2)], by decide⟩⟩ = .ok (admission, later) ∧
        admission ≠ .accepted := by
  refine ⟨⟨⟨[2, 3, 5]⟩, 6, [⟨6, 2, ⟨[(2, 1), (3, 1)], by decide⟩⟩,
    ⟨108, 3, ⟨[(2, 2), (3, 3)], by decide⟩⟩], [[1, 1, 0], [2, 3, 0]], 2⟩, by decide +kernel, rfl, ?_⟩
  have reached : (empty ⟨[2, 3, 5]⟩ 6).offerAll [] = .ok ([], empty ⟨[2, 3, 5]⟩ 6) := rfl
  have refused : (empty ⟨[2, 3, 5]⟩ 6).offer ⟨4, 1, ⟨[(2, 2)], by decide⟩⟩
      = .ok (.linearlyDependent, empty ⟨[2, 3, 5]⟩ 6) := by
    decide +kernel
  have even : matrixRank [[2, 0, 0]] 2 = .ok 0 := by decide +kernel
  have continued : (empty ⟨[2, 3, 5]⟩ 6).offerAll
      [⟨6, 2, ⟨[(2, 1), (3, 1)], by decide⟩⟩, ⟨108, 3, ⟨[(2, 2), (3, 3)], by decide⟩⟩]
      = .ok ([.accepted, .accepted], ⟨⟨[2, 3, 5]⟩, 6, [⟨6, 2, ⟨[(2, 1), (3, 1)], by decide⟩⟩,
        ⟨108, 3, ⟨[(2, 2), (3, 3)], by decide⟩⟩], [[1, 1, 0], [2, 3, 0]], 2⟩) := by
    decide +kernel
  exact linearlyDependent_final (by decide) (by decide) reached refused
    (Or.inr (Or.inr ⟨2, 0, Nat.prime_two, by decide, even, Nat.le_refl 0⟩)) continued

/-- In general the answer is not final: modulo six neither 2 nor 3 is a unit, but once the row of 6
is there, the row of 108 has the unit `3 - 2`. -/
theorem linearlyDependent_not_final :
    FactorBase.ofPrimes [2, 3] = .ok ⟨[2, 3]⟩ ∧
    (empty ⟨[2, 3]⟩ 6).offerAll [⟨108, 1, ⟨[(2, 2), (3, 3)], by decide⟩⟩,
        ⟨6, 2, ⟨[(2, 1), (3, 1)], by decide⟩⟩, ⟨108, 1, ⟨[(2, 2), (3, 3)], by decide⟩⟩]
      = .ok ([.linearlyDependent, .accepted, .accepted],
        ⟨⟨[2, 3]⟩, 6, [⟨6, 2, ⟨[(2, 1), (3, 1)], by decide⟩⟩,
          ⟨108, 1, ⟨[(2, 2), (3, 3)], by decide⟩⟩], [[1, 1], [2, 3]], 2⟩) := by
  decide +kernel

end ResidueAlgebra.RelationSystem
