import ResidueAlgebra.Proofs.IndexCalculus.Admission

/-!
# Runs of offers

A run offers relations, arbitrary ones, one after the other to a system that started empty. Every
offer of a run is answered, and only the answer `accepted` changes the system: it appends the
relation with its row and raises the rank by one, until the rank is the size of the base.
-/
set_option autoImplicit false
namespace ResidueAlgebra

namespace RelationSystem

variable {base : FactorBase} {m : Nat} {system : RelationSystem}

def offerAll (system : RelationSystem) :
    List Relation → Outcome (List Admission × RelationSystem)
  | [] => .ok ([], system)
  | relation :: rest => do
      let (admission, next) ← system.offer relation
      let (answers, final) ← next.offerAll rest
      .ok (admission :: answers, final)

def accepted (offers : List Relation) (answers : List Admission) : List Relation :=
  ((offers.zip answers).filter fun offered => offered.2 = .accepted).map Prod.fst

structure CoherentOver (base : FactorBase) (m : Nat) (system : RelationSystem) : Prop where
  coherent : system.Coherent
  base_eq : system.base = base
  modulus_eq : system.modulus = m

theorem empty_coherentOver (base : FactorBase) {m : Nat} (positive : 0 < m) :
    (empty base m).CoherentOver base m :=
  ⟨empty_coherent base positive, rfl, rfl⟩

/-! ## One offer -/

theorem CoherentOver.offer (intact : system.CoherentOver base m) (positive : 0 < m)
    (fits : m < Word.long) (relation : Relation) :
    ∃ admission next, system.offer relation = .ok (admission, next) ∧ next.CoherentOver base m ∧
      (admission ≠ .accepted ∧ next = system ∨
        admission = .accepted ∧ next = system.extended relation) := by
  rw [← intact.modulus_eq] at positive fits
  rcases intact.coherent.offer_cases positive fits relation with
    ⟨admission, refused, offered⟩ | ⟨offered, _, coherent⟩
  · exact ⟨admission, system, offered, intact, Or.inl ⟨refused, rfl⟩⟩
  · exact ⟨.accepted, system.extended relation, offered,
      ⟨coherent, intact.base_eq, intact.modulus_eq⟩, Or.inr ⟨rfl, rfl⟩⟩

theorem offer_inv {relation : Relation} {admission : Admission} {next : RelationSystem}
    (offered : system.offer relation = .ok (admission, next)) :
    (next = system ∧ (admission = .notSmooth ∨ admission = .duplicateValue)) ∨
      ∃ rank, matrixRank (system.matrix ++ [relation.exponentVector system.base]) system.modulus
          = .ok rank ∧
        ((next = system ∧ admission = .linearlyDependent ∧ rank ≤ system.rank) ∨
          (next.relations = system.relations ++ [relation] ∧ admission = .accepted ∧
            system.rank < rank)) := by
  unfold RelationSystem.offer at offered
  split at offered
  · cases offered
    exact Or.inl ⟨rfl, Or.inl rfl⟩
  · split at offered
    · cases offered
      exact Or.inl ⟨rfl, Or.inr rfl⟩
    · obtain ⟨rank, ranked, offered⟩ := Outcome.bind_eq_ok offered
      refine Or.inr ⟨rank, ranked, ?_⟩
      split at offered
      · rename_i low
        cases offered
        exact Or.inl ⟨rfl, rfl, low⟩
      · rename_i high
        cases offered
        exact Or.inr ⟨rfl, rfl, Nat.lt_of_not_le high⟩

theorem rank_of_accepted {relation : Relation} {next : RelationSystem}
    (offered : system.offer relation = .ok (.accepted, next)) :
    ∃ rank, matrixRank (system.matrix ++ [relation.exponentVector system.base]) system.modulus
      = .ok rank ∧ system.rank < rank := by
  obtain ⟨_, impossible | impossible⟩ | ⟨rank, ranked, ⟨_, impossible, _⟩ | ⟨_, _, raised⟩⟩ :=
    offer_inv offered
  · cases impossible
  · cases impossible
  · cases impossible
  · exact ⟨rank, ranked, raised⟩

theorem rank_of_dependent {relation : Relation} {next : RelationSystem}
    (offered : system.offer relation = .ok (.linearlyDependent, next)) :
    next = system ∧
      ∃ rank, matrixRank (system.matrix ++ [relation.exponentVector system.base]) system.modulus
        = .ok rank ∧ rank ≤ system.rank := by
  obtain ⟨_, impossible | impossible⟩ | ⟨rank, ranked, ⟨same, _, low⟩ | ⟨_, impossible, _⟩⟩ :=
    offer_inv offered
  · cases impossible
  · cases impossible
  · exact ⟨same, rank, ranked, low⟩
  · cases impossible

/-! ## Whole runs -/

theorem CoherentOver.offerAll (intact : system.CoherentOver base m) (positive : 0 < m)
    (fits : m < Word.long) (offers : List Relation) :
    ∃ answers final, system.offerAll offers = .ok (answers, final) ∧
      final.CoherentOver base m ∧ answers.length = offers.length ∧
      final.relations = system.relations ++ accepted offers answers := by
  induction offers generalizing system with
  | nil => exact ⟨[], system, rfl, intact, rfl, by simp [accepted]⟩
  | cons relation rest ih =>
      obtain ⟨admission, next, offered, kept, change⟩ := intact.offer positive fits relation
      obtain ⟨answers, final, run, later, count, relations⟩ := ih kept
      refine ⟨admission :: answers, final, ?_, later, by simp [count], ?_⟩
      · rw [RelationSystem.offerAll, offered, Outcome.ok_bind]
        dsimp only
        rw [run, Outcome.ok_bind]
      · rw [relations]
        rcases change with ⟨refused, rfl⟩ | ⟨rfl, rfl⟩
        · simp [accepted, refused]
        · simp [accepted, extended]

theorem CoherentOver.grown {later : RelationSystem} (intact : system.CoherentOver base m)
    (laterIntact : later.CoherentOver base m) {more : List Relation}
    (relations : later.relations = system.relations ++ more) :
    later.matrix = system.matrix ++ (more.map fun relation => relation.exponentVector base) ∧
      later.rank = system.rank + more.length := by
  constructor
  · rw [laterIntact.coherent.matrix_eq, intact.coherent.matrix_eq, laterIntact.base_eq, intact.base_eq,
      relations, List.map_append]
  · rw [laterIntact.coherent.rank_eq, intact.coherent.rank_eq, relations, List.length_append]

/-- At every point of a run the matrix and the rank belong to the relations accepted so far, which
are smooth and have distinct values; the next offer is answered, changes the system only if it is
accepted, and is not accepted once the rank is the size of the base. -/
theorem offerAll_invariant (base : FactorBase) {m : Nat} (positive : 0 < m) (fits : m < Word.long)
    (offers : List Relation) :
    ∃ answers system, (empty base m).offerAll offers = .ok (answers, system) ∧
      answers.length = offers.length ∧ system.relations = accepted offers answers ∧
      system.base = base ∧ system.modulus = m ∧
      system.matrix = system.relations.map (fun relation => relation.exponentVector base) ∧
      (system.relations.map Relation.value).Nodup ∧
      (∀ relation ∈ system.relations, relation.factorization.entries ≠ [] ∧
        ∀ q ∈ relation.factorization.primes, q ∈ base.primes) ∧
      matrixRank system.matrix m = .ok system.rank ∧
      system.rank = system.relations.length ∧ system.rank ≤ base.size ∧
      ∀ relation, ∃ admission next, system.offer relation = .ok (admission, next) ∧
        (admission ≠ .accepted → next = system) ∧
        (admission = .accepted → next.rank = system.rank + 1 ∧
          next.relations = system.relations ++ [relation]) ∧
        (system.rank = base.size → admission ≠ .accepted) := by
  obtain ⟨answers, system, run, intact, count, relations⟩ :=
    (empty_coherentOver base positive).offerAll positive fits offers
  have coherent := intact.coherent
  have baseEq := intact.base_eq
  refine ⟨answers, system, run, count, by simpa [empty] using relations, baseEq, intact.modulus_eq,
    ?_, coherent.distinct, ?_, ?_, coherent.rank_eq, ?_, ?_⟩
  · rw [coherent.matrix_eq, baseEq]
  · intro relation member
    have smooth := coherent.smooth relation member
    rw [Relation.isSmooth, Bool.and_eq_true, baseEq] at smooth
    refine ⟨by simpa [Factorization.isEmpty] using smooth.1, ?_⟩
    simpa [FactorBase.splits, FactorBase.contains] using smooth.2
  · rw [← intact.modulus_eq]
    exact coherent.counted
  · rw [← baseEq]
    exact coherent.rank_le
  · intro relation
    obtain ⟨admission, next, offered, kept, change⟩ := intact.offer positive fits relation
    refine ⟨admission, next, offered, ?_⟩
    rcases change with ⟨refused, rfl⟩ | ⟨rfl, rfl⟩
    · exact ⟨fun _ => rfl, fun isAccepted => absurd isAccepted refused, fun _ => refused⟩
    · refine ⟨fun different => absurd rfl different, fun _ => ⟨rfl, rfl⟩, fun full => ?_⟩
      -- One more relation would make the rank larger than the base.
      have bound : system.rank + 1 ≤ system.base.size := kept.coherent.rank_le
      rw [baseEq] at bound
      omega

/-- Modulo six a dependent row, a known value and a foreign prime are turned down, and the base is
full with the second accepted relation. -/
theorem offerAll_invariant_full_base :
    ∃ system, (empty ⟨[2, 3]⟩ 6).offerAll
        [⟨4, 1, ⟨[(2, 2)], by decide⟩⟩, ⟨6, 2, ⟨[(2, 1), (3, 1)], by decide⟩⟩,
          ⟨6, 8, ⟨[(2, 1), (3, 1)], by decide⟩⟩, ⟨7, 3, ⟨[(7, 1)], by decide⟩⟩,
          ⟨108, 1, ⟨[(2, 2), (3, 3)], by decide⟩⟩]
        = .ok ([.linearlyDependent, .accepted, .duplicateValue, .notSmooth, .accepted], system) ∧
      system.rank = 2 ∧
      ∀ relation, ∃ admission, system.offer relation = .ok (admission, system) ∧
        admission ≠ .accepted := by
  have computed : (empty ⟨[2, 3]⟩ 6).offerAll
        [⟨4, 1, ⟨[(2, 2)], by decide⟩⟩, ⟨6, 2, ⟨[(2, 1), (3, 1)], by decide⟩⟩,
          ⟨6, 8, ⟨[(2, 1), (3, 1)], by decide⟩⟩, ⟨7, 3, ⟨[(7, 1)], by decide⟩⟩,
          ⟨108, 1, ⟨[(2, 2), (3, 3)], by decide⟩⟩]
      = .ok ([.linearlyDependent, .accepted, .duplicateValue, .notSmooth, .accepted],
        ⟨⟨[2, 3]⟩, 6, [⟨6, 2, ⟨[(2, 1), (3, 1)], by decide⟩⟩,
          ⟨108, 1, ⟨[(2, 2), (3, 3)], by decide⟩⟩], [[1, 1], [2, 3]], 2⟩) := by
    decide +kernel
  obtain ⟨answers, system, run, _, _, _, _, _, _, _, _, _, _, next⟩ :=
    offerAll_invariant ⟨[2, 3]⟩ (m := 6) (by decide) (by decide) _
  cases computed.symm.trans run
  refine ⟨_, computed, rfl, fun relation => ?_⟩
  obtain ⟨admission, later, offered, unchanged, _, closed⟩ := next relation
  have refused := closed rfl
  cases unchanged refused
  exact ⟨admission, offered, refused⟩

end RelationSystem

end ResidueAlgebra
