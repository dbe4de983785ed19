import ResidueAlgebra.IndexCalculus.Relation
import ResidueAlgebra.Proofs.Linear.FullRank

/-!
# Admission of relations

The invariant of a relation system over any sequence of offers, and what one offer can do to it. Each
admitted relation raises the rank by exactly one, since a matrix has no more pivots than rows; so a
full system is square.
-/
set_option autoImplicit false
namespace ResidueAlgebra.RelationSystem

/-- Matrix and rank belong to the relations, which are smooth with distinct values. -/
structure Coherent (system : RelationSystem) : Prop where
  matrix_eq : system.matrix = system.relations.map fun relation =>
    relation.exponentVector system.base
  rank_eq : system.rank = system.relations.length
  counted : matrixRank system.matrix system.modulus = .ok system.rank
  rank_le : system.rank ≤ system.base.size
  smooth : ∀ relation ∈ system.relations, relation.isSmooth system.base = true
  distinct : (system.relations.map Relation.value).Nodup

def extended (system : RelationSystem) (relation : Relation) : RelationSystem :=
  { system with
    relations := system.relations ++ [relation]
    matrix := system.matrix ++ [relation.exponentVector system.base]
    rank := system.rank + 1 }

theorem exponentVector_length (relation : Relation) (base : FactorBase) :
    (relation.exponentVector base).length = base.size := by
  simp [Relation.exponentVector, FactorBase.exponentVector, FactorBase.size]

theorem empty_coherent (base : FactorBase) {modulus : Nat} (positive : 0 < modulus) :
    (empty base modulus).Coherent where
  matrix_eq := rfl
  rank_eq := rfl
  counted := by
    show matrixRank [] modulus = .ok 0
    rw [matrixRank, LinearSystem.ofRows, LinearSystem.build, if_neg (Nat.ne_of_gt positive)]
    rfl
  rank_le := Nat.zero_le _
  smooth := by simp [empty]
  distinct := List.nodup_nil

theorem Coherent.rectangular {system : RelationSystem} (coherent : system.Coherent) :
    ∀ row ∈ system.matrix, row.length = system.base.size := by
  intro row member
  rw [coherent.matrix_eq] at member
  obtain ⟨relation, _, rfl⟩ := List.mem_map.mp member
  exact exponentVector_length relation system.base

theorem Coherent.offer_cases {system : RelationSystem} (coherent : system.Coherent)
    (positive : 0 < system.modulus) (fits : system.modulus < Word.long) (relation : Relation) :
    (∃ admission, admission ≠ .accepted ∧ system.offer relation = .ok (admission, system)) ∨
      (system.offer relation = .ok (.accepted, system.extended relation) ∧
        relation.isSmooth system.base = true ∧ (system.extended relation).Coherent) := by
  by_cases smooth : relation.isSmooth system.base = true
  · have passed : ¬ (!relation.isSmooth system.base) = true := by rw [smooth]; decide
    by_cases known : system.containsValue relation.value = true
    · left
      exact ⟨.duplicateValue, by decide, by rw [offer, if_neg passed, if_pos known]⟩
    · have : NeZero system.modulus := ⟨Nat.ne_of_gt positive⟩
      have rectangular : ∀ row ∈ system.matrix ++ [relation.exponentVector system.base],
          row.length = system.base.size := by
        intro row member
        rcases List.mem_append.mp member with old | new
        · exact coherent.rectangular row old
        · simp [List.mem_singleton.mp new, exponentVector_length]
      obtain ⟨rank, ranked, rows, columns⟩ :=
        LinearSystem.matrixRank_spec fits (by simp) rectangular
      rw [List.length_append, List.length_singleton, coherent.matrix_eq, List.length_map,
        ← coherent.rank_eq] at rows
      rw [offer, if_neg passed, if_neg known]
      dsimp only
      rw [ranked, Outcome.ok_bind]
      by_cases dependent : rank ≤ system.rank
      · left
        exact ⟨.linearlyDependent, by decide, by rw [if_pos dependent]⟩
      · right
        -- There is a pivot for each row now, so the rank grew by one.
        obtain rfl : rank = system.rank + 1 := by omega
        refine ⟨by rw [if_neg dependent]; rfl, smooth, ?_⟩
        constructor
        · simp [extended, coherent.matrix_eq]
        · simp [extended, coherent.rank_eq]
        · exact ranked
        · exact columns
        · intro other member
          rcases List.mem_append.mp member with old | new
          · exact coherent.smooth other old
          · rw [List.mem_singleton.mp new]
            exact smooth
        · have fresh : relation.value ∉ system.relations.map Relation.value := by
            simpa [containsValue] using known
          rw [extended, List.map_append, List.map_singleton, List.nodup_append]
          refine ⟨coherent.distinct, List.nodup_singleton _, ?_⟩
          rintro old member new isValue rfl
          rw [List.mem_singleton.mp isValue] at member
          exact fresh member
  · left
    have rejected : (!relation.isSmooth system.base) = true := by
      rw [Bool.eq_false_iff.mpr smooth]
      rfl
    exact ⟨.notSmooth, by decide, by rw [offer, if_pos rejected]⟩

end ResidueAlgebra.RelationSystem
