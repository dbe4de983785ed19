import ResidueAlgebra.Proofs.IndexCalculus.Gathering

/-!
# Logarithms of numbers that split

With a logarithm for every prime of the base, the weighted sum over a factorization is the logarithm
of the number it factors. The logarithm of the generator and that of the target come from such sums,
so the power check at the end always agrees; the search for the target stops at the first shift
whose product splits.
-/
set_option autoImplicit false
namespace ResidueAlgebra

open Traced

variable {n g : Nat}

/-! ## Sums of logarithms -/

def FactorBase.logOf (base : FactorBase) (logs : List Nat) (q : Nat) : Nat :=
  ((base.indexOf q).map fun index => logs.getD index 0).getD 0

theorem FactorBase.logOf_lt (base : FactorBase) {logs : List Nat} {m : Nat} (positive : 0 < m)
    (below : ∀ log ∈ logs, log < m) (q : Nat) : base.logOf logs q < m := by
  have listed : ∀ index, logs.getD index 0 < m := by
    intro index
    rcases Nat.lt_or_ge index logs.length with inside | outside
    · rw [List.getD_eq_getElem _ _ inside]
      exact below _ (List.getElem_mem inside)
    · rw [List.getD_eq_default _ _ outside]
      exact positive
  rw [FactorBase.logOf]
  cases base.indexOf q with
  | none => exact positive
  | some index => exact listed index

theorem FactorBase.Logs.pow_logOf {base : FactorBase} {logs : List Nat}
    (logged : base.Logs g n logs) {q : Nat} (member : q ∈ base.primes) :
    (g : ZMod n) ^ base.logOf logs q = (q : ZMod n) := by
  obtain ⟨index, inside, located, rfl⟩ := FactorBase.indexOf_of_mem member
  have inLogs : index < logs.length := logged.length_eq ▸ inside
  have inZip : index < (base.primes.zip logs).length := by
    rw [List.length_zip]
    omega
  have power := logged.power_eq _ (List.getElem_mem inZip)
  rw [List.getElem_zip] at power
  rw [FactorBase.logOf, located, Option.map_some, Option.getD_some, List.getD_eq_getElem _ _ inLogs]
  exact power

namespace LogSolver

variable {solver : LogSolver} {logs : List Nat}

theorem baseLog_eq (length : logs.length = solver.base.primes.length) (q : Nat) :
    solver.baseLog logs q = .ok (solver.base.logOf logs q) := by
  rw [baseLog, FactorBase.logOf]
  cases located : solver.base.indexOf q with
  | none => rfl
  | some index =>
      obtain ⟨inside, _⟩ := List.findIdx?_eq_some_iff_getElem.mp located
      have inLogs : index < logs.length := length ▸ inside
      simp [inLogs]

theorem sumOfLogs_val {m : Nat} [NeZero m] (fits : m < Word.long)
    (length : logs.length = solver.base.primes.length) (below : ∀ log ∈ logs, log < m)
    (factorization : Factorization) :
    solver.sumOfLogs factorization logs m
      = .ok (factorization.entries.map fun entry =>
          ((entry.2 * solver.base.logOf logs entry.1 : Nat) : ZMod m)).sum.val := by
  apply Residue.foldlM_sum_val
  rintro sum ⟨q, power⟩ member
  have reduced := solver.base.logOf_lt (NeZero.pos m) below q
  dsimp only
  rw [baseLog_eq length, Outcome.ok_bind, Residue.reduce_val, Outcome.ok_bind,
    Residue.mul_val (Residue.val_lt_long fits _) (Nat.lt_trans reduced fits), Outcome.ok_bind,
    Residue.add_val (Residue.val_lt_long fits _) (Residue.val_lt_long fits _)]
  simp

theorem sumOfLogs_spec [Fact n.Prime] (fits : n < Word.long) (nonzero : (g : ZMod n) ≠ 0)
    (logged : solver.base.Logs g n logs) {factorization : Factorization} {value : Nat}
    (complete : factorization.Of value) (positive : value ≠ 0)
    (splits : solver.base.splits factorization = true) :
    ∃ sum : ZMod (n - 1), solver.sumOfLogs factorization logs (n - 1) = .ok sum.val ∧
      (g : ZMod n) ^ sum.val = value := by
  have small : n - 1 < Word.long := by omega
  refine ⟨_, sumOfLogs_val small logged.length_eq logged.below factorization, ?_⟩
  rw [pow_val_sum nonzero, List.map_map, ← complete.prod_entries positive, Nat.cast_list_prod,
    List.map_map]
  refine congrArg List.prod (List.map_congr_left ?_)
  rintro ⟨q, power⟩ member
  have inBase := FactorBase.mem_of_splits splits (List.mem_map_of_mem member)
  simp only [Function.comp_apply]
  rw [pow_residue_val nonzero, Nat.mul_comm, pow_mul, logged.pow_logOf inBase, Nat.cast_pow]

theorem substitutedTerms_spec (logged : solver.base.Logs g n logs) (factorization : Factorization) :
    ∃ text, solver.substitutedTerms factorization logs = .ok text := by
  unfold substitutedTerms
  split
  · exact ⟨_, rfl⟩
  · dsimp only
    rw [Outcome.mapM_eq_map fun entry : PrimePower =>
      s!"{entry.2}*{solver.base.logOf logs entry.1}"]
    · exact ⟨_, rfl⟩
    · rintro ⟨q, power⟩ _
      simp [baseLog_eq logged.length_eq]

/-! ## The generator -/

theorem generatorLog_spec [Fact n.Prime] (fits : n < Word.long) (positive : g ≠ 0) (below : g < n)
    (logged : solver.base.Logs g n logs) :
    Ends (solver.generatorLog g (n - 1) logs) fun outcome =>
      (solver.base.Covers g ∧ ∃ log, outcome = .ok log ∧ log < n - 1 ∧ (g : ZMod n) ^ log = g) ∨
      (¬ solver.base.Covers g ∧ outcome = .error (.fault (.generatorOutsideBase g))) := by
  have nonzero := natCast_ne_zero_of_lt positive below
  obtain ⟨factorization, factored, complete⟩ := TrialDivision.factor_spec (Nat.lt_trans below fits)
  have smooth := complete.splits_iff positive solver.base
  unfold generatorLog
  apply Ends.after_ok factored
  split
  · rename_i splits
    obtain ⟨sum, summed, power⟩ := sumOfLogs_spec fits nonzero logged complete positive splits
    apply Ends.after_ok summed
    apply Ends.after_note
    exact ends_pure (Or.inl ⟨smooth.mp splits, sum.val, rfl, ZMod.val_lt sum, power⟩)
  · rename_i stuck
    apply Ends.after_note
    exact ends_throw (Or.inr ⟨fun covered => stuck (smooth.mpr covered), rfl⟩)

/-! ## The target -/

theorem finish_spec [Fact n.Prime] (fits : n < Word.long) (nonzero : (g : ZMod n) ≠ 0)
    (logged : solver.base.Logs g n logs) {generatorLog : Nat} (reduced : generatorLog < n - 1)
    (ownLog : (g : ZMod n) ^ generatorLog = g) {a k product : Nat} (below : a < n)
    {factorization : Factorization} (complete : factorization.Of product) (positive : product ≠ 0)
    (shifted : (product : ZMod n) = a * (g : ZMod n) ^ k)
    (splits : solver.base.splits factorization = true) :
    Ends (solver.finish g a n (n - 1) k generatorLog logs factorization) fun outcome =>
      ∃ log, outcome = .ok log ∧ log < n - 1 ∧ (g : ZMod n) ^ log = a := by
  have small : n - 1 < Word.long := by omega
  obtain ⟨sum, summed, power⟩ := sumOfLogs_spec fits nonzero logged complete positive splits
  obtain ⟨text, substituted⟩ := substitutedTerms_spec logged factorization
  have offset : Residue.mul ((k : ZMod (n - 1))).val generatorLog (n - 1)
      = .ok ((k * generatorLog : Nat) : ZMod (n - 1)).val := by
    rw [Residue.mul_val (Residue.val_lt_long small _) (Nat.lt_trans reduced small)]
    simp
  have difference : Residue.sub sum.val ((k * generatorLog : Nat) : ZMod (n - 1)).val (n - 1)
      = .ok (sum - (k * generatorLog : Nat) : ZMod (n - 1)).val := by
    rw [Residue.sub_val, ZMod.natCast_zmod_val, ZMod.natCast_zmod_val]
  -- The shift cancels: the generator to its own logarithm is the generator.
  have answer : (g : ZMod n) ^ (sum - (k * generatorLog : Nat) : ZMod (n - 1)).val = a := by
    apply mul_right_cancel₀ (pow_ne_zero k nonzero)
    calc (g : ZMod n) ^ (sum - (k * generatorLog : Nat) : ZMod (n - 1)).val * (g : ZMod n) ^ k
        = (g : ZMod n) ^ (sum - (k * generatorLog : Nat) : ZMod (n - 1)).val
            * (g : ZMod n) ^ ((k * generatorLog : Nat) : ZMod (n - 1)).val := by
          rw [pow_residue_val nonzero, Nat.mul_comm k, pow_mul, ownLog]
      _ = (g : ZMod n) ^ sum.val := by rw [← pow_val_add nonzero, sub_add_cancel]
      _ = a * (g : ZMod n) ^ k := by rw [power, shifted]
  unfold finish
  apply Ends.after_ok summed
  apply Ends.after_ok (Residue.reduce_val k)
  apply Ends.after_ok offset
  apply Ends.after_ok difference
  apply Ends.after_ok substituted
  apply Ends.after_note
  apply Ends.after_note
  apply Ends.after_note
  apply Ends.after_note
  apply Ends.after_ok (Residue.pow_val fits g _)
  apply Ends.after_note
  rw [answer, ZMod.val_cast_of_lt below, if_pos rfl]
  apply Ends.after_note
  exact ends_pure ⟨_, rfl, ZMod.val_lt _, answer⟩

theorem searchTarget_spec [Fact n.Prime] (live : solver.token.requested = false)
    (fits : n < Word.long) (nonzero : (g : ZMod n) ≠ 0) (logged : solver.base.Logs g n logs)
    {generatorLog : Nat} (reduced : generatorLog < n - 1)
    (ownLog : (g : ZMod n) ^ generatorLog = g) {a : Nat} (positive : a ≠ 0) (below : a < n)
    (k remaining : Nat) :
    Ends (solver.searchTarget g a n (n - 1) generatorLog logs k remaining) fun outcome =>
      (∃ shift log, outcome = .ok (some (shift, log)) ∧ shift < k + remaining ∧
        IsLeast {s | k ≤ s ∧ solver.base.Covers (a * g ^ s % n)} shift ∧
        log < n - 1 ∧ (g : ZMod n) ^ log = a) ∨
      (outcome = .ok none ∧
        ∀ shift, k ≤ shift → shift < k + remaining → ¬ solver.base.Covers (a * g ^ shift % n)) := by
  induction remaining generalizing k with
  | zero => exact ends_pure (Or.inr ⟨rfl, by omega⟩)
  | succ remaining ih =>
      have shifted : ((a * g ^ k % n : Nat) : ZMod n) = a * (g : ZMod n) ^ k := by
        simp
      have productNonzero : a * g ^ k % n ≠ 0 := by
        intro zero
        rw [zero, Nat.cast_zero] at shifted
        exact mul_ne_zero (natCast_ne_zero_of_lt positive below) (pow_ne_zero k nonzero)
          shifted.symm
      have product : Residue.mul a ((g : ZMod n) ^ k).val n = .ok (a * g ^ k % n) := by
        rw [Residue.mul_val (Nat.lt_trans below fits) (Residue.val_lt_long fits _),
          ZMod.natCast_zmod_val, ← shifted, ZMod.val_natCast, Nat.mod_mod]
      have productBelow : a * g ^ k % n < n := Nat.mod_lt _ (Fact.out : n.Prime).pos
      obtain ⟨factorization, factored, complete⟩ :=
        TrialDivision.factor_spec (Nat.lt_trans productBelow fits)
      have smooth := complete.splits_iff productNonzero solver.base
      unfold searchTarget
      apply Ends.after_ok (Token.check_live live)
      apply Ends.after_ok (Residue.pow_val fits g k)
      apply Ends.after_ok product
      apply Ends.after_ok factored
      split
      · rename_i splits
        apply Ends.after_note
        refine Ends.bind (finish_spec fits nonzero logged reduced ownLog below complete
          productNonzero shifted splits) ?_ (by simp)
        rintro found ⟨log, same, bounded, power⟩
        cases same
        refine ends_pure (Or.inl ⟨k, found, rfl, by omega, ⟨?_, ?_⟩, bounded, power⟩)
        · exact ⟨Nat.le_refl k, smooth.mp splits⟩
        · intro other later
          exact later.1
      · rename_i stuck
        have uncovered : ¬ solver.base.Covers (a * g ^ k % n) := fun covered =>
          stuck (smooth.mpr covered)
        apply Ends.after_note
        -- The first shift from here on is the first one after this one, which does not split.
        refine (ih (k + 1)).imp ?_
        rintro outcome (⟨shift, log, same, inside, ⟨⟨after, covered⟩, least⟩, answer⟩ |
          ⟨same, none⟩)
        · refine Or.inl ⟨shift, log, same, by omega, ⟨⟨by omega, covered⟩, ?_⟩, answer⟩
          rintro other ⟨from_k, otherCovered⟩
          rcases Nat.lt_or_ge k other with above | atMost
          · exact least ⟨above, otherCovered⟩
          · obtain rfl : other = k := by omega
            exact absurd otherCovered uncovered
        · refine Or.inr ⟨same, ?_⟩
          intro shift from_k inside
          rcases Nat.lt_or_ge k shift with above | atMost
          · exact none shift above (by omega)
          · obtain rfl : shift = k := by omega
            exact uncovered

theorem targetLog_spec [Fact n.Prime] (live : solver.token.requested = false)
    (fits : n < Word.long) (nonzero : (g : ZMod n) ≠ 0) (logged : solver.base.Logs g n logs)
    {generatorLog : Nat} (reduced : generatorLog < n - 1)
    (ownLog : (g : ZMod n) ^ generatorLog = g) {a : Nat} (positive : a ≠ 0) (below : a < n) :
    Ends (solver.targetLog g a n (n - 1) generatorLog logs) fun outcome =>
      (∃ shift log, outcome = .ok (shift, log) ∧
        IsLeast {s | 1 ≤ s ∧ solver.base.Covers (a * g ^ s % n)} shift ∧
        log < n - 1 ∧ (g : ZMod n) ^ log = a) ∨
      (outcome = .error (.fault (.targetNotReachable a)) ∧
        ∀ shift, 1 ≤ shift → shift ≤ solver.targetBound.getD (n - 1) →
          ¬ solver.base.Covers (a * g ^ shift % n)) := by
  unfold targetLog
  refine Ends.bind (searchTarget_spec live fits nonzero logged reduced ownLog positive below 1 _)
    ?_ (by simp)
  rintro found (⟨shift, log, same, _, least, answer⟩ | ⟨same, none⟩)
  · cases same
    exact ends_pure (Or.inl ⟨shift, log, rfl, least, answer⟩)
  · cases same
    apply Ends.after_note
    refine ends_throw (Or.inr ⟨rfl, ?_⟩)
    intro shift atLeast atMost
    exact none shift atLeast (by omega)

end LogSolver

end ResidueAlgebra
