import Mathlib.Logic.Relation
import ResidueAlgebra.Proofs.Poly.Root

/-!
# Depth of the square-free decomposition

Nothing here asks for a prime modulus. A call makes another one when its run depends on how that one
is answered. Both rules that recurse do so on a polynomial of smaller degree that is not constant: a
root has the degree divided by the modulus, and a common divisor that is constant is one. The level
and the degree of a call therefore never add up to more than the degree at the start, and the levels
end one below it, however the run ends.
-/
set_option autoImplicit false
namespace ResidueAlgebra.Poly

variable {m : Nat}

/-! ## Calls -/

structure Call where
  polynomial : Poly
  level : Nat

/-- What the first call does depends on how the second one is answered. -/
def Call.Makes (token : Token) (caller callee : Call) : Prop :=
  ∃ answers others : (v : Poly) → v.degree < caller.polynomial.degree → Nat → Traced (List Poly),
    (∀ v smaller level, Call.mk v level ≠ callee →
      answers v smaller level = others v smaller level) ∧
    activation token caller.polynomial caller.level answers
      ≠ activation token caller.polynomial caller.level others

theorem activation_congr [NeZero m] (fits : m < Word.long) {f : Poly} (reduced : f.Reduced m)
    (token : Token) {level : Nat}
    {answers others : (v : Poly) → v.degree < f.degree → Nat → Traced (List Poly)}
    (agree : ∀ v smaller, v.Reduced m → 1 ≤ v.degree →
      answers v smaller (level + 1) = others v smaller (level + 1)) :
    activation token f level answers = activation token f level others := by
  -- Each call is made after the same steps, and what they computed shows what it is made on.
  unfold activation
  refine bind_congr fun _ => bind_congr fun _ => bind_congr fun _ => ?_
  split
  · rfl
  · rename_i large
    have high : 2 ≤ f.degree := Nat.le_of_not_lt large
    refine bind_congr fun _ => bind_congr ?_
    rintro ⟨slope, derived⟩
    refine bind_congr fun _ => ?_
    split
    · refine bind_congr ?_
      rintro ⟨v, root⟩
      have kept := (pthRoot_expand reduced root).1
      have nonconstant := one_le_degree_of_pthRoot reduced root (by omega)
      refine bind_congr fun _ => bind_congr fun _ => ?_
      rw [agree v _ kept nonconstant]
    · refine bind_congr fun _ => bind_congr ?_
      rintro ⟨d, common⟩
      refine bind_congr fun _ => ?_
      split
      · rfl
      · rename_i different
        have proper : d.isOne = false := Bool.eq_false_iff.mpr different
        obtain ⟨kept, nonconstant⟩ :=
          gcd_derivative_proper fits reduced (by omega) derived common proper
        refine bind_congr fun _ => bind_congr fun h => bind_congr fun _ => ?_
        rw [agree d _ kept nonconstant]

theorem Call.Makes.smaller [NeZero m] (fits : m < Word.long) {token : Token} {caller callee : Call}
    (reduced : caller.polynomial.Reduced m) (makes : caller.Makes token callee) :
    callee.polynomial.Reduced m ∧ callee.level = caller.level + 1 ∧
      1 ≤ callee.polynomial.degree ∧ callee.polynomial.degree < caller.polynomial.degree := by
  obtain ⟨answers, others, agree, differ⟩ := makes
  by_contra unlike
  apply differ
  refine activation_congr fits reduced token fun v smaller kept nonconstant => ?_
  apply agree
  rintro rfl
  exact unlike ⟨kept, rfl, nonconstant, smaller⟩

theorem Call.level_add_degree_le [NeZero m] (fits : m < Word.long) {token : Token} {f : Poly}
    (reduced : f.Reduced m) {call : Call}
    (reached : Relation.ReflTransGen (Call.Makes token) ⟨f, 0⟩ call) :
    call.polynomial.Reduced m ∧ call.level + call.polynomial.degree ≤ f.degree ∧
      (call.level = 0 ∨ 1 ≤ call.polynomial.degree) := by
  induction reached with
  | refl => exact ⟨reduced, Nat.le_of_eq (Nat.zero_add _), Or.inl rfl⟩
  | tail _ makes ih =>
      obtain ⟨kept, bound, _⟩ := ih
      obtain ⟨calleeReduced, deeper, nonconstant, smaller⟩ := makes.smaller fits kept
      exact ⟨calleeReduced, by omega, Or.inr nonconstant⟩

/-! ## A limit on the level -/

/-- The decomposition, stopped short by the first call on a level above the limit. -/
def decomposeWithin (token : Token) (limit : Nat) (f : Poly) (level : Nat) : Traced (List Poly) :=
  if limit < level then
    throw (.breach .outOfRange)
  else
    activation token f level fun v _ deeper => decomposeWithin token limit v deeper
  termination_by f.degree

theorem decomposeWithin_eq [NeZero m] (fits : m < Word.long) {f : Poly} (reduced : f.Reduced m)
    (token : Token) {limit level : Nat} (inside : level ≤ limit)
    (room : level + f.degree ≤ limit + 1) :
    decomposeWithin token limit f level = decomposeAt token f level := by
  induction bound : f.degree using Nat.strong_induction_on generalizing f level with
  | _ degree ih =>
      rw [decomposeWithin, if_neg (Nat.not_lt.mpr inside), decomposeAt]
      refine activation_congr fits reduced token fun v smaller kept nonconstant => ?_
      exact ih v.degree (by omega) kept (by omega) (by omega) rfl

/-- Whatever the modulus, each call of a decomposition makes calls only on polynomials of smaller
degree that are not constant, one level further down. No call is on a level above the degree less
one: stopping there changes neither the outcome nor the trace. -/
theorem recursion_depth (positive : 0 < m) (fits : m < Word.long) {f : Poly}
    (reduced : f.Reduced m) (token : Token) :
    (∀ call, Relation.ReflTransGen (Call.Makes token) ⟨f, 0⟩ call →
      call.level ≤ f.degree - 1 ∧
      ∀ next, call.Makes token next →
        next.level = call.level + 1 ∧ 1 ≤ next.polynomial.degree ∧
          next.polynomial.degree < call.polynomial.degree) ∧
    f.decompose token = decomposeWithin token (f.degree - 1) f 0 := by
  have : NeZero m := ⟨Nat.ne_of_gt positive⟩
  refine ⟨fun call reached => ?_, ?_⟩
  · obtain ⟨kept, bound, started⟩ := Call.level_add_degree_le fits reduced reached
    exact ⟨by omega, fun next makes => (makes.smaller fits kept).2⟩
  · rw [decompose, decomposeWithin_eq fits reduced token (Nat.zero_le _) (by omega)]

/-- Modulo nine `x ^ 2` is decomposed down to the last level that is allowed. Modulo four the run on
`x ^ 8 + 2x ^ 4 + 1` fails one level down, where a leading coefficient is a zero divisor. -/
theorem recursion_depth_composite :
    Call.Makes .fresh ⟨⟨1, [0, 0], 9⟩, 0⟩ ⟨⟨1, [0], 9⟩, 1⟩ ∧ 1 ≤ Poly.degree ⟨1, [0, 0], 9⟩ - 1 ∧
    Poly.degree ⟨1, [0], 9⟩ < Poly.degree ⟨1, [0, 0], 9⟩ ∧
    ((decompose ⟨1, [0, 0, 0, 2, 0, 0, 0, 1], 4⟩ .fresh).runFrom .empty).1
      = .error (.fault (.notInvertible 2 4)) ∧
    decompose ⟨1, [0, 0, 0, 2, 0, 0, 0, 1], 4⟩ .fresh
      = decomposeWithin .fresh 7 ⟨1, [0, 0, 0, 2, 0, 0, 0, 1], 4⟩ 0 := by
  have makes : Call.Makes .fresh ⟨⟨1, [0, 0], 9⟩, 0⟩ ⟨⟨1, [0], 9⟩, 1⟩ := by
    refine ⟨fun v _ level => if v = ⟨1, [0], 9⟩ ∧ level = 1 then pure [] else
      throw (.fault .cancelled), fun _ _ _ => throw (.fault .cancelled), ?_, ?_⟩
    · intro v smaller level different
      exact if_neg fun same => different (by rw [same.1, same.2])
    · intro same
      have outcomes := congrArg (fun run => (Traced.runFrom run .empty).1) same
      revert outcomes
      decide +kernel
  have square := @recursion_depth 9 (by decide) (by decide) ⟨1, [0, 0], 9⟩
    ⟨rfl, by decide, by decide⟩ .fresh
  have root := @recursion_depth 4 (by decide) (by decide) ⟨1, [0, 0, 0, 2, 0, 0, 0, 1], 4⟩
    ⟨rfl, by decide, by decide⟩ .fresh
  obtain ⟨_, _, smaller⟩ := (square.1 _ .refl).2 _ makes
  exact ⟨makes, (square.1 _ (.single makes)).1, smaller, by decide +kernel, root.2⟩

end ResidueAlgebra.Poly
