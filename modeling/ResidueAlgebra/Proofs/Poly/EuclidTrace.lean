import ResidueAlgebra.Poly.Euclid
import ResidueAlgebra.Proofs.Computation

/-!
# The written Euclidean algorithm

The algorithm that writes its steps down is compared with the plain one through the divisions that
both of them make. They end at a zero divisor or at a division that fails, so the outcome is the
same for any operands, and every division but a failing one has three lines in the trace. The weight
of the divisor falls with each division, which bounds their number.
-/
set_option autoImplicit false
namespace ResidueAlgebra.Poly

structure DivisionStep where
  dividend : Poly
  divisor : Poly
  quotient : Poly
  remainder : Poly

/-- From the first pair to the second by the given divisions, the divisor and the remainder of each
being the next pair. -/
inductive Divisions : Poly → Poly → List DivisionStep → Poly → Poly → Prop
  | none (f g : Poly) : Divisions f g [] f g
  | step {f g quotient remainder last rest : Poly} {steps : List DivisionStep}
      (nonzero : g.isZero = false) (divided : f.divMod g = .ok (quotient, remainder))
      (further : Divisions g remainder steps last rest) :
      Divisions f g (⟨f, g, quotient, remainder⟩ :: steps) last rest

/-! ## The lines -/

def openingLines (number : Nat) (f g : Poly) : List String :=
  [s!"Step {number}:", s!"gcd({f.text}, {g.text})"]

def DivisionStep.lines (number : Nat) : DivisionStep → List String
  | ⟨f, g, quotient, remainder⟩ =>
      openingLines number f g ++
        [s!"{f.text} ÷ {g.text} = {quotient.text} remainder {remainder.text}"]

def stepLines (number : Nat) : List DivisionStep → List String
  | [] => []
  | step :: steps => step.lines number ++ stepLines (number + 1) steps

def closingLines (last result : Poly) : List String :=
  (if result ≠ last then
    [s!"Last non-zero remainder {last.text} made monic: {result.text}"]
  else
    []) ++ ["", s!"gcd = {result.text}"]

theorem weight_le_succ_degree (f : Poly) : f.weight ≤ f.degree + 1 := by
  rw [weight]
  split
  · exact Nat.zero_le _
  · exact Nat.le_refl _

theorem rem_eq_of_divMod {f g quotient remainder : Poly}
    (divided : f.divMod g = .ok (quotient, remainder)) : f.rem g = .ok remainder := by
  rw [rem, divided, Outcome.ok_bind]

theorem lastRemainder_of_ne_zero {f g : Poly} (nonzero : g.isZero = false) :
    lastRemainder f g = f.rem g >>= lastRemainder g := by
  rw [lastRemainder, if_neg (by simp [nonzero]), rem]
  split
  · rename_i halt failed
    rw [failed]
    rfl
  · rename_i quotient remainder divided
    rw [divided]
    rfl

namespace Divisions

variable {f g last rest : Poly} {steps : List DivisionStep}

theorem length_add_weight_le (divisions : Divisions f g steps last rest) :
    steps.length + rest.weight ≤ g.weight := by
  induction divisions with
  | none => exact Nat.le_of_eq (Nat.zero_add _)
  | step nonzero divided further ih =>
      have smaller := weight_remainder_lt divided
      rw [List.length_cons]
      omega

theorem length_le (divisions : Divisions f g steps last rest) : steps.length ≤ g.degree + 1 := by
  have weighed := divisions.length_add_weight_le
  have bound := g.weight_le_succ_degree
  omega

theorem lastRemainder_eq (divisions : Divisions f g steps last rest) :
    lastRemainder f g = lastRemainder last rest := by
  induction divisions with
  | none => rfl
  | step nonzero divided further ih =>
      rw [lastRemainder_of_ne_zero nonzero, rem_eq_of_divMod divided, Outcome.ok_bind, ih]

end Divisions

/-! ## The loop -/

/-- The loop makes divisions and writes three lines for each. It ends at a zero divisor, or at a
division that fails, which has only its opening lines. -/
theorem lastRemainderTraced_yields (number : Nat) (f g : Poly) :
    ∃ steps last rest, Divisions f g steps last rest ∧
      ((rest.isZero = true ∧
        Traced.Yields (lastRemainderTraced number f g) (.ok last) (stepLines number steps)) ∨
      ∃ halt, rest.isZero = false ∧ last.divMod rest = .error halt ∧
        Traced.Yields (lastRemainderTraced number f g) (.error halt)
          (stepLines number steps ++ openingLines (number + steps.length) last rest)) := by
  fun_induction lastRemainder f g generalizing number with
  | case1 f g zero =>
      refine ⟨[], f, g, .none f g, Or.inl ⟨zero, ?_⟩⟩
      rw [lastRemainderTraced, if_pos zero]
      exact Traced.yields_pure f
  | case2 f g nonzero halt failed =>
      refine ⟨[], f, g, .none f g, Or.inr ⟨halt, Bool.eq_false_iff.mpr nonzero, failed, ?_⟩⟩
      rw [lastRemainderTraced, if_neg nonzero]
      exact .after_note (.after_note (.after_error (Outcome.attach_eq_error failed)))
  | case3 f g nonzero quotient remainder divided ih =>
      -- The division that succeeded comes first, then whatever the loop does with its remainder.
      have continued : ∀ {outcome : Outcome Poly} {lines : List String},
          Traced.Yields (lastRemainderTraced (number + 1) g remainder) outcome lines →
          Traced.Yields (lastRemainderTraced number f g) outcome
            (DivisionStep.lines number ⟨f, g, quotient, remainder⟩ ++ lines) := by
        intro outcome lines yields
        rw [lastRemainderTraced, if_neg nonzero]
        exact .after_note (.after_note (.after_ok (Outcome.attach_eq divided) (.after_note yields)))
      obtain ⟨steps, last, rest, divisions, ended⟩ := ih (number + 1)
      refine ⟨_, last, rest, .step (Bool.eq_false_iff.mpr nonzero) divided divisions, ?_⟩
      rcases ended with ⟨zero, yields⟩ | ⟨halt, nonzero, failed, yields⟩
      · exact Or.inl ⟨zero, continued yields⟩
      · refine Or.inr ⟨halt, nonzero, failed, ?_⟩
        have lines := continued yields
        rwa [← List.append_assoc, Nat.add_assoc, Nat.add_comm 1] at lines

/-! ## A limit on the number of a step -/

/-- The loop, stopped by a step whose number does not stay below the limit. -/
def lastRemainderWithin (limit number : Nat) (f g : Poly) : Traced Poly :=
  if g.isZero then
    pure f
  else do
    Traced.note s!"Step {number}:"
    Traced.note s!"gcd({f.text}, {g.text})"
    let ⟨(quotient, remainder), _⟩ ← (f.divMod g).attach
    Traced.note s!"{f.text} ÷ {g.text} = {quotient.text} remainder {remainder.text}"
    let next ← Word.fit limit (number + 1)
    lastRemainderWithin limit next g remainder
  termination_by g.weight
  decreasing_by
    rename_i divided
    exact weight_remainder_lt divided

theorem lastRemainderWithin_eq {limit number : Nat} {f g : Poly}
    (room : number + g.weight < limit) :
    lastRemainderWithin limit number f g = lastRemainderTraced number f g := by
  induction size : g.weight using Nat.strongRecOn generalizing number f g with
  | _ weight ih =>
      rw [lastRemainderWithin, lastRemainderTraced]
      split
      · rfl
      · refine bind_congr fun _ => bind_congr fun _ => bind_congr ?_
        rintro ⟨⟨quotient, remainder⟩, divided⟩
        refine bind_congr fun _ => ?_
        -- The number gains one and the weight of the divisor loses at least one.
        have smaller := weight_remainder_lt divided
        rw [Word.fit_of_lt (by omega)]
        exact ih remainder.weight (by omega) (by omega) rfl

/-- A number with room for two more than the degree of the divisor never runs out, so a check of it
changes neither the outcome nor the trace. -/
theorem lastRemainderTraced_within {limit : Nat} (f : Poly) {g : Poly}
    (room : g.degree + 2 < limit) :
    lastRemainderWithin limit 1 f g = lastRemainderTraced 1 f g := by
  have bound := g.weight_le_succ_degree
  exact lastRemainderWithin_eq (by omega)

/-! ## The whole algorithm -/

theorem gcdTraced_yields (f g : Poly) :
    ∃ steps last rest lines, Divisions f g steps last rest ∧
      Traced.Yields (gcdTraced f g) (gcd f g) lines ∧
      ∀ d, gcd f g = .ok d → rest.isZero = true ∧ last.monic = .ok d ∧
        lines = stepLines 1 steps ++ closingLines last d := by
  obtain ⟨steps, last, rest, divisions, ended⟩ := lastRemainderTraced_yields 1 f g
  rw [gcd, divisions.lastRemainder_eq, gcdTraced]
  rcases ended with ⟨zero, loop⟩ | ⟨halt, nonzero, failed, loop⟩
  · have plain : lastRemainder last rest = .ok last := by rw [lastRemainder, if_pos zero]
    rw [plain, Outcome.ok_bind]
    cases scaled : last.monic with
    | error halt =>
        refine ⟨steps, last, rest, _, divisions, .bind loop (.after_error scaled), ?_⟩
        intro d same
        cases same
    | ok result =>
        refine ⟨steps, last, rest, stepLines 1 steps ++ closingLines last result, divisions,
          .bind loop (.after_ok scaled ?_), ?_⟩
        · rw [closingLines]
          split
          · exact .after_note (.after_blank (.after_note (Traced.yields_pure result)))
          · exact .after_blank (.after_note (Traced.yields_pure result))
        · intro d same
          cases same
          exact ⟨zero, scaled, rfl⟩
  · have plain : lastRemainder last rest = .error halt := by
      rw [lastRemainder_of_ne_zero nonzero, rem, failed]
      rfl
    rw [plain]
    refine ⟨steps, last, rest, _, divisions, loop.bind_error, ?_⟩
    intro d same
    cases same

end ResidueAlgebra.Poly
