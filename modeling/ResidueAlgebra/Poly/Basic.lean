import ResidueAlgebra.Residue.Inverse

/-!
# Polynomials over residues

A polynomial has at least one coefficient, stored from the highest degree down; the zero polynomial
is the single coefficient zero and reports degree zero. `Poly.ofResidues` reduces its coefficients
and drops leading zeros, and every operation ends with it, so polynomials built by the operations
are normalized. The modulus need not be prime.
-/
set_option autoImplicit false
namespace ResidueAlgebra

structure Poly where
  leading : Nat
  lower : List Nat
  modulus : Nat
  deriving DecidableEq

namespace Poly

def coefficients (f : Poly) : List Nat :=
  f.leading :: f.lower

def degree (f : Poly) : Nat :=
  f.lower.length

def isZero (f : Poly) : Bool :=
  f.leading == 0 && f.lower.isEmpty

def isOne (f : Poly) : Bool :=
  f.leading == 1 && f.lower.isEmpty

def isConstant (f : Poly) : Bool :=
  f.lower.isEmpty

/-- Non-empty, all coefficients below the modulus, and no leading zero unless it stands alone. -/
def Normalized (f : Poly) : Prop :=
  (∀ coefficient ∈ f.coefficients, coefficient < f.modulus) ∧ (f.leading = 0 → f.lower = [])

/-! ## Construction -/

def trim (modulus : Nat) : List Nat → Poly
  | [] => ⟨0, [], modulus⟩
  | coefficient :: rest =>
      if coefficient = 0 then trim modulus rest else ⟨coefficient, rest, modulus⟩

def ofResidues (coefficients : List Nat) (modulus : Nat) : Outcome Poly := do
  let residues ← coefficients.mapM fun coefficient => Residue.reduce coefficient modulus
  .ok (trim modulus residues)

def ofIntegers (coefficients : List Int) (modulus : Nat) : Outcome Poly := do
  let residues ← coefficients.mapM fun coefficient => Residue.ofInt coefficient modulus
  ofResidues residues modulus

/-- The coefficients as they stand; there has to be at least one. -/
def ofCoefficients (coefficients : List Nat) (modulus : Nat) : Outcome Poly :=
  match coefficients with
  | [] => Outcome.breach .outOfRange
  | leading :: lower => .ok ⟨leading, lower, modulus⟩

def zero (modulus : Nat) : Poly :=
  ⟨0, [], modulus⟩

def one (modulus : Nat) : Outcome Poly :=
  ofResidues [1] modulus

/-- The number of coefficients, one more than the exponent, has to fit a word. -/
def monomial (coefficient exponent modulus : Nat) : Outcome Poly := do
  let width ← Word.fit Word.long (exponent + 1)
  ofResidues ((List.replicate width 0).set 0 coefficient) modulus

/-! ## Coefficients by exponent -/

/-- Coefficients from the lowest degree up, filled with zeros to `width`. -/
def ascending (f : Poly) (width : Nat) : List Nat :=
  f.coefficients.reverse ++ List.replicate (width - f.coefficients.length) 0

def coefficient (f : Poly) (exponent : Nat) : Nat :=
  f.coefficients.reverse[exponent]?.getD 0

/-! ## Ring operations -/

def evaluate (f : Poly) (x : Nat) : Outcome Nat :=
  f.coefficients.foldlM
    (fun value coefficient => do
      let shifted ← Residue.mul value x f.modulus
      Residue.add shifted coefficient f.modulus)
    0

/-- Each coefficient but the last times its exponent. -/
def derivativeTerms (modulus : Nat) : List Nat → Outcome (List Nat)
  | [] => .ok []
  | [_] => .ok []
  | coefficient :: rest => do
      let weight ← Residue.reduce rest.length modulus
      let term ← Residue.mul weight coefficient modulus
      let terms ← derivativeTerms modulus rest
      .ok (term :: terms)

def derivative (f : Poly) : Outcome Poly :=
  if f.degree = 0 then
    .ok (zero f.modulus)
  else do
    let terms ← derivativeTerms f.modulus f.coefficients
    ofResidues terms f.modulus

def scale (f : Poly) (factor : Nat) : Outcome Poly := do
  let scaled ← f.coefficients.mapM fun coefficient => Residue.mul coefficient factor f.modulus
  ofResidues scaled f.modulus

def padded (width : Nat) (coefficients : List Nat) : List Nat :=
  List.replicate (width - coefficients.length) 0 ++ coefficients

def add (f g : Poly) : Outcome Poly :=
  if f.modulus = g.modulus then do
    let width := max f.coefficients.length g.coefficients.length
    let pairs := (padded width f.coefficients).zip (padded width g.coefficients)
    let sums ← pairs.mapM fun (left, right) => Residue.add left right f.modulus
    ofResidues sums f.modulus
  else
    Outcome.breach .moduliDiffer

/-- Sum of two lists of coefficients that start at the same exponent. -/
def addAligned (modulus : Nat) : List Nat → List Nat → Outcome (List Nat)
  | left :: lefts, right :: rights => do
      let sum ← Residue.add left right modulus
      let sums ← addAligned modulus lefts rights
      .ok (sum :: sums)
  | [], rights => .ok rights
  | lefts, [] => .ok lefts

/-- The product row by row: the first coefficient of the left operand times the right one, plus the
product of the remaining ones, which starts one exponent lower. -/
def productTerms (modulus : Nat) (right : List Nat) : List Nat → Outcome (List Nat)
  | [] => .ok (List.replicate (right.length - 1) 0)
  | coefficient :: rest => do
      let row ← right.mapM fun factor => Residue.mul coefficient factor modulus
      let terms ← productTerms modulus right rest
      addAligned modulus row (0 :: terms)

def multiply (f g : Poly) : Outcome Poly :=
  if f.modulus = g.modulus then
    if f.isZero || g.isZero then
      .ok (zero f.modulus)
    else do
      let terms ← productTerms f.modulus g.coefficients f.coefficients
      ofResidues terms f.modulus
  else
    Outcome.breach .moduliDiffer

def leadingInverse (f : Poly) : Outcome Nat :=
  match Residue.inverse f.leading f.modulus with
  | some inverse => .ok inverse
  | none => Outcome.fault (.notInvertible f.leading f.modulus)

/-- Scales the leading coefficient to one; the zero polynomial stays as it is. -/
def monic (f : Poly) : Outcome Poly :=
  if f.isZero then
    .ok f
  else do
    let inverse ← f.leadingInverse
    f.scale inverse

/-! ## Sizes -/

theorem degree_trim_le (modulus : Nat) (coefficients : List Nat) :
    (trim modulus coefficients).degree ≤ coefficients.length - 1 := by
  induction coefficients with
  | nil => simp [trim, degree]
  | cons coefficient rest ih =>
      rw [trim]
      split
      · simp only [List.length_cons]
        omega
      · simp [degree]

theorem degree_ofResidues_le {coefficients : List Nat} {modulus : Nat} {f : Poly}
    (success : ofResidues coefficients modulus = .ok f) : f.degree ≤ coefficients.length - 1 := by
  rw [ofResidues] at success
  obtain ⟨residues, reduced, success⟩ := Outcome.bind_eq_ok success
  cases success
  rw [← Outcome.mapM_length reduced]
  exact degree_trim_le modulus residues

theorem degree_scale_le {f g : Poly} {factor : Nat} (success : f.scale factor = .ok g) :
    g.degree ≤ f.degree := by
  rw [scale] at success
  obtain ⟨products, scaled, success⟩ := Outcome.bind_eq_ok success
  have bound := degree_ofResidues_le success
  rw [Outcome.mapM_length scaled] at bound
  simpa [coefficients, degree] using bound

theorem degree_monic_le {f g : Poly} (success : f.monic = .ok g) : g.degree ≤ f.degree := by
  rw [monic] at success
  split at success
  · cases success
    exact Nat.le_refl _
  · obtain ⟨inverse, _, success⟩ := Outcome.bind_eq_ok success
    exact degree_scale_le success

theorem derivativeTerms_length {modulus : Nat} {coefficients terms : List Nat}
    (success : derivativeTerms modulus coefficients = .ok terms) :
    terms.length = coefficients.length - 1 := by
  induction coefficients generalizing terms with
  | nil =>
      cases success
      rfl
  | cons coefficient rest ih =>
      cases rest with
      | nil =>
          cases success
          rfl
      | cons next others =>
          rw [derivativeTerms] at success
          · obtain ⟨weight, _, success⟩ := Outcome.bind_eq_ok success
            obtain ⟨term, _, success⟩ := Outcome.bind_eq_ok success
            obtain ⟨tail, inner, success⟩ := Outcome.bind_eq_ok success
            cases success
            simp [ih inner]
          · simp

theorem degree_derivative_lt {f g : Poly} (success : f.derivative = .ok g)
    (positive : 0 < f.degree) : g.degree < f.degree := by
  rw [derivative, if_neg (Nat.ne_of_gt positive)] at success
  obtain ⟨terms, weighted, success⟩ := Outcome.bind_eq_ok success
  have bound := degree_ofResidues_le success
  rw [derivativeTerms_length weighted] at bound
  simp only [coefficients, List.length_cons, Nat.add_sub_cancel] at bound
  simp only [degree] at positive bound ⊢
  omega

end Poly

end ResidueAlgebra
