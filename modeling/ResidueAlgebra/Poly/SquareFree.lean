import ResidueAlgebra.Poly.Euclid
import ResidueAlgebra.Cancellation

/-!
# Square-free decomposition

A polynomial of degree below two is a factor. With derivative zero it is a power of its root in the
characteristic, whose factors are repeated that often. If it has no common divisor with its
derivative it is square-free, and otherwise the common divisor is decomposed and the cofactor
appended. Multiplicities are not tracked; the product of the factors is the polynomial.
-/
set_option autoImplicit false
namespace ResidueAlgebra.Poly

/-- The highest exponent of a non-zero term that `characteristic` does not divide. -/
def offendingExponent (characteristic : Nat) : List Nat → Option Nat
  | [] => none
  | coefficient :: rest =>
      if coefficient ≠ 0 ∧ rest.length % characteristic ≠ 0 then
        some rest.length
      else
        offendingExponent characteristic rest

/-- Every `step`-th coefficient, from the first one that is left after `skip` of them. -/
def stride (step : Nat) : Nat → List Nat → List Nat
  | _, [] => []
  | 0, coefficient :: rest => coefficient :: stride step (step - 1) rest
  | skip + 1, _ :: rest => stride step skip rest

/-- The polynomial `v` with `v(x^p)` the given one, for `p` the modulus. Its coefficients are found
from the leading one down; they line up because the leading exponent is a multiple of `p` as well. -/
def pthRoot (f : Poly) : Outcome Poly :=
  if f.modulus = 0 then
    Outcome.breach .zeroModulus
  else
    match offendingExponent f.modulus f.coefficients with
    | some exponent => Outcome.fault (.notPthPower exponent f.modulus)
    | none => ofResidues (stride f.modulus 0 f.coefficients) f.modulus

/-! ## The recursion shrinks the degree -/

theorem stride_length_le (step skip : Nat) (coefficients : List Nat) :
    (stride step skip coefficients).length ≤ coefficients.length := by
  induction coefficients generalizing skip with
  | nil => simp [stride]
  | cons coefficient rest ih =>
      cases skip with
      | zero => simpa [stride] using ih (step - 1)
      | succ skip => exact Nat.le_succ_of_le (ih skip)

theorem stride_length_lt {step : Nat} (proper : 2 ≤ step) (first second : Nat) (rest : List Nat) :
    (stride step 0 (first :: second :: rest)).length < rest.length + 2 := by
  obtain ⟨skip, rfl⟩ : ∃ skip, step = skip + 2 := ⟨step - 2, by omega⟩
  have bound := stride_length_le (skip + 2) skip rest
  simp only [stride, Nat.add_one_sub_one, List.length_cons]
  omega

theorem trim_of_zeros {modulus : Nat} {coefficients : List Nat}
    (zeros : ∀ coefficient ∈ coefficients, coefficient = 0) :
    (trim modulus coefficients).degree = 0 := by
  induction coefficients with
  | nil => rfl
  | cons coefficient rest ih =>
      rw [trim, if_pos (zeros coefficient (List.mem_cons_self ..))]
      exact ih fun later member => zeros later (List.mem_cons_of_mem _ member)

theorem reduce_one_zeros {coefficients residues : List Nat}
    (success : coefficients.mapM (fun coefficient => Residue.reduce coefficient 1)
      = Except.ok residues) :
    ∀ residue ∈ residues, residue = 0 := by
  induction coefficients generalizing residues with
  | nil =>
      rw [List.mapM_nil] at success
      cases success
      simp
  | cons coefficient rest ih =>
      rw [List.mapM_cons] at success
      obtain ⟨first, head, success⟩ := Outcome.bind_eq_ok success
      obtain ⟨others, tail, success⟩ := Outcome.bind_eq_ok success
      cases success
      rw [Residue.reduce_eq (by decide), Nat.mod_one] at head
      cases head
      intro residue member
      rcases List.mem_cons.mp member with rfl | later
      · rfl
      · exact ih tail residue later

theorem degree_pthRoot_lt {f v : Poly} (success : f.pthRoot = .ok v) (large : 2 ≤ f.degree) :
    v.degree < f.degree := by
  rw [pthRoot] at success
  split at success
  · cases success
  · rename_i positive
    split at success
    · cases success
    · by_cases trivial : f.modulus = 1
      · rw [trivial, ofResidues] at success
        obtain ⟨residues, reduced, success⟩ := Outcome.bind_eq_ok success
        cases success
        rw [trim_of_zeros (reduce_one_zeros reduced)]
        omega
      · have bound := degree_ofResidues_le success
        cases shape : f.lower with
        | nil =>
            simp [degree, shape] at large
        | cons second rest =>
            have shorter := @stride_length_lt f.modulus (by omega) f.leading second rest
            rw [coefficients, shape] at bound
            simp only [degree, shape, List.length_cons] at large bound ⊢
            omega

/-! ## Decomposition -/

/-- The list repeated `count` times. In a decomposition that is never more factors than the degree of
the polynomial they belong to. -/
def repeated (count : Nat) (factors : List Poly) : List Poly :=
  (List.replicate count factors).flatten

/-- What a call on `f` does, with `recurse` in place of the calls that it makes in turn. -/
def activation (token : Token) (f : Poly) (level : Nat)
    (recurse : (v : Poly) → v.degree < f.degree → Nat → Traced (List Poly)) :
    Traced (List Poly) := do
  token.check
  Traced.blank
  Traced.note s!"Decomposing f(x) = {f.text} (level {level})"
  if _ : f.degree < 2 then
    Traced.note s!"deg f(x) = {f.degree} < 2"
    Traced.note s!"Result: f(x) = {f.text}"
    return [f]
  else
    Traced.note s!"deg f(x) = {f.degree} >= 2"
    let ⟨g, derived⟩ ← f.derivative.attach
    Traced.note s!"g(x) = f'(x) = {g.text}"
    if vanishes : g.isZero = true then
      let ⟨v, root⟩ ← f.pthRoot.attach
      Traced.note s!"g(x) = 0, so f(x) = (v(x))^{f.modulus}"
      Traced.note s!"v(x) = {v.text}"
      let factors ← recurse v (degree_pthRoot_lt root (by omega)) (level + 1)
      return repeated f.modulus factors
    else
      Traced.note "g(x) != 0"
      let ⟨d, common⟩ ← (gcd f g).attach
      Traced.note s!"d(x) = gcd(f(x), g(x)) = {d.text}"
      if d.isOne then
        Traced.note "d(x) = 1, so f(x) is square-free"
        return [f]
      else
        Traced.note "d(x) != 1"
        let h ← f.div d
        Traced.note s!"f(x) = d(x) * h(x), where d(x) = {d.text}, h(x) = {h.text}"
        let factors ← recurse d
          (Nat.lt_of_le_of_lt (degree_gcd_le (by simpa using vanishes) common)
            (degree_derivative_lt derived (by omega))) (level + 1)
        return factors ++ [h]

def decomposeAt (token : Token) (f : Poly) (level : Nat) : Traced (List Poly) :=
  activation token f level fun v _ deeper => decomposeAt token v deeper
  termination_by f.degree

/-- Factors of `f` whose product, in order and with repetition, is `f`. -/
def decompose (f : Poly) (token : Token) : Traced (List Poly) :=
  decomposeAt token f 0

end ResidueAlgebra.Poly
