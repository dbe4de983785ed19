import ResidueAlgebra.Word

/-!
# Residue arithmetic

Addition, subtraction, multiplication and powers modulo `modulus`, for operands that need not be
reduced. Sums and products are formed in a double-width word before they are reduced, so every
modulus that fits a word is safe. A zero modulus is a breach.
-/
set_option autoImplicit false
namespace ResidueAlgebra.Residue

@[inline] def reduce (value modulus : Nat) : Outcome Nat :=
  if modulus = 0 then Outcome.breach .zeroModulus else .ok (value % modulus)

def add (left right modulus : Nat) : Outcome Nat := do
  let sum ← Word.fit Word.wide (left + right)
  reduce sum modulus

def sub (left right modulus : Nat) : Outcome Nat := do
  let left ← reduce left modulus
  let right ← reduce right modulus
  if right ≤ left then
    Word.minus left right
  else do
    let gap ← Word.minus right left
    Word.minus modulus gap

def mul (left right modulus : Nat) : Outcome Nat := do
  let product ← Word.fit Word.wide (left * right)
  reduce product modulus

/-- Square and multiply: `result * base ^ exponent`, reading the exponent from its lowest bit. -/
def powLoop (modulus : Nat) (result base exponent : Nat) : Outcome Nat :=
  if exponent = 0 then
    .ok result
  else do
    let result ← if exponent % 2 = 1 then mul result base modulus else .ok result
    let base ← mul base base modulus
    powLoop modulus result base (exponent / 2)
  termination_by exponent

def pow (base exponent modulus : Nat) : Outcome Nat :=
  if modulus = 1 then
    .ok 0
  else do
    let base ← reduce base modulus
    powLoop modulus 1 base exponent

/-- Least non-negative residue of a signed value: the remainder of the division toward zero, lifted
by the modulus once when it is negative. -/
def ofInt (value : Int) (modulus : Nat) : Outcome Nat :=
  if modulus = 0 then
    Outcome.breach .zeroModulus
  else do
    let remainder ← Word.fitSigned (value.tmod modulus)
    if remainder < 0 then do
      let lifted ← Word.fitSigned (remainder + modulus)
      .ok lifted.toNat
    else
      .ok remainder.toNat

/-! ## Values -/

theorem reduce_eq {value modulus : Nat} (positive : 0 < modulus) :
    reduce value modulus = .ok (value % modulus) := by
  rw [reduce, if_neg (Nat.ne_of_gt positive)]

theorem add_eq {left right modulus : Nat} (positive : 0 < modulus) (leftFits : left < Word.long)
    (rightFits : right < Word.long) : add left right modulus = .ok ((left + right) % modulus) := by
  have sumFits : left + right < Word.wide := by
    simp only [Word.long, Word.wide] at *
    omega
  rw [add, Word.fit_of_lt sumFits]
  exact reduce_eq positive

theorem mul_eq {left right modulus : Nat} (positive : 0 < modulus) (leftFits : left < Word.long)
    (rightFits : right < Word.long) : mul left right modulus = .ok (left * right % modulus) := by
  rw [mul, Word.fit_of_lt (Word.mul_lt_wide leftFits rightFits)]
  exact reduce_eq positive

theorem sub_eq {left right modulus : Nat} (positive : 0 < modulus) :
    sub left right modulus = .ok ((left % modulus + (modulus - right % modulus)) % modulus) := by
  have leftBelow : left % modulus < modulus := Nat.mod_lt left positive
  have rightBelow : right % modulus < modulus := Nat.mod_lt right positive
  simp only [sub, reduce_eq positive, bind, Except.bind]
  generalize left % modulus = l at leftBelow ⊢
  generalize right % modulus = r at rightBelow ⊢
  split
  · rename_i ordered
    have wrapped : l + (modulus - r) = l - r + modulus := by omega
    have small : l - r < modulus := by omega
    rw [Word.minus_of_le ordered, wrapped, Nat.add_mod_right, Nat.mod_eq_of_lt small]
  · rename_i unordered
    have gapOrdered : l ≤ r := by omega
    have gapSmall : r - l ≤ modulus := by omega
    have below : l + (modulus - r) < modulus := by omega
    have same : modulus - (r - l) = l + (modulus - r) := by omega
    rw [Word.minus_of_le gapOrdered]
    simp only [Word.minus_of_le gapSmall]
    rw [same, Nat.mod_eq_of_lt below]

end ResidueAlgebra.Residue
