import ResidueAlgebra.Fault

/-!
# Machine words

Numbers are mathematical integers throughout; the widths of the machine words they live in are
checks placed where a computation could leave its word. `Word.fit` answers the number itself when it
fits and is a breach otherwise, so a computation that returns a value has stayed inside its words.

The length of a list is taken as it is. Where lengths are added up or multiplied, or something is
counted along a list, there is no check but a bound by the length of a list that is there.
-/
set_option autoImplicit false
namespace ResidueAlgebra.Word

/-- Exponents of prime powers are below this bound, 2 to the 32. -/
def short : Nat := 4294967296

/-- Operands, moduli and counters are below this bound, 2 to the 64. -/
def long : Nat := 18446744073709551616

/-- Intermediate sums and products are below this bound, 2 to the 128. -/
def wide : Nat := 340282366920938463463374607431768211456

/-- Signed intermediate values have absolute value at most this bound, 2 to the 127. -/
def wideSigned : Nat := 170141183460469231731687303715884105728

@[inline] def fit (limit value : Nat) : Outcome Nat :=
  if value < limit then .ok value else Outcome.breach .overflow

/-- A signed value that fits a double-width word. -/
def fitSigned (value : Int) : Outcome Int :=
  if -(wideSigned : Int) ≤ value ∧ value < (wideSigned : Int) then .ok value
  else Outcome.breach .overflow

/-- Difference of two words; a negative difference is a breach. -/
@[inline] def minus (left right : Nat) : Outcome Nat :=
  if right ≤ left then .ok (left - right) else Outcome.breach .overflow

/-- A power below `limit`, by repeated squaring. -/
def power (limit base exponent : Nat) : Outcome Nat :=
  if exponent = 0 then
    fit limit 1
  else if exponent = 1 then
    fit limit base
  else do
    let square ← fit limit (base * base)
    let root ← power limit square (exponent / 2)
    if exponent % 2 = 1 then fit limit (base * root) else .ok root
  termination_by exponent

theorem fit_of_lt {limit value : Nat} (inside : value < limit) : fit limit value = .ok value := by
  simp [fit, inside]

theorem fitSigned_of_bounds {value : Int} (lower : -(wideSigned : Int) ≤ value)
    (upper : value < (wideSigned : Int)) : fitSigned value = .ok value := by
  simp [fitSigned, lower, upper]

theorem minus_of_le {left right : Nat} (ordered : right ≤ left) :
    minus left right = .ok (left - right) := by
  simp [minus, ordered]

/-- The product of two words fits a double-width word. -/
theorem mul_lt_wide {left right : Nat} (leftFits : left < long) (rightFits : right < long) :
    left * right < wide := by
  have bound : left * right < long * long := Nat.mul_lt_mul'' leftFits rightFits
  simpa only [long, wide] using bound

theorem eq_of_fit {limit value result : Nat} (success : fit limit value = .ok result) :
    result = value := by
  unfold fit at success
  split at success
  · cases success
    rfl
  · cases success

theorem eq_of_minus {left right difference : Nat} (success : minus left right = .ok difference) :
    difference = left - right := by
  unfold minus at success
  split at success
  · cases success
    rfl
  · cases success

end ResidueAlgebra.Word
