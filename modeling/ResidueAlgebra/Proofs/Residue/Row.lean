import ResidueAlgebra.Proofs.Residue.Ring
import ResidueAlgebra.Residue.Row

/-!
# Row operations in the ring of residues

A row minus a multiple of another one, and the sum of products of two rows, as operations in
`ZMod modulus`. `rowMinus` is the subtraction without the checks of the machine.
-/
set_option autoImplicit false
namespace ResidueAlgebra.Residue

variable {modulus : Nat}

def rowMinus (factor : ZMod modulus) : List Nat → List Nat → List Nat
  | entry :: entries, coefficient :: coefficients =>
      (entry - factor * coefficient : ZMod modulus).val :: rowMinus factor entries coefficients
  | entries, [] => entries
  | [], _ => []

@[simp] theorem rowMinus_nil (factor : ZMod modulus) (entries : List Nat) :
    rowMinus factor entries [] = entries := by
  cases entries <;> rfl

@[simp] theorem rowMinus_length (factor : ZMod modulus) (entries coefficients : List Nat) :
    (rowMinus factor entries coefficients).length = entries.length := by
  induction entries generalizing coefficients with
  | nil => cases coefficients <;> rfl
  | cons entry entries ih =>
      cases coefficients with
      | nil => rfl
      | cons coefficient coefficients => simp [rowMinus, ih]

theorem rowMinus_lt [NeZero modulus] (factor : ZMod modulus) {entries : List Nat}
    (coefficients : List Nat) (below : ∀ entry ∈ entries, entry < modulus) :
    ∀ entry ∈ rowMinus factor entries coefficients, entry < modulus := by
  induction entries generalizing coefficients with
  | nil =>
      cases coefficients <;> simp [rowMinus]
  | cons entry entries ih =>
      cases coefficients with
      | nil => exact below
      | cons coefficient coefficients =>
          intro changed member
          rcases List.mem_cons.mp member with rfl | later
          · exact ZMod.val_lt _
          · exact ih coefficients (fun kept present =>
              below kept (List.mem_cons_of_mem _ present)) changed later

theorem rowMinus_zero [NeZero modulus] {entries : List Nat} (coefficients : List Nat)
    (below : ∀ entry ∈ entries, entry < modulus) :
    rowMinus (0 : ZMod modulus) entries coefficients = entries := by
  induction entries generalizing coefficients with
  | nil => cases coefficients <;> rfl
  | cons entry entries ih =>
      cases coefficients with
      | nil => rfl
      | cons coefficient coefficients =>
          obtain ⟨small, restBelow⟩ := List.forall_mem_cons.mp below
          rw [rowMinus, ih coefficients restBelow, zero_mul, sub_zero, ZMod.val_cast_of_lt small]

theorem rowMinus_getD [NeZero modulus] (factor : ZMod modulus) {entries coefficients : List Nat}
    (covered : coefficients.length ≤ entries.length) (column : Nat) :
    (((rowMinus factor entries coefficients).getD column 0 : Nat) : ZMod modulus)
      = entries.getD column 0 - factor * coefficients.getD column 0 := by
  induction entries generalizing coefficients column with
  | nil =>
      have empty : coefficients = [] := List.length_eq_zero_iff.mp (Nat.le_zero.mp covered)
      simp [empty]
  | cons entry entries ih =>
      cases coefficients with
      | nil => simp
      | cons coefficient coefficients =>
          cases column with
          | zero => simp [rowMinus]
          | succ column =>
              simpa [rowMinus] using ih (Nat.le_of_succ_le_succ covered) column

theorem subtractMultiple_val [NeZero modulus] {factor : Nat} (factorFits : factor < Word.long)
    (entries : List Nat) {coefficients : List Nat}
    (coefficientsFit : ∀ coefficient ∈ coefficients, coefficient < Word.long) :
    subtractMultiple modulus factor entries coefficients
      = .ok (rowMinus (factor : ZMod modulus) entries coefficients) := by
  induction entries generalizing coefficients with
  | nil => cases coefficients <;> rfl
  | cons entry entries ih =>
      cases coefficients with
      | nil => rfl
      | cons coefficient coefficients =>
          obtain ⟨coefficientFits, restFit⟩ := List.forall_mem_cons.mp coefficientsFit
          rw [subtractMultiple, mul_val factorFits coefficientFits, Outcome.ok_bind, sub_val,
            Outcome.ok_bind, ih restFit, Outcome.ok_bind, ZMod.natCast_zmod_val]
          rfl

theorem foldlM_sum_val {α : Type} [NeZero modulus] {step : Nat → α → Outcome Nat}
    (term : α → ZMod modulus) {items : List α}
    (steps : ∀ sum : ZMod modulus, ∀ item ∈ items, step sum.val item = .ok (sum + term item).val) :
    items.foldlM step 0 = .ok (items.map term).sum.val := by
  have general : ∀ start : ZMod modulus,
      items.foldlM step start.val = .ok (start + (items.map term).sum).val := by
    induction items with
    | nil =>
        intro start
        rw [List.map_nil, List.sum_nil, add_zero]
        rfl
    | cons item rest ih =>
        intro start
        rw [List.foldlM_cons, steps start item (List.mem_cons_self ..), Outcome.ok_bind,
          ih (fun sum later member => steps sum later (List.mem_cons_of_mem _ member)),
          List.map_cons, List.sum_cons, add_assoc]
  simpa using general 0

theorem dot_val [NeZero modulus] (fits : modulus < Word.long) {left right : List Nat}
    (leftFits : ∀ entry ∈ left, entry < Word.long)
    (rightFits : ∀ entry ∈ right, entry < Word.long) :
    dot modulus left right
      = .ok ((left.zip right).map fun pair => (pair.1 * pair.2 : ZMod modulus)).sum.val := by
  unfold dot
  apply foldlM_sum_val
  rintro sum ⟨entry, unknown⟩ member
  obtain ⟨inLeft, inRight⟩ := List.of_mem_zip member
  dsimp only
  rw [mul_val (leftFits entry inLeft) (rightFits unknown inRight), Outcome.ok_bind,
    add_val (val_lt_long fits sum) (val_lt_long fits _), ZMod.natCast_zmod_val,
    ZMod.natCast_zmod_val]

end ResidueAlgebra.Residue
