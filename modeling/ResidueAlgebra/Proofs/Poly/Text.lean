import ResidueAlgebra.Poly.Text
import ResidueAlgebra.Proofs.Text.Integer

/-!
# Polynomials read back from their words

The reader takes a text apart at the plus signs and each term at its indeterminate. It gives back
the coefficients of every normalized polynomial from its text alone, so polynomials with the same
text have the same coefficients, whatever their moduli are.
-/
set_option autoImplicit false
namespace ResidueAlgebra.Poly

/-! ## One term -/

def coefficientDigits (coefficient exponent : Nat) : List Char :=
  if coefficient = 1 ∧ exponent ≠ 0 then [] else Nat.toDigits 10 coefficient

def powerDigits : Nat → List Char
  | 0 => []
  | 1 => ['x']
  | exponent => 'x' :: '^' :: Nat.toDigits 10 exponent

def readCoefficient (front : List Char) : Option Nat :=
  if front = [] then some 1 else Text.digits front

def readPower : List Char → Option Nat
  | [] => some 0
  | ['x'] => some 1
  | 'x' :: '^' :: exponent => Text.digits exponent
  | _ => none

def readTerm (characters : List Char) : Option (Nat × Nat) := do
  let coefficient ← readCoefficient (characters.takeWhile (· ≠ 'x'))
  let exponent ← readPower (characters.dropWhile (· ≠ 'x'))
  some (exponent, coefficient)

theorem toList_termText (coefficient exponent : Nat) :
    (termText coefficient exponent).toList
      = coefficientDigits coefficient exponent ++ powerDigits exponent := by
  match exponent with
  | 0 => simp [termText, coefficientDigits, powerDigits, Nat.toString_eq_repr]
  | 1 | exponent + 2 =>
      by_cases single : coefficient = 1 <;>
        simp [termText, coefficientDigits, powerDigits, single, toString]

theorem isDigit_of_mem_coefficientDigits {coefficient exponent : Nat} {character : Char}
    (member : character ∈ coefficientDigits coefficient exponent) : character.isDigit := by
  rw [coefficientDigits] at member
  split at member
  · cases member
  · exact Nat.isDigit_of_mem_toDigits (by decide) (by decide) member

theorem readCoefficient_coefficientDigits (coefficient exponent : Nat) :
    readCoefficient (coefficientDigits coefficient exponent) = some coefficient := by
  rw [coefficientDigits]
  split
  · rename_i left
    simp [readCoefficient, left.1]
  · rw [readCoefficient, if_neg Nat.toDigits_ne_nil, Text.digits_toDigits]

theorem readPower_powerDigits (exponent : Nat) : readPower (powerDigits exponent) = some exponent := by
  match exponent with
  | 0 => rfl
  | 1 => rfl
  | exponent + 2 => exact Text.digits_toDigits (exponent + 2)

theorem readTerm_termText (coefficient exponent : Nat) :
    readTerm (termText coefficient exponent).toList = some (exponent, coefficient) := by
  have front : ∀ character ∈ coefficientDigits coefficient exponent,
      decide (character ≠ 'x') = true := by
    intro character member
    have digit := isDigit_of_mem_coefficientDigits member
    refine decide_eq_true fun indeterminate => ?_
    subst indeterminate
    cases digit
  have taken : (powerDigits exponent).takeWhile (· ≠ 'x') = [] := by
    match exponent with
    | 0 | 1 | exponent + 2 => rfl
  have dropped : (powerDigits exponent).dropWhile (· ≠ 'x') = powerDigits exponent := by
    match exponent with
    | 0 | 1 | exponent + 2 => rfl
  rw [readTerm, toList_termText, List.takeWhile_append_of_pos front,
    List.dropWhile_append_of_pos front, taken, dropped, List.append_nil,
    readCoefficient_coefficientDigits, readPower_powerDigits]
  rfl

theorem mem_termText {coefficient exponent : Nat} {character : Char}
    (member : character ∈ (termText coefficient exponent).toList) :
    character.isDigit ∨ character = 'x' ∨ character = '^' := by
  rw [toList_termText, List.mem_append] at member
  rcases member with front | back
  · exact Or.inl (isDigit_of_mem_coefficientDigits front)
  · match exponent with
    | 0 => cases back
    | 1 => exact Or.inr (Or.inl (List.mem_singleton.mp back))
    | exponent + 2 =>
        rcases List.mem_cons.mp back with indeterminate | back
        · exact Or.inr (Or.inl indeterminate)
        · rcases List.mem_cons.mp back with sign | digits
          · exact Or.inr (Or.inr sign)
          · exact Or.inl (Nat.isDigit_of_mem_toDigits (by decide) (by decide) digits)

theorem mark_not_mem_termText {mark : Char} (noDigit : mark.isDigit = false) (noPower : mark ≠ '^')
    (notIndeterminate : mark ≠ 'x') (coefficient exponent : Nat) :
    mark ∉ (termText coefficient exponent).toList := by
  intro member
  rcases mem_termText member with digit | indeterminate | sign
  · rw [noDigit] at digit
    cases digit
  · exact notIndeterminate indeterminate
  · exact noPower sign

/-! ## Sums of terms -/

theorem filter_intercalate {α : Type} (keep : α → Bool) (separator : List α)
    (parts : List (List α)) :
    (separator.intercalate parts).filter keep
      = (separator.filter keep).intercalate (parts.map (List.filter keep)) := by
  induction parts with
  | nil => rfl
  | cons part parts ih =>
      cases parts with
      | nil => simp
      | cons next parts =>
          rw [List.intercalate_cons_cons, List.filter_append, List.filter_append, ih, List.map_cons,
            List.map_cons, List.map_cons, List.intercalate_cons_cons]

def splitTerms (text : String) : List (List Char) :=
  (text.toList.filter (· ≠ ' ')).splitOn '+'

def writtenTerms : List Nat → List (Nat × Nat)
  | [] => []
  | coefficient :: rest =>
      if coefficient = 0 then writtenTerms rest
      else (rest.length, coefficient) :: writtenTerms rest

def joinTerms (terms : List (Nat × Nat)) : String :=
  " + ".intercalate (terms.map fun term => termText term.2 term.1)

theorem splitTerms_joinTerms {terms : List (Nat × Nat)} (filled : terms ≠ []) :
    splitTerms (joinTerms terms)
      = terms.map fun term => (termText term.2 term.1).toList := by
  have noBlank : ∀ term : Nat × Nat, (termText term.2 term.1).toList.filter (· ≠ ' ')
      = (termText term.2 term.1).toList := by
    intro term
    refine List.filter_eq_self.mpr fun character member => decide_eq_true fun blank => ?_
    subst blank
    exact mark_not_mem_termText rfl (by decide) (by decide) term.2 term.1 member
  have parts : ((terms.map fun term => termText term.2 term.1).map String.toList).map
        (List.filter (· ≠ ' '))
      = terms.map fun term => (termText term.2 term.1).toList := by
    rw [List.map_map, List.map_map]
    exact List.map_congr_left fun term _ => noBlank term
  have sign : (" + ".toList).filter (· ≠ ' ') = ['+'] := by decide
  rw [splitTerms, joinTerms, String.toList_intercalate, filter_intercalate, parts, sign]
  refine List.splitOn_intercalate '+' ?_ (by simpa using filled)
  intro part member
  obtain ⟨term, _, rfl⟩ := List.mem_map.mp member
  exact mark_not_mem_termText rfl (by decide) (by decide) term.2 term.1

theorem termTexts_eq (coefficients : List Nat) :
    termTexts coefficients
      = (writtenTerms coefficients).map fun term => termText term.2 term.1 := by
  induction coefficients with
  | nil => rfl
  | cons coefficient rest ih =>
      rw [termTexts, writtenTerms]
      split
      · exact ih
      · rw [List.map_cons, ih]

/-- The leading term is always written, also when it is the zero polynomial. -/
theorem Normalized.text_eq {f : Poly} (normal : f.Normalized) :
    f.text = joinTerms ((f.degree, f.leading) :: writtenTerms f.lower) := by
  rw [text, termTexts_eq, coefficients, writtenTerms]
  by_cases vanishes : f.leading = 0
  · rw [if_pos vanishes, degree, normal.2 vanishes, vanishes]
    rfl
  · rw [if_neg vanishes]
    rfl

/-! ## Coefficients -/

def collect (width : Nat) (terms : List (Nat × Nat)) : List Nat :=
  (List.range width).reverse.map fun exponent => (terms.lookup exponent).getD 0

theorem exponent_lt_of_mem_writtenTerms {coefficients : List Nat} {term : Nat × Nat}
    (member : term ∈ writtenTerms coefficients) : term.1 < coefficients.length := by
  induction coefficients with
  | nil => cases member
  | cons coefficient rest ih =>
      rw [writtenTerms] at member
      rw [List.length_cons]
      split at member
      · exact Nat.lt_succ_of_lt (ih member)
      · rcases List.mem_cons.mp member with rfl | later
        · exact Nat.lt_succ_self rest.length
        · exact Nat.lt_succ_of_lt (ih later)

theorem collect_succ (width : Nat) (terms : List (Nat × Nat)) :
    collect (width + 1) terms = (terms.lookup width).getD 0 :: collect width terms := by
  rw [collect, List.range_succ, List.reverse_append, List.reverse_singleton, List.singleton_append,
    List.map_cons, collect]

theorem collect_cons (coefficient width : Nat) (terms : List (Nat × Nat)) :
    collect (width + 1) ((width, coefficient) :: terms) = coefficient :: collect width terms := by
  rw [collect_succ, List.lookup_cons_self, Option.getD_some, collect, collect]
  congr 1
  refine List.map_congr_left fun exponent member => ?_
  have below : exponent < width := List.mem_range.mp (List.mem_reverse.mp member)
  have other : (exponent == width) = false := beq_false_of_ne (Nat.ne_of_lt below)
  rw [List.lookup_cons, other]

theorem collect_writtenTerms (coefficients : List Nat) :
    collect coefficients.length (writtenTerms coefficients) = coefficients := by
  induction coefficients with
  | nil => rfl
  | cons coefficient rest ih =>
      rw [List.length_cons, writtenTerms]
      split
      · -- the skipped exponent is above every written one
        rename_i vanishes
        have skipped : (writtenTerms rest).lookup rest.length = none := by
          refine List.lookup_eq_none_iff.mpr fun term member => ?_
          have below := exponent_lt_of_mem_writtenTerms member
          simpa using Nat.ne_of_gt below
        rw [collect_succ, skipped, Option.getD_none, ih, vanishes]
      · rw [collect_cons, ih]

/-! ## Texts -/

def readText (text : String) : Option (List Nat) := do
  let terms ← (splitTerms text).mapM readTerm
  let leading ← terms.head?
  some (collect (leading.1 + 1) terms)

theorem mapM_readTerm (terms : List (Nat × Nat)) :
    (terms.map fun term => (termText term.2 term.1).toList).mapM readTerm = some terms := by
  induction terms with
  | nil => rfl
  | cons term terms ih =>
      rw [List.map_cons, List.mapM_cons, readTerm_termText, ih]
      rfl

theorem readText_joinTerms (term : Nat × Nat) (terms : List (Nat × Nat)) :
    readText (joinTerms (term :: terms)) = some (collect (term.1 + 1) (term :: terms)) := by
  rw [readText, splitTerms_joinTerms (List.cons_ne_nil term terms), mapM_readTerm]
  rfl

theorem readText_text {f : Poly} (normal : f.Normalized) : readText f.text = some f.coefficients := by
  rw [normal.text_eq, readText_joinTerms, degree, collect_cons, collect_writtenTerms, coefficients]

/-- A text stands for at most one list of coefficients, whatever the moduli are. -/
theorem text_unambiguous {f g : Poly} (fNormal : f.Normalized) (gNormal : g.Normalized) :
    readText f.text = some f.coefficients ∧ (f.text = g.text → f.coefficients = g.coefficients) := by
  refine ⟨readText_text fNormal, fun same => ?_⟩
  have read : readText g.text = some f.coefficients := by
    rw [← same, readText_text fNormal]
  rw [readText_text gNormal] at read
  exact (Option.some.inj read).symm

/-- The text `x^2 + 12` modulo 13 and modulo 17. -/
theorem text_unambiguous_across_moduli :
    Normalized ⟨1, [0, 12], 13⟩ ∧ Normalized ⟨1, [0, 12], 17⟩ ∧
      text ⟨1, [0, 12], 13⟩ = text ⟨1, [0, 12], 17⟩ ∧
      readText (text ⟨1, [0, 12], 13⟩) = some [1, 0, 12] ∧
      coefficients ⟨1, [0, 12], 13⟩ = coefficients ⟨1, [0, 12], 17⟩ := by
  have left : Normalized ⟨1, [0, 12], 13⟩ := by simp [Normalized, coefficients]
  have right : Normalized ⟨1, [0, 12], 17⟩ := by simp [Normalized, coefficients]
  obtain ⟨read, injective⟩ := text_unambiguous left right
  exact ⟨left, right, rfl, read, injective rfl⟩

end ResidueAlgebra.Poly
