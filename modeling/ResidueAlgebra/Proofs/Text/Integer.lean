import Mathlib.Data.Nat.Digits.Defs
import Mathlib.Tactic.IntervalCases
import ResidueAlgebra.Text.Integer

/-!
# Decimal spellings

A number is read exactly from its spellings: its decimal digits after any number of zeros, with a
plus sign in front or none. An integer may also carry a minus sign, zero included. The readers accept
every spelling of a number that fits and nothing else, so each text has at most one value.
-/
set_option autoImplicit false
namespace ResidueAlgebra.Text

/-! ## Digits -/

theorem digitValue_digitChar {digit : Nat} (single : digit < 10) :
    digitValue (Nat.digitChar digit) = some digit := by
  interval_cases digit <;> rfl

theorem eq_digitChar_of_digitValue {character : Char} {digit : Nat}
    (read : digitValue character = some digit) : digit < 10 ∧ character = Nat.digitChar digit := by
  unfold digitValue at read
  split at read
  · rename_i inside
    cases read
    have lower : 48 ≤ character.toNat := inside.1
    have upper : character.toNat ≤ 57 := inside.2
    have single : character.toNat - 48 < 10 := by omega
    refine ⟨single, Char.toNat_inj.mp ?_⟩
    rw [Nat.toNat_digitChar_of_lt_ten single]
    omega
  · cases read

theorem digitsFrom_append (value : Nat) (front back : List Char) :
    digitsFrom value (front ++ back) = (digitsFrom value front).bind (digitsFrom · back) := by
  induction front generalizing value with
  | nil => rfl
  | cons character rest ih =>
      rw [List.cons_append, digitsFrom, digitsFrom]
      cases digitValue character with
      | none => rfl
      | some digit => exact ih (10 * value + digit)

theorem digitsFrom_zeros (zeros : Nat) : digitsFrom 0 (List.replicate zeros '0') = some 0 := by
  induction zeros with
  | zero => rfl
  | succ zeros ih =>
      rw [List.replicate_succ]
      exact ih

theorem digitsFrom_toDigits (value : Nat) : digitsFrom 0 (Nat.toDigits 10 value) = some value := by
  induction value using Nat.strong_induction_on with
  | _ value ih =>
      rw [Nat.toDigits_eq_if (by decide)]
      split
      · rename_i single
        simp [digitsFrom, digitValue_digitChar single]
      · have shorter : value / 10 < value := by omega
        have last : value % 10 < 10 := Nat.mod_lt value (by decide)
        rw [digitsFrom_append, ih _ shorter]
        simp [digitsFrom, digitValue_digitChar last, Nat.div_add_mod]

/-- What has been read so far, once it is not zero, is the front of the digits of the value. -/
theorem toDigits_append_of_digitsFrom {start value : Nat} {characters : List Char}
    (positive : 0 < start) (read : digitsFrom start characters = some value) :
    Nat.toDigits 10 start ++ characters = Nat.toDigits 10 value := by
  induction characters generalizing start with
  | nil =>
      cases read
      simp
  | cons character rest ih =>
      rw [digitsFrom] at read
      cases first : digitValue character with
      | none => simp [first] at read
      | some digit =>
          rw [first] at read
          obtain ⟨single, rfl⟩ := eq_digitChar_of_digitValue first
          have joined := Nat.toDigits_append_toDigits (b := 10) (by decide) positive single
          rw [Nat.toDigits_of_lt_base single] at joined
          rw [← ih (by omega) read, ← joined, List.append_assoc, List.singleton_append]

theorem zeros_of_digitsFrom {value : Nat} {characters : List Char} (filled : characters ≠ [])
    (read : digitsFrom 0 characters = some value) :
    ∃ zeros, characters = List.replicate zeros '0' ++ Nat.toDigits 10 value := by
  induction characters with
  | nil => exact absurd rfl filled
  | cons character rest ih =>
      rw [digitsFrom] at read
      cases first : digitValue character with
      | none => simp [first] at read
      | some digit =>
          rw [first] at read
          obtain ⟨single, rfl⟩ := eq_digitChar_of_digitValue first
          rcases Nat.eq_zero_or_pos digit with rfl | positive
          · cases rest with
            | nil =>
                cases read
                exact ⟨0, rfl⟩
            | cons next others =>
                obtain ⟨zeros, spelled⟩ := ih (List.cons_ne_nil next others) read
                exact ⟨zeros + 1, by rw [spelled]; rfl⟩
          · have continued : digitsFrom digit rest = some value := by simpa using read
            have joined := toDigits_append_of_digitsFrom positive continued
            rw [Nat.toDigits_of_lt_base single] at joined
            exact ⟨0, joined⟩

theorem digits_eq_some_iff {characters : List Char} {value : Nat} :
    digits characters = some value ↔
      ∃ zeros, characters = List.replicate zeros '0' ++ Nat.toDigits 10 value := by
  constructor
  · intro read
    cases characters with
    | nil => cases read
    | cons character rest => exact zeros_of_digitsFrom (List.cons_ne_nil character rest) read
  · intro ⟨zeros, spelled⟩
    have read : digitsFrom 0 characters = some value := by
      rw [spelled, digitsFrom_append, digitsFrom_zeros]
      exact digitsFrom_toDigits value
    cases characters with
    | nil => simp at spelled
    | cons character rest => exact read

theorem digits_toDigits (value : Nat) : digits (Nat.toDigits 10 value) = some value :=
  digits_eq_some_iff.mpr ⟨0, rfl⟩

/-! ## Spellings -/

def paddedDecimal (zeros value : Nat) : String :=
  String.ofList (List.replicate zeros '0') ++ toString value

theorem toList_paddedDecimal (zeros value : Nat) :
    (paddedDecimal zeros value).toList = List.replicate zeros '0' ++ Nat.toDigits 10 value := by
  simp [paddedDecimal, Nat.toString_eq_repr]

def NaturalSpelling (text : String) (value : Nat) : Prop :=
  ∃ zeros, text = paddedDecimal zeros value ∨ text = "+" ++ paddedDecimal zeros value

/-- A minus sign may stand before zero too. -/
def IntegerSpelling (text : String) (value : Int) : Prop :=
  (0 ≤ value ∧ NaturalSpelling text value.natAbs) ∨
    (value ≤ 0 ∧ ∃ zeros, text = "-" ++ paddedDecimal zeros value.natAbs)

theorem toString_naturalSpelling (value : Nat) : NaturalSpelling (toString value) value := by
  refine ⟨0, Or.inl ?_⟩
  simp [paddedDecimal]

theorem toString_integerSpelling (value : Int) : IntegerSpelling (toString value) value := by
  rw [Int.toString_eq_repr, Int.repr_eq_if]
  split
  · rename_i nonnegative
    refine Or.inl ⟨nonnegative, ?_⟩
    have same : value.toNat = value.natAbs := by omega
    rw [same]
    exact toString_naturalSpelling value.natAbs
  · rename_i negative
    refine Or.inr ⟨by omega, 0, ?_⟩
    have same : (-value).toNat = value.natAbs := by omega
    simp [same, paddedDecimal, Nat.toString_eq_repr]

/-! ## Readers -/

theorem digits_toList_eq_some_iff {text : String} {value : Nat} :
    digits text.toList = some value ↔ ∃ zeros, text = paddedDecimal zeros value := by
  simp only [digits_eq_some_iff, ← toList_paddedDecimal, String.toList_inj]

theorem digits_after_sign {sign : Char} {text : String} {rest : List Char} {value : Nat}
    (front : text.toList = sign :: rest) :
    digits rest = some value ↔
      ∃ zeros, text = String.singleton sign ++ paddedDecimal zeros value := by
  simp [digits_eq_some_iff, ← toList_paddedDecimal, ← String.toList_inj, front]

theorem ne_paddedDecimal_of_sign {sign : Char} (noDigit : digitValue sign = none) {text : String}
    {rest : List Char} (front : text.toList = sign :: rest) (zeros value : Nat) :
    text ≠ paddedDecimal zeros value := by
  intro spelled
  have read := digits_toList_eq_some_iff.mpr ⟨zeros, spelled⟩
  simp [front, digits, digitsFrom, noDigit] at read

theorem naturalSpelling_after_plus {text : String} {rest : List Char} {value : Nat}
    (front : text.toList = '+' :: rest) : digits rest = some value ↔ NaturalSpelling text value := by
  rw [digits_after_sign front]
  refine exists_congr fun zeros => ⟨Or.inr, fun spelled => ?_⟩
  exact spelled.resolve_left (ne_paddedDecimal_of_sign rfl front zeros value)

theorem naturalSpelling_without_plus {text : String} {value : Nat}
    (bare : ∀ rest, text.toList = '+' :: rest → False) :
    digits text.toList = some value ↔ NaturalSpelling text value := by
  rw [digits_toList_eq_some_iff]
  refine exists_congr fun zeros => ⟨Or.inl, fun spelled => spelled.resolve_right fun signed => ?_⟩
  apply bare (paddedDecimal zeros value).toList
  rw [signed, String.toList_append]
  rfl

theorem natural_eq_some_iff {limit : Nat} {text : String} {value : Nat} :
    natural limit text = some value ↔ NaturalSpelling text value ∧ value < limit := by
  unfold natural
  dsimp only
  split
  · rename_i number read
    have spelled : NaturalSpelling text value ↔ number = value := by
      split at read
      · rename_i rest front
        rw [← naturalSpelling_after_plus front, read, Option.some.injEq]
      · rename_i bare
        rw [← naturalSpelling_without_plus bare, read, Option.some.injEq]
    rw [spelled, Option.ite_none_right_eq_some, Option.some.injEq]
    constructor
    · rintro ⟨inside, rfl⟩
      exact ⟨rfl, inside⟩
    · rintro ⟨rfl, inside⟩
      exact ⟨inside, rfl⟩
  · rename_i unread
    have unspelled : ¬ NaturalSpelling text value := by
      split at unread
      · rename_i rest front
        simp [← naturalSpelling_after_plus front, unread]
      · rename_i bare
        simp [← naturalSpelling_without_plus bare, unread]
    simp [unspelled]

theorem word_eq_some_iff {text : String} {value : Nat} :
    word text = some value ↔ NaturalSpelling text value ∧ value < Word.long :=
  natural_eq_some_iff

theorem not_naturalSpelling_of_minus {text : String} {rest : List Char}
    (front : text.toList = '-' :: rest) (value : Nat) : ¬ NaturalSpelling text value := by
  intro ⟨zeros, spelled⟩
  rcases spelled with bare | signed
  · exact ne_paddedDecimal_of_sign rfl front zeros value bare
  · simp [signed] at front

theorem integer_eq_some_iff {text : String} {value : Int} :
    integer text = some value ↔
      IntegerSpelling text value ∧ -(signedLimit : Int) ≤ value ∧ value < signedLimit := by
  have positive : 0 < signedLimit := by decide
  unfold integer
  split
  · rename_i rest front
    constructor
    · intro read
      cases found : digits rest with
      | none => simp [found] at read
      | some number =>
          simp only [found, Option.ite_none_right_eq_some, Option.some.injEq] at read
          obtain ⟨inside, rfl⟩ := read
          have spelled := (digits_after_sign front).mp found
          exact ⟨Or.inr ⟨by omega, by simpa using spelled⟩, by omega, by omega⟩
    · intro ⟨spelled, lower, upper⟩
      obtain ⟨_, plain⟩ | ⟨negative, minus⟩ := spelled
      · exact absurd plain (not_naturalSpelling_of_minus front value.natAbs)
      · have found := (digits_after_sign front).mpr minus
        have inside : value.natAbs ≤ signedLimit := by omega
        have magnitude : -(value.natAbs : Int) = value := by omega
        simp only [found, if_pos inside, magnitude]
  · rename_i bare
    constructor
    · intro read
      cases found : natural signedLimit text with
      | none => simp [found] at read
      | some number =>
          simp only [found, Option.some.injEq] at read
          subst read
          obtain ⟨spelled, inside⟩ := natural_eq_some_iff.mp found
          exact ⟨Or.inl ⟨by omega, by simpa using spelled⟩, by omega, by omega⟩
    · intro ⟨spelled, lower, upper⟩
      obtain ⟨nonnegative, plain⟩ | ⟨_, zeros, minus⟩ := spelled
      · have inside : value.natAbs < signedLimit := by omega
        have found := natural_eq_some_iff.mpr ⟨plain, inside⟩
        have magnitude : (value.natAbs : Int) = value := by omega
        simp only [found, magnitude]
      · refine (bare (paddedDecimal zeros value.natAbs).toList ?_).elim
        simp [minus]

end ResidueAlgebra.Text
