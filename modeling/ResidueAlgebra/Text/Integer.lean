import ResidueAlgebra.Word

/-!
# Integers in decimal digits

An integer is written as one or more decimal digits, leading zeros allowed, after an optional plus
sign, or a minus sign where negative numbers are meant. Nothing else may stand before, between or
after the digits, and the value has to fit its word.
-/
set_option autoImplicit false
namespace ResidueAlgebra.Text

def digitValue (character : Char) : Option Nat :=
  if '0' ≤ character ∧ character ≤ '9' then some (character.toNat - 48) else none

/-- The number that the digits continue from `value`. -/
def digitsFrom (value : Nat) : List Char → Option Nat
  | [] => some value
  | character :: rest =>
      match digitValue character with
      | some digit => digitsFrom (10 * value + digit) rest
      | none => none

def digits : List Char → Option Nat
  | [] => none
  | character :: rest => digitsFrom 0 (character :: rest)

/-- An unsigned number below `limit`. -/
def natural (limit : Nat) (text : String) : Option Nat :=
  let value :=
    match text.toList with
    | '+' :: rest => digits rest
    | characters => digits characters
  match value with
  | some number => if number < limit then some number else none
  | none => none

def word (text : String) : Option Nat :=
  natural Word.long text

/-- Signed numbers reach from minus this bound to one below it, 2 to the 63. -/
def signedLimit : Nat := 9223372036854775808

def integer (text : String) : Option Int :=
  match text.toList with
  | '-' :: rest =>
      match digits rest with
      | some number => if number ≤ signedLimit then some (-(number : Int)) else none
      | none => none
  | _ =>
      match natural signedLimit text with
      | some number => some (number : Int)
      | none => none

def lower (text : String) : String :=
  String.ofList (text.toList.map Char.toLower)

end ResidueAlgebra.Text
