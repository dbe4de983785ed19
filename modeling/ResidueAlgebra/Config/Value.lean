import ResidueAlgebra.Text.Binary64

/-!
# Values of settings

What a configuration source assigns to a key, and how such a value is read as a number or a text.
Nested keys only make their outermost key a table, which no setting accepts.
-/
set_option autoImplicit false
namespace ResidueAlgebra

inductive ConfigValue where
  | null
  | flag (value : Bool)
  | integer (value : Int)
  | real (value : Binary64)
  | text (value : String)
  | list (items : List ConfigValue)
  | table

/-- Assignments in order; a later one replaces the whole value of an earlier one. -/
abbrev Assignments : Type := List (String × ConfigValue)

namespace ConfigValue

/-- Words for one and zero, then digits. -/
def wordOfText (value : String) : Option Nat :=
  match Text.lower value with
  | "true" | "on" | "yes" => some 1
  | "false" | "off" | "no" => some 0
  | _ => Text.word value

def toWord : ConfigValue → Option Nat
  | .flag value => some (if value then 1 else 0)
  | .integer value => if 0 ≤ value then some value.toNat else none
  | .real value => some value.toWord
  | .text value => wordOfText value
  | _ => none

def toText : ConfigValue → Option String
  | .flag value => some (if value then "true" else "false")
  | .integer value => some s!"{value}"
  | .real value => some value.text
  | .text value => some value
  | _ => none

def toWords : ConfigValue → Option (List Nat)
  | .list items => items.mapM toWord
  | _ => none

/-- An absent value and null are no bound. -/
def toBound : Option ConfigValue → Option (Option Nat)
  | none => some none
  | some .null => some none
  | some value => value.toWord.map some

end ConfigValue

/-- The value that the last assignment to `key` gives it. -/
def Assignments.find (assignments : Assignments) (key : String) : Option ConfigValue :=
  (assignments.reverse.find? fun assignment => assignment.1 == key).map Prod.snd

end ResidueAlgebra
