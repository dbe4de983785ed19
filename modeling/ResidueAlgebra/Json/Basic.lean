/-!
# JSON values and their text

Values of the JSON format. Numbers are a mantissa divided by ten to the power `scale`, and integers
are those with scale zero. `Json.pretty` writes one item per line, indented by two spaces a level;
strings escape quotes, backslashes and control characters only.
-/
set_option autoImplicit false
namespace ResidueAlgebra

inductive Json where
  | null
  | bool (value : Bool)
  | number (mantissa : Int) (scale : Nat)
  | text (value : String)
  | list (items : List Json)
  | object (fields : List (String × Json))
  deriving Inhabited

namespace Json

def nat (value : Nat) : Json :=
  .number value 0

def nats (values : List Nat) : Json :=
  .list (values.map nat)

def texts (values : List String) : Json :=
  .list (values.map text)

def optional {α : Type} (encode : α → Json) : Option α → Json
  | some value => encode value
  | none => .null

def insertField (field : String × Json) : List (String × Json) → List (String × Json)
  | [] => [field]
  | first :: rest =>
      if field.1 < first.1 then field :: first :: rest else first :: insertField field rest

def sorted (fields : List (String × Json)) : Json :=
  .object (fields.foldr insertField [])

def field? (name : String) : Json → Option Json
  | .object fields => (fields.find? fun field => field.1 == name).map Prod.snd
  | _ => none

/-! ## Text -/

def hexDigit (value : Nat) : Char :=
  if value < 10 then Char.ofNat (48 + value) else Char.ofNat (87 + value)

def escapeChar (character : Char) : List Char :=
  match character with
  | '"' => ['\\', '"']
  | '\\' => ['\\', '\\']
  | '\n' => ['\\', 'n']
  | '\r' => ['\\', 'r']
  | '\t' => ['\\', 't']
  | _ =>
      if character.toNat = 8 then ['\\', 'b']
      else if character.toNat = 12 then ['\\', 'f']
      else if character.toNat < 32 then
        ['\\', 'u', '0', '0', hexDigit (character.toNat / 16), hexDigit (character.toNat % 16)]
      else [character]

def quoted (value : String) : String :=
  "\"" ++ String.ofList (value.toList.flatMap escapeChar) ++ "\""

def numberText (mantissa : Int) (scale : Nat) : String :=
  if scale = 0 then
    s!"{mantissa}"
  else
    let digits := s!"{mantissa.natAbs}".toList
    let padded := List.replicate (scale + 1 - digits.length) '0' ++ digits
    let whole := padded.take (padded.length - scale)
    let fraction := padded.drop (padded.length - scale)
    (if mantissa < 0 then "-" else "") ++ String.ofList whole ++ "." ++ String.ofList fraction

/-- A line break followed by the indentation of a level. -/
def lineAt (level : Nat) : String :=
  "\n" ++ String.ofList (List.replicate (2 * level) ' ')

mutual

def pretty (level : Nat) : Json → String
  | .null => "null"
  | .bool value => if value then "true" else "false"
  | .number mantissa scale => numberText mantissa scale
  | .text value => quoted value
  | .list [] => "[]"
  | .list (item :: items) =>
      "[" ++ lineAt (level + 1) ++ pretty (level + 1) item ++ prettyItems (level + 1) items
        ++ lineAt level ++ "]"
  | .object [] => "\x7b\x7d"
  | .object ((name, value) :: fields) =>
      "\x7b" ++ lineAt (level + 1) ++ quoted name ++ ": " ++ pretty (level + 1) value
        ++ prettyFields (level + 1) fields ++ lineAt level ++ "\x7d"

def prettyItems (level : Nat) : List Json → String
  | [] => ""
  | item :: items => "," ++ lineAt level ++ pretty level item ++ prettyItems level items

def prettyFields (level : Nat) : List (String × Json) → String
  | [] => ""
  | (name, value) :: fields =>
      "," ++ lineAt level ++ quoted name ++ ": " ++ pretty level value ++ prettyFields level fields

end

end Json

end ResidueAlgebra
