import ResidueAlgebra.Config.Value
import ResidueAlgebra.Text.Split

/-!
# Configuration files in YAML

Lines `key: value` with comments after a hash sign. Values are plain or quoted words, null, and lists
in brackets; a plain word is null, a truth value, an integer, a floating-point number or, failing
these, a text. Indented lines belong to the key above them and make it a table.
-/
set_option autoImplicit false
namespace ResidueAlgebra.Yaml

def trimLeft (characters : List Char) : List Char :=
  characters.dropWhile fun character => character == ' ' || character == '\t'

def trim (characters : List Char) : List Char :=
  let front := trimLeft characters
  ((front.reverse).dropWhile fun character =>
    character == ' ' || character == '\t' || character == '\r').reverse

/-- A hash sign starts a comment at the start of a line or after a blank. -/
def dropComment (afterBlank : Bool) : List Char → List Char
  | [] => []
  | character :: rest =>
      if character = '#' ∧ afterBlank then []
      else character :: dropComment (character = ' ' ∨ character = '\t') rest

def plainWord (characters : List Char) : ConfigValue :=
  let word := String.ofList characters
  match word with
  | "" => .null
  | "~" => .null
  | "null" => .null
  | "true" => .flag true
  | "false" => .flag false
  | _ =>
      match Text.integer word with
      | some value => .integer value
      | none =>
          match Binary64.ofText word with
          | some value => .real value
          | none => .text word

/-- The text up to the closing quote, which has to end the word. -/
def closeQuote (quote : Char) : List Char → Option (List Char)
  | [] => none
  | character :: rest =>
      if character = quote then
        if rest.isEmpty then some [] else none
      else
        (closeQuote quote rest).map (character :: ·)

/-- The key before the first colon that a blank or the end of the line follows, and the rest. -/
def splitKey : List Char → Option (List Char × List Char)
  | [] => none
  | [':'] => some ([], [])
  | ':' :: next :: rest =>
      if next = ' ' ∨ next = '\t' ∨ next = '\r' then
        some ([], next :: rest)
      else
        (splitKey (next :: rest)).map fun (front, back) => (':' :: front, back)
  | character :: rest =>
      (splitKey rest).map fun (front, back) => (character :: front, back)

/-- A quoted text or a plain word; a plain word holds no further key. -/
def scalar (characters : List Char) : Option ConfigValue :=
  match characters with
  | '"' :: rest => (closeQuote '"' rest).map fun taken => .text (String.ofList taken)
  | '\'' :: rest => (closeQuote '\'' rest).map fun taken => .text (String.ofList taken)
  | '[' :: _ => none
  | '{' :: _ => none
  | _ => if (splitKey characters).isSome then none else some (plainWord characters)

/-- The items of a list in brackets; a comma may follow the last one. -/
def listItems (characters : List Char) : Option (List ConfigValue) :=
  let parts := (Text.splitOn ',' characters).map trim
  let parts := if parts.getLast? = some [] then parts.dropLast else parts
  parts.mapM fun part => if part.isEmpty then none else scalar part

def value (characters : List Char) : Option ConfigValue :=
  match characters with
  | '[' :: rest =>
      match rest.reverse with
      | ']' :: inner => (listItems inner.reverse).map .list
      | _ => none
  | _ => scalar characters

def keyName (characters : List Char) : Option String :=
  match scalar (trim characters) with
  | some (.text name) => some name
  | _ => none

/-- An indented line turns the key above it, which has no value of its own, into a table. -/
def nest (assignments : Assignments) : Option Assignments :=
  match assignments.reverse with
  | (name, .null) :: earlier => some (earlier.reverse ++ [(name, .table)])
  | (name, .table) :: earlier => some (earlier.reverse ++ [(name, .table)])
  | _ => none

def readLines (assignments : Assignments) : List (List Char) → Option Assignments
  | [] => some assignments
  | line :: rest => do
      let content := trim (dropComment true line)
      if content.isEmpty ∨ content = ['-', '-', '-'] then
        readLines assignments rest
      else if line.head? = some ' ' then do
        let assignments ← nest assignments
        readLines assignments rest
      else do
        let (front, back) ← splitKey content
        let name ← keyName front
        let assigned ← value (trim back)
        if assignments.any fun assignment => assignment.1 == Text.lower name then
          none
        else
          readLines (assignments ++ [(Text.lower name, assigned)]) rest

def parse (text : String) : Option Assignments :=
  readLines [] (Text.splitOn '\n' text.toList)

end ResidueAlgebra.Yaml
