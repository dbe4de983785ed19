import ResidueAlgebra.Config.Value
import ResidueAlgebra.Text.Split

/-!
# Settings from the environment

A variable whose name starts with the marker, in any case, assigns to the key that follows; two
underscores nest. The text is tried as a truth value, an integer and a floating-point number in turn;
failing these it is a list split at commas for the factor base, and a text for all other keys.
-/
set_option autoImplicit false
namespace ResidueAlgebra.Environment

def marker : List Char := "modtrace_".toList

/-- The key that a variable of the given name assigns to. -/
def keyOf (name : String) : Option String :=
  let lowered := (Text.lower name).toList
  if marker.isPrefixOf lowered then some (String.ofList (lowered.drop marker.length)) else none

/-- The part of a key before two underscores, when there are any. -/
def outerPart : List Char → Option (List Char)
  | [] => none
  | '_' :: '_' :: _ => some []
  | character :: rest => (outerPart rest).map (character :: ·)

def valueOf (key text : String) : ConfigValue :=
  match Text.lower text with
  | "true" => .flag true
  | "false" => .flag false
  | _ =>
      match Text.integer text with
      | some value => .integer value
      | none =>
          match Binary64.ofText text with
          | some value => .real value
          | none =>
              if key = "factor_base" then
                .list ((Text.splitOn ',' text.toList).map fun part => .text (String.ofList part))
              else
                .text text

def assignment (name text : String) : Option (String × ConfigValue) :=
  match keyOf name with
  | none => none
  | some key =>
      match outerPart key.toList with
      | some outer => some (String.ofList outer, .table)
      | none => some (key, valueOf key text)

def assignments (environment : List (String × String)) : Assignments :=
  environment.filterMap fun (name, text) => assignment name text

end ResidueAlgebra.Environment
