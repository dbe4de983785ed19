import ResidueAlgebra.Config.Environment
import ResidueAlgebra.Config.Settings
import ResidueAlgebra.Config.Toml
import ResidueAlgebra.Config.Yaml

/-!
# Loading settings

Settings come from their defaults, then a file, then the environment; what a later source assigns
replaces an earlier value before its type is looked at. Without a path one of two usual files is
taken, if there is one; a file that does not exist is no source. The format follows the extension.
-/
set_option autoImplicit false
namespace ResidueAlgebra

/-- The texts of the files that exist, by name, and the variables of the environment. -/
structure Surroundings where
  files : List (String × String)
  environment : List (String × String)

/-- A path without the leading parts that name the working directory itself. -/
def plainPath : List Char → List Char
  | '.' :: '/' :: rest => plainPath rest
  | path => path

def Surroundings.read (surroundings : Surroundings) (path : String) : Option String :=
  let name := plainPath path.toList
  (surroundings.files.find? fun file => plainPath file.1.toList == name).map Prod.snd

namespace Settings

/-- What follows the last point of the last part of a path, if anything stands before that point. -/
def extension (path : String) : Option String :=
  let name := (path.toList.reverse.takeWhile (· != '/'))
  let ending := name.takeWhile (· != '.')
  if ending.length + 1 < name.length then some (String.ofList ending.reverse) else none

def parseFile (path text : String) : Option Assignments :=
  match extension path with
  | some "toml" => Toml.parse text
  | some "yaml" => Yaml.parse text
  | some "yml" => Yaml.parse text
  | _ => none

def fileAssignments (surroundings : Surroundings) (path : String) : Option Assignments :=
  match surroundings.read path with
  | some text => parseFile path text
  | none => some []

def usualFile (surroundings : Surroundings) : String :=
  if (surroundings.read "modtrace.toml").isSome then "modtrace.toml" else "modtrace.yaml"

def ofAssignments (assignments : Assignments) : Option Settings := do
  let logLevel ←
    match assignments.find "log_level" with
    | some value => value.toText
    | none => some Settings.default.logLevel
  let primes ←
    match assignments.find "factor_base" with
    | some value => value.toWords
    | none => some Settings.default.primes
  let relationBound ← ConfigValue.toBound (assignments.find "relation_search_bound")
  let targetBound ← ConfigValue.toBound (assignments.find "target_search_bound")
  let timeoutSeconds ←
    match assignments.find "timeout_secs" with
    | some value => value.toWord
    | none => some Settings.default.timeoutSeconds
  some ⟨logLevel, primes, relationBound, targetBound, timeoutSeconds⟩

/-- The settings in force, or nothing when a source is malformed or a value has the wrong type. -/
def load (surroundings : Surroundings) (path : Option String) : Option Settings := do
  let file ← fileAssignments surroundings (path.getD (usualFile surroundings))
  ofAssignments (file ++ Environment.assignments surroundings.environment)

end Settings

end ResidueAlgebra
