import ResidueAlgebra.Config.Value

/-!
# Configuration files in TOML

Lines `key = value` with comments after a hash sign, and section headers. Values are integers,
floating-point numbers, `true` and `false`, strings in either kind of quotes, and lists of values
over one or more lines. Keys of a section, and dotted keys, are nested. Giving a key twice is an
error.
-/
set_option autoImplicit false
namespace ResidueAlgebra.Toml

def isBlank (character : Char) : Bool :=
  character = ' ' ∨ character = '\t'

def skipBlanks : List Char → List Char
  | [] => []
  | character :: rest => if isBlank character then skipBlanks rest else character :: rest

def skipComment : List Char → List Char
  | [] => []
  | '\n' :: rest => '\n' :: rest
  | _ :: rest => skipComment rest

/-- Blanks, line ends and comments between the items of a list. -/
def skipLayout (inComment : Bool) : List Char → List Char
  | [] => []
  | '\n' :: rest => skipLayout false rest
  | character :: rest =>
      if inComment then skipLayout true rest
      else if character = '#' then skipLayout true rest
      else if isBlank character ∨ character = '\r' then skipLayout false rest
      else character :: rest

/-! ## Numbers and other bare words -/

def isWordEnd (character : Char) : Bool :=
  isBlank character ∨ character = ',' ∨ character = ']' ∨ character = '#' ∨ character = '\n'
    ∨ character = '\r'

def takeWord : List Char → List Char × List Char
  | [] => ([], [])
  | character :: rest =>
      if isWordEnd character then
        ([], character :: rest)
      else
        let (taken, remaining) := takeWord rest
        (character :: taken, remaining)

/-- Removes the underscores that stand between two digits; any other is an error. -/
def joinDigits : List Char → Option (List Char)
  | [] => some []
  | before :: '_' :: after :: rest =>
      if before.isDigit ∧ after.isDigit then (joinDigits (after :: rest)).map (before :: ·) else none
  | '_' :: _ => none
  | character :: rest => (joinDigits rest).map (character :: ·)

/-- More than one digit does not start with zero. -/
def plainDigits (characters : List Char) : Bool :=
  match characters with
  | [] => false
  | ['0'] => true
  | '0' :: _ => false
  | _ => characters.all Char.isDigit

def unsignedPart : List Char → List Char
  | '+' :: rest => rest
  | '-' :: rest => rest
  | characters => characters

/-- The part before a point or an exponent. -/
def wholePart (characters : List Char) : List Char :=
  characters.takeWhile fun character => character != '.' && character != 'e' && character != 'E'

/-- A point has digits on both sides. -/
def pointsInside : List Char → Bool
  | [] => true
  | '.' :: rest => (rest.head?.map Char.isDigit).getD false && pointsInside rest
  | _ :: rest => pointsInside rest

def hexValue (character : Char) : Option Nat :=
  if '0' ≤ character ∧ character ≤ '9' then some (character.toNat - 48)
  else if 'a' ≤ character ∧ character ≤ 'f' then some (character.toNat - 87)
  else if 'A' ≤ character ∧ character ≤ 'F' then some (character.toNat - 55)
  else none

def basedNumber (base : Nat) (characters : List Char) : Option Nat :=
  if characters.isEmpty then
    none
  else
    characters.foldlM
      (fun number character => do
        let digit ← hexValue character
        if digit < base then some (base * number + digit) else none)
      0

def basedInteger (base : Nat) (characters : List Char) : Option ConfigValue := do
  let number ← basedNumber base characters
  if number < Text.signedLimit then some (.integer number) else none

def bareWord (characters : List Char) : Option ConfigValue := do
  match characters with
  | ['t', 'r', 'u', 'e'] => some (.flag true)
  | ['f', 'a', 'l', 's', 'e'] => some (.flag false)
  | '0' :: 'x' :: rest => basedInteger 16 rest
  | '0' :: 'o' :: rest => basedInteger 8 rest
  | '0' :: 'b' :: rest => basedInteger 2 rest
  | _ =>
      let joined ← joinDigits characters
      let number := unsignedPart joined
      if plainDigits number then
        (Text.integer (String.ofList joined)).map .integer
      else if number = ['i', 'n', 'f'] ∨ number = ['n', 'a', 'n'] then
        (Binary64.ofText (String.ofList joined)).map .real
      else if plainDigits (wholePart number) ∧ pointsInside number then
        (Binary64.ofText (String.ofList joined)).map .real
      else
        none

/-! ## Strings -/

def codePoint (digits : List Char) : Option Char := do
  let code ← basedNumber 16 digits
  if code.isValidChar then some (Char.ofNat code) else none

def simpleEscape : Char → Option Char
  | '"' => some '"'
  | '\\' => some '\\'
  | 'n' => some '\n'
  | 't' => some '\t'
  | 'r' => some '\r'
  | 'b' => some (Char.ofNat 8)
  | 'f' => some (Char.ofNat 12)
  | _ => none

/-- The rest of a string in double quotes, after its opening quote. -/
def basicString : List Char → Option (List Char × List Char)
  | [] => none
  | '"' :: rest => some ([], rest)
  | '\\' :: 'u' :: a :: b :: c :: d :: rest => do
      let character ← codePoint [a, b, c, d]
      let (taken, remaining) ← basicString rest
      some (character :: taken, remaining)
  | '\\' :: escape :: rest => do
      let character ← simpleEscape escape
      let (taken, remaining) ← basicString rest
      some (character :: taken, remaining)
  | character :: rest =>
      if character = '\n' ∨ character = '\\' then
        none
      else do
        let (taken, remaining) ← basicString rest
        some (character :: taken, remaining)

/-- The rest of a string in single quotes, taken as it stands. -/
def literalString : List Char → Option (List Char × List Char)
  | [] => none
  | '\'' :: rest => some ([], rest)
  | character :: rest =>
      if character = '\n' then
        none
      else do
        let (taken, remaining) ← literalString rest
        some (character :: taken, remaining)

/-! ## Values -/

mutual

/-- A value and the characters after it; `depth` bounds the nesting. -/
def value (depth : Nat) (characters : List Char) : Option (ConfigValue × List Char) :=
  match depth, characters with
  | 0, _ => none
  | _ + 1, '"' :: rest => (basicString rest).map fun (taken, remaining) =>
      (.text (String.ofList taken), remaining)
  | _ + 1, '\'' :: rest => (literalString rest).map fun (taken, remaining) =>
      (.text (String.ofList taken), remaining)
  | depth + 1, '[' :: rest => (items depth rest).map fun (taken, remaining) =>
      (.list taken, remaining)
  | _ + 1, characters =>
      let (taken, remaining) := takeWord characters
      (bareWord taken).map fun found => (found, remaining)

/-- The items of a list, after its opening bracket or a comma. -/
def items (depth : Nat) (characters : List Char) : Option (List ConfigValue × List Char) :=
  match depth, skipLayout false characters with
  | 0, _ => none
  | _ + 1, ']' :: rest => some ([], rest)
  | depth + 1, start => do
      let (item, rest) ← value depth start
      match skipLayout false rest with
      | ']' :: rest => some ([item], rest)
      | ',' :: rest => do
          let (others, rest) ← items depth rest
          some (item :: others, rest)
      | _ => none

end

/-! ## Keys and lines -/

def isKeyCharacter (character : Char) : Bool :=
  character.isAlphanum || character = '_' || character = '-'

def takeKey : List Char → List Char × List Char
  | [] => ([], [])
  | character :: rest =>
      if isKeyCharacter character then
        let (taken, remaining) := takeKey rest
        (character :: taken, remaining)
      else
        ([], character :: rest)

/-- One part of a key: bare or quoted. -/
def keyPart : List Char → Option (String × List Char)
  | '"' :: rest => (basicString rest).map fun (taken, remaining) =>
      (String.ofList taken, remaining)
  | '\'' :: rest => (literalString rest).map fun (taken, remaining) =>
      (String.ofList taken, remaining)
  | characters =>
      match takeKey characters with
      | ([], _) => none
      | (taken, remaining) => some (String.ofList taken, remaining)

/-- A key of one or more parts joined by points, and the characters after it. -/
def key : Nat → List Char → Option (List String × List Char)
  | 0, _ => none
  | depth + 1, characters => do
      let (first, rest) ← keyPart (skipBlanks characters)
      match skipBlanks rest with
      | '.' :: rest => do
          let (others, rest) ← key depth rest
          some (first :: others, rest)
      | rest => some ([first], rest)

def lineEnd (characters : List Char) : Option (List Char) :=
  match skipBlanks characters with
  | [] => some []
  | '\n' :: rest => some rest
  | '\r' :: '\n' :: rest => some rest
  | '#' :: rest =>
      match skipComment rest with
      | '\n' :: rest => some rest
      | rest => some rest
  | _ => none

/-- What has been read: the section, the full keys seen and the assignments. -/
structure Progress where
  scope : List String
  seen : List (List String)
  assignments : Assignments

/-- Records an assignment; a key inside a section or with several parts makes a table. -/
def Progress.assign (progress : Progress) (path : List String) (assigned : ConfigValue) :
    Option Progress :=
  let full := progress.scope ++ path
  if progress.seen.contains full then
    none
  else
    match full with
    | [] => none
    | [single] => some { progress with
        seen := full :: progress.seen,
        assignments := progress.assignments ++ [(Text.lower single, assigned)] }
    | outer :: _ => some { progress with
        seen := full :: progress.seen,
        assignments := progress.assignments ++ [(Text.lower outer, .table)] }

def Progress.enter (progress : Progress) (path : List String) : Option Progress :=
  if progress.seen.contains path then
    none
  else
    match path with
    | [] => none
    | outer :: _ => some {
        scope := path
        seen := path :: progress.seen
        assignments := progress.assignments ++ [(Text.lower outer, .table)] }

/-- Reads line after line; `fuel` is at least the number of characters left. -/
def lines : Nat → Progress → List Char → Option Assignments
  | 0, progress, characters => if characters.isEmpty then some progress.assignments else none
  | fuel + 1, progress, characters =>
      match skipBlanks characters with
      | [] => some progress.assignments
      | '\n' :: rest => lines fuel progress rest
      | '\r' :: '\n' :: rest => lines fuel progress rest
      | '#' :: rest => lines fuel progress (skipComment rest)
      | '[' :: rest => do
          let (path, rest) ← key (fuel + 1) rest
          match rest with
          | ']' :: rest => do
              let rest ← lineEnd rest
              let progress ← progress.enter path
              lines fuel progress rest
          | _ => none
      | start => do
          let (path, rest) ← key (fuel + 1) start
          match rest with
          | '=' :: rest => do
              let (assigned, rest) ← value (fuel + 1) (skipBlanks rest)
              let rest ← lineEnd rest
              let progress ← progress.assign path assigned
              lines fuel progress rest
          | _ => none

def parse (text : String) : Option Assignments :=
  lines (text.toList.length + 1) ⟨[], [], []⟩ text.toList

end ResidueAlgebra.Toml
