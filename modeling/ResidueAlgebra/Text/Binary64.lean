import ResidueAlgebra.Text.Integer

/-!
# Binary floating-point numbers

Numbers of the form `mantissa * 2 ^ exponent` with 53 bits of mantissa, computed exactly. Reading a
decimal rounds it to the nearest such number, a tie to the even mantissa. Writing gives the fewest
digits that read back as the number, without an exponent.
-/
set_option autoImplicit false
namespace ResidueAlgebra

inductive Binary64 where
  | finite (negative : Bool) (mantissa : Nat) (exponent : Int)
  | infinite (negative : Bool)
  | notANumber
  deriving DecidableEq

namespace Binary64

def leastExponent : Int := -1074

def greatestExponent : Int := 971

/-- Numerator and denominator of a fraction times a power of the base. -/
def scaled (numerator denominator base : Nat) (exponent : Int) : Nat × Nat :=
  if exponent < 0 then
    (numerator, denominator * Nat.pow base exponent.natAbs)
  else
    (numerator * Nat.pow base exponent.natAbs, denominator)

/-- Nearest integer to a fraction, a tie to the even one. -/
def roundToEven (numerator denominator : Nat) : Nat :=
  let quotient := numerator / denominator
  let rest := 2 * (numerator % denominator)
  if rest < denominator then
    quotient
  else if rest = denominator then
    quotient + quotient % 2
  else
    quotient + 1

/-- Exponent of the highest power of two that does not exceed a positive fraction. -/
def binaryMagnitude (numerator denominator : Nat) : Int :=
  let guess : Int := (Nat.log2 numerator : Int) - (Nat.log2 denominator : Int)
  let (raised, against) := scaled numerator denominator 2 (-guess)
  if raised < against then guess - 1 else guess

def ofFraction (negative : Bool) (numerator denominator : Nat) : Binary64 :=
  if numerator = 0 then
    .finite negative 0 leastExponent
  else
    let exponent := max (binaryMagnitude numerator denominator - 52) leastExponent
    let (raised, against) := scaled numerator denominator 2 (-exponent)
    let mantissa := roundToEven raised against
    let (mantissa, exponent) :=
      if mantissa = 9007199254740992 then (4503599627370496, exponent + 1)
      else (mantissa, exponent)
    if greatestExponent < exponent then .infinite negative
    else .finite negative mantissa exponent

def digitCount (value : Nat) : Nat :=
  (Nat.toDigits 10 value).length

/-- The number nearest to `digits * 10 ^ exponent`. Magnitudes far outside the range are decided
without forming the power. -/
def ofDecimal (negative : Bool) (digits : Nat) (exponent : Int) : Binary64 :=
  if digits = 0 then
    .finite negative 0 leastExponent
  else
    let magnitude := exponent + digitCount digits
    if magnitude < -400 then
      .finite negative 0 leastExponent
    else if 400 < magnitude then
      .infinite negative
    else
      let (numerator, denominator) := scaled digits 1 10 exponent
      ofFraction negative numerator denominator

/-! ## Reading -/

def takeDigits : List Char → List Char × List Char
  | [] => ([], [])
  | character :: rest =>
      if (Text.digitValue character).isSome then
        let (taken, remaining) := takeDigits rest
        (character :: taken, remaining)
      else
        ([], character :: rest)

def readExponent : List Char → Option Int
  | [] => some 0
  | marker :: rest =>
      if marker = 'e' ∨ marker = 'E' then
        match rest with
        | '+' :: digits => (Text.digits digits).map fun value => (value : Int)
        | '-' :: digits => (Text.digits digits).map fun value => -(value : Int)
        | digits => (Text.digits digits).map fun value => (value : Int)
      else
        none

/-- Digits with an optional point and an optional exponent; a digit has to stand on one side of the
point. -/
def readUnsigned (negative : Bool) (characters : List Char) : Option Binary64 := do
  let (whole, rest) := takeDigits characters
  let (fraction, rest) :=
    match rest with
    | '.' :: after => takeDigits after
    | _ => ([], rest)
  let digits ← Text.digits (whole ++ fraction)
  let exponent ← readExponent rest
  some (ofDecimal negative digits (exponent - fraction.length))

def readMagnitude (negative : Bool) (characters : List Char) : Option Binary64 :=
  match Text.lower (String.ofList characters) with
  | "inf" => some (.infinite negative)
  | "infinity" => some (.infinite negative)
  | "nan" => some .notANumber
  | _ => readUnsigned negative characters

def ofText (text : String) : Option Binary64 :=
  match text.toList with
  | '-' :: rest => readMagnitude true rest
  | '+' :: rest => readMagnitude false rest
  | characters => readMagnitude false characters

/-! ## Writing -/

/-- Exponent of the highest power of ten that does not exceed a positive fraction, found from the
given exponent downward. -/
def decimalMagnitude (numerator denominator : Nat) (exponent : Int) : Nat → Int
  | 0 => exponent
  | steps + 1 =>
      let (raised, against) := scaled numerator denominator 10 (-exponent)
      if raised < against then decimalMagnitude numerator denominator (exponent - 1) steps
      else exponent

/-- The fewest digits, from `count` on, that read back as the number; of two such, the nearer. -/
def shortestFrom (number : Binary64) (numerator denominator : Nat) (magnitude : Int)
    (count : Nat) : Nat → Nat × Int
  | 0 => (0, 0)
  | tries + 1 =>
      let exponent := magnitude + 1 - count
      let (raised, against) := scaled numerator denominator 10 (-exponent)
      let below := raised / against
      let readsBack := fun digits => ofDecimal false digits exponent = number
      let nearerBelow := 2 * (raised % against) ≤ against
      if readsBack below ∧ (nearerBelow ∨ ¬ readsBack (below + 1)) then
        (below, exponent)
      else if readsBack (below + 1) then
        if (below + 1) % 10 = 0 then ((below + 1) / 10, exponent + 1) else (below + 1, exponent)
      else
        shortestFrom number numerator denominator magnitude (count + 1) tries

/-- Digits and a power of ten written without an exponent. -/
def positional (digits : Nat) (exponent : Int) : String :=
  let written := Nat.toDigits 10 digits
  if exponent < 0 then
    let places := exponent.natAbs
    let padded := List.replicate (places + 1 - written.length) '0' ++ written
    String.ofList (padded.take (padded.length - places)) ++ "."
      ++ String.ofList (padded.drop (padded.length - places))
  else
    String.ofList (written ++ List.replicate exponent.natAbs '0')

def signText (negative : Bool) : String :=
  if negative then "-" else ""

def text : Binary64 → String
  | .notANumber => "NaN"
  | .infinite negative => signText negative ++ "inf"
  | .finite negative mantissa exponent =>
      if mantissa = 0 then
        signText negative ++ "0"
      else
        let (numerator, denominator) := scaled mantissa 1 2 exponent
        let magnitude := decimalMagnitude numerator denominator 309 700
        let (digits, power) :=
          shortestFrom (.finite false mantissa exponent) numerator denominator magnitude 1 17
        signText negative ++ positional digits power

/-- Nearest unsigned word: a half goes away from zero, and what lies outside is cut to the ends. -/
def toWord : Binary64 → Nat
  | .notANumber => 0
  | .infinite negative => if negative then 0 else Word.long - 1
  | .finite negative mantissa exponent =>
      if negative then
        0
      else
        let (numerator, denominator) := scaled mantissa 1 2 exponent
        min ((2 * numerator + denominator) / (2 * denominator)) (Word.long - 1)

end Binary64

end ResidueAlgebra
