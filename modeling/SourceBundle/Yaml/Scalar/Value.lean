import SourceBundle.Decimal.Shortest
import SourceBundle.Mismatch
import SourceBundle.Yaml.Event

/-! # What scalars are taken for

A plain scalar without a tag is nothing, a boolean, an integer, a floating point number or else
a string, by the look of it; a tag may ask for one of these. Zeros in front of other digits make
a string.
-/
namespace SourceBundle.Yaml.Scalar

def standardTag (name : String) : List Char := ("tag:yaml.org,2002:" ++ name).toList

def isNothing (text : List Char) : Bool :=
  ["null".toList, "Null".toList, "NULL".toList, "~".toList].contains text

def boolean? (text : List Char) : Option Bool :=
  if ["true".toList, "True".toList, "TRUE".toList].contains text then some true
  else if ["false".toList, "False".toList, "FALSE".toList].contains text then some false
  else none

def digit? (radix : Nat) (c : Char) : Option Nat := (hexDigit? c).filter (· < radix)

/-- The number that digits write; there must be at least one. -/
def natural? (radix : Nat) (text : List Char) : Option Nat :=
  if text.isEmpty then none
  else text.foldlM (fun n c => (digit? radix c).map (radix * n + ·)) 0

/-- Whether zeros stand in front of other digits, behind a sign or not. -/
def hasLeadingZero (text : List Char) : Bool :=
  let digits := match text with
    | '-' :: rest | '+' :: rest => rest
    | _ => text
  1 < digits.length && digits.head? = some '0' && digits.all Char.isDigit

def marked? (text : List Char) : Option Nat :=
  match text with
  | '0' :: 'x' :: digits => natural? 16 digits
  | '0' :: 'o' :: digits => natural? 8 digits
  | '0' :: 'b' :: digits => natural? 2 digits
  | _ => none

def integer? (text : List Char) : Option Int :=
  let read := fun digits =>
    (marked? digits).or (if hasLeadingZero text then none else natural? 10 digits)
  match text with
  | '-' :: digits => (read digits).map fun n => -(n : Int)
  | '+' :: digits => (read digits).map Int.ofNat
  | digits => (read digits).map Int.ofNat

/-- The digits in front of and behind the point, and the exponent. -/
def decimal? (text : List Char) : Option (Nat × Int) := do
  let whole := text.takeWhile Char.isDigit
  let rest := text.drop whole.length
  let fraction := match rest with
    | '.' :: rest => rest.takeWhile Char.isDigit
    | _ => []
  let rest := match rest with
    | '.' :: rest => rest.drop fraction.length
    | _ => rest
  let digits ← natural? 10 (whole ++ fraction)
  let exponent ← match rest with
    | [] => some 0
    | c :: rest =>
      if c = 'e' ∨ c = 'E' then
        match rest with
        | '-' :: rest => (natural? 10 rest).map fun n => -(n : Int)
        | '+' :: rest => (natural? 10 rest).map Int.ofNat
        | rest => (natural? 10 rest).map Int.ofNat
      else none
  return (digits, exponent - fraction.length)

/-- The text of a floating point number as a message shows it. -/
def float? (text : List Char) : Option String :=
  let plain := match text with
    | '+' :: rest => rest
    | _ => text
  let finite := fun negative digits => do
    let (digits, exponent) ← decimal? digits
    return Decimal.text Decimal.plainLayout negative (← Decimal.Binary.ofDecimal? digits exponent)
  if [".inf".toList, ".Inf".toList, ".INF".toList].contains plain then some "inf"
  else if ["-.inf".toList, "-.Inf".toList, "-.INF".toList].contains text then some "-inf"
  else if [".nan".toList, ".NaN".toList, ".NAN".toList].contains text then some "NaN"
  else match text with
    | '-' :: digits => finite true digits
    | _ => finite false plain

def integerFound? (n : Int) : Option Found :=
  if -Int.pow 2 63 ≤ n ∧ n < Int.pow 2 64 then some (.integer (toString n))
  else if 0 ≤ n ∧ n < Int.pow 2 128 then some (.wideInteger (toString n) "u128")
  else if -Int.pow 2 127 ≤ n ∧ n < 0 then some (.wideInteger (toString n) "i128")
  else none

def integerText? (text : List Char) : Option Found := (integer? text).bind integerFound?

def nothing : Found := .nothing "unit value"

def plainFound (text : List Char) : Found :=
  if text.isEmpty || isNothing text then nothing
  else match boolean? text with
    | some value => .boolean value
    | none =>
      match integerText? text with
      | some found => found
      | none =>
        match if hasLeadingZero text then none else float? text with
        | some number => .float number
        | none => .string (String.ofList text)

/-- What is wrong with a scalar where something else is expected. -/
def mismatch (s : Scalar) (expected : String) : Mismatch :=
  let string := Found.string (String.ofList s.value)
  let asked := fun (found : Option Found) (name : String) =>
    match found with
    | some found => Mismatch.wrongType found expected
    | none => .wrongValue string name
  match s.tag with
  | none => .wrongType (if s.style = .plain then plainFound s.value else string) expected
  | some tag =>
    if tag = standardTag "bool" then asked ((boolean? s.value).map Found.boolean) "a boolean"
    else if tag = standardTag "int" then asked (integerText? s.value) "an integer"
    else if tag = standardTag "float" then asked ((float? s.value).map Found.float) "a float"
    else if tag = standardTag "null" then
      asked (if isNothing s.value then some nothing else none) "null"
    else if tag.head? = some '!' ∧ s.style = .plain then .wrongType (plainFound s.value) expected
    else .wrongType string expected

end SourceBundle.Yaml.Scalar
