import SourceBundle.Text.Quoted

/-! # Mismatches

What was found where something else was expected, in data that options or project settings are
read from.
-/
namespace SourceBundle

inductive Found where
  | boolean (value : Bool)
  /-- An integer by its digits. -/
  | integer (digits : String)
  /-- An integer too wide for 64 bits, and the type that holds it. -/
  | wideInteger (digits width : String)
  | float (text : String)
  | string (text : String)
  /-- Nothing, under the name that the format has for it. -/
  | nothing (name : String)
  | sequence
  | map
deriving DecidableEq, Repr

def Found.text : Found → String
  | boolean value => "boolean `" ++ toString value ++ "`"
  | integer digits => "integer `" ++ digits ++ "`"
  | wideInteger digits width => "integer `" ++ digits ++ "` as " ++ width
  | float text => "floating point `" ++ text ++ "`"
  | string text => "string " ++ String.ofList (Text.quote text.toList)
  | nothing name => name
  | sequence => "sequence"
  | map => "map"

inductive Mismatch where
  | wrongType (found : Found) (expected : String)
  | wrongValue (found : Found) (expected : String)
  | unknownField (name : String) (known : List String)
  | duplicateField (name : String)
  | unsupportedCharset (name : String)
  | tooLong (length : Nat)
deriving DecidableEq, Repr

def Mismatch.text : Mismatch → String
  | wrongType found expected => "invalid type: " ++ found.text ++ ", expected " ++ expected
  | wrongValue found expected => "invalid value: " ++ found.text ++ ", expected " ++ expected
  | unknownField name known =>
    "unknown field `" ++ name ++ "`, expected one of "
      ++ String.intercalate ", " (known.map fun k => "`" ++ k ++ "`")
  | duplicateField name => "duplicate field `" ++ name ++ "`"
  | unsupportedCharset name => "Unsupported charset: " ++ name
  | tooLong length => "invalid length " ++ toString length ++ ", expected fewer elements in array"

end SourceBundle
