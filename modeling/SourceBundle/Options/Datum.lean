import SourceBundle.Decimal.Shortest
import SourceBundle.Mismatch
import SourceBundle.Options

/-! # Options from structured data

Options are read from an object by field name or from an array by position. Fields of an object
are looked at in the order of their names, and the first mismatch wins. What is left out keeps
its default.
-/
namespace SourceBundle

inductive Datum where
  | null
  | boolean (value : Bool)
  | integer (value : Int)
  /-- A number written with a fraction or an exponent: its digits and their power of ten. -/
  | real (negative : Bool) (digits : Nat) (exponent : Int)
  | string (text : String)
  | array (items : List Datum)
  | object (fields : List (String × Datum))
deriving Repr, Inhabited

namespace Datum

def realText (negative : Bool) (digits : Nat) (exponent : Int) : String :=
  match Decimal.Binary.ofDecimal? digits exponent with
  | some b => Decimal.text Decimal.compactLayout negative b
  | none => "null"

def found : Datum → Found
  | null => .nothing "null"
  | boolean value => .boolean value
  | integer value =>
    if -Int.pow 2 63 ≤ value ∧ value < Int.pow 2 64 then .integer (toString value)
    else .float (realText (value < 0) value.natAbs 0)
  | real negative digits exponent => .float (realText negative digits exponent)
  | string text => .string text
  | array _ => .sequence
  | object _ => .map

def boolean? : Datum → Except Mismatch Bool
  | boolean value => .ok value
  | d => .error (.wrongType d.found "a boolean")

def charset? : Datum → Except Mismatch Charset
  | string text =>
    match Charset.ofName? text with
    | some charset => .ok charset
    | none => .error (.unsupportedCharset text)
  | d => .error (.wrongType d.found "a string")

end Datum

namespace Options

/-- The fields in the order in which an array gives them. -/
def fieldNames : List String := ["charset", "verbose", "separator", "eliminate_unused"]

def setField (o : Options) (name : String) (d : Datum) : Except Mismatch Options :=
  match name with
  | "charset" => d.charset?.map fun charset => { o with charset }
  | "verbose" => d.boolean?.map fun verbose => { o with verbose }
  | "separator" => d.boolean?.map fun separator => { o with separator }
  | "eliminate_unused" => d.boolean?.map fun eliminateUnused => { o with eliminateUnused }
  | _ => .error (.unknownField name fieldNames)

def setFields (fields : List (String × Datum)) : Except Mismatch Options :=
  fields.foldlM (fun o (name, d) => o.setField name d) {}

def ofDatum : Datum → Except Mismatch Options
  | .object fields => setFields (fields.mergeSort fun a b => decide (a.1 ≤ b.1))
  | .array items => do
    let o ← setFields (fieldNames.zip items)
    if fieldNames.length < items.length then throw (.tooLong items.length)
    return o
  | d => .error (.wrongType d.found "struct CombineOptions")

end Options

end SourceBundle
