import SourceBundle.Plan

/-! # Listing a plan

The files of a plan in order, one path on a line or as a JSON array of objects that also name
the declared dependencies.
-/
namespace SourceBundle.Listing

def hexDigit (n : Nat) : Char := (Nat.digitChar n)

/-- How a character stands in a JSON string: quotes, backslashes and control characters are
escaped, all else is written as it is. -/
def escape (c : Char) : List Char :=
  match c with
  | '"' => ['\\', '"']
  | '\\' => ['\\', '\\']
  | '\n' => ['\\', 'n']
  | '\r' => ['\\', 'r']
  | '\t' => ['\\', 't']
  | '\x08' => ['\\', 'b']
  | '\x0c' => ['\\', 'f']
  | c =>
    if c.toNat < 0x20 then
      ['\\', 'u', '0', '0', hexDigit (c.toNat / 16), hexDigit (c.toNat % 16)]
    else [c]

def quote (text : String) : String :=
  "\"" ++ String.ofList (text.toList.flatMap escape) ++ "\""

/-- An array over several lines, each item after `margin`; the empty one stands on one line. -/
def array (margin : String) (items : List String) : String :=
  if items.isEmpty then "[]"
  else
    "[\n" ++ String.intercalate ",\n" (items.map (margin ++ "  " ++ ·)) ++ "\n" ++ margin ++ "]"

def object (path : String) (dependencies : List String) : String :=
  "\x7b\n    \"path\": " ++ quote path ++ ",\n    \"dependencies\": "
    ++ array "    " (dependencies.map quote) ++ "\n  \x7d"

structure Item where
  path : String
  dependencies : List String
deriving DecidableEq, Repr

/-- What is listed: dependencies as declared, repeats and self references included. -/
def items (p : Plan) : List Item :=
  p.sources.map fun s => ⟨s.path, s.dependencies.map p.registry.path⟩

def text (p : Plan) : String := String.join (p.sources.map (·.path ++ "\n"))

def json (p : Plan) : String :=
  array "" ((items p).map fun item => object item.path item.dependencies) ++ "\n"

end SourceBundle.Listing
