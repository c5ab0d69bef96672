import SourceBundle.Mismatch
import SourceBundle.Project.Decoder
import SourceBundle.Yaml.Document
import SourceBundle.Yaml.Scalar.Value

/-! # Reading project files

A project file is a mapping with five known keys, or it holds nothing. Values are read in the
order of the text, so of several mistakes the first is told, and a mistake in the values comes
before a fault of the text behind it. A mistake is told with the place of the value. One that
the value as such does not show, a repeated key or an unknown charset, has the place of the
mapping.
-/
namespace SourceBundle.Project

open Yaml (Document Item Mark Scalar)

/-- Why a text is no project. -/
inductive Rejection where
  /-- The text is no document, or not one alone. -/
  | malformed
  /-- A value is not what is expected at a path; the path of the whole is empty. -/
  | mismatch (mismatch : Mismatch) (path : String) (mark : Mark)
deriving DecidableEq, Repr

namespace Rejection

/-- The place for a reader, who counts from one; the very start is not told. -/
def place (m : Mark) : String :=
  if m = {} then ""
  else " at line " ++ toString (m.line + 1) ++ " column " ++ toString (m.column + 1)

/-- What is said of a text; the reason is that of a text that is no document. -/
def message (reason : String) : Rejection → String
  | malformed => reason
  | mismatch m path mark => (if path = "" then "" else path ++ ": ") ++ m.text ++ place mark

end Rejection

abbrev Items := List (Item × Mark)

/-- What a value needs to be read: the document, the start of the mapping and the path. -/
structure Context where
  document : Document
  top : Mark
  path : String

abbrev Read (α : Type) := Context → Items → Except Rejection (α × Items)

/-- The items from a value on, with its alias, if it is one, followed. -/
def Context.look (c : Context) : Items → Items
  | (.alias number, _) :: _ => c.document.node number
  | items => items

def Context.reject {α : Type} (c : Context) (m : Mismatch) (mark : Mark) : Except Rejection α :=
  .error (.mismatch m c.path mark)

/-- A mistake that has the place of the mapping. -/
def Context.rejectAll {α : Type} (c : Context) (m : Mismatch) : Except Rejection α :=
  .error (.mismatch m "" c.top)

/-- The text of any scalar. -/
def readString (expected : String) : Read String := fun c items =>
  match c.look items with
  | (.scalar s, _) :: _ => .ok (String.ofList s.value, items.drop 1)
  | (.sequence, mark) :: _ => c.reject (.wrongType .sequence expected) mark
  | (.mapping, mark) :: _ => c.reject (.wrongType .map expected) mark
  | _ => .error .malformed

def readBoolean : Read Bool := fun c items =>
  match c.look items with
  | (.scalar s, mark) :: _ =>
    let bare := s.style = .plain ∨ (s.style = .literal ∧ s.tag = some (Scalar.standardTag "bool"))
    match if bare then Scalar.boolean? s.value else none with
    | some value => .ok (value, items.drop 1)
    | none => c.reject (s.mismatch "a boolean") mark
  | (.sequence, mark) :: _ => c.reject (.wrongType .sequence "a boolean") mark
  | (.mapping, mark) :: _ => c.reject (.wrongType .map "a boolean") mark
  | _ => .error .malformed

def readCharset : Read Charset := fun c items => do
  let (name, rest) ← readString "a string" c items
  match Charset.ofName? name with
  | some charset => return (charset, rest)
  | none => c.rejectAll (.unsupportedCharset name)

/-- Whether a scalar stands for a value that is left out. -/
def isLeftOut (c : Context) (s : Scalar) : Except Rejection Bool :=
  if s.style ≠ .plain then .ok false
  else match s.tag with
    | none => .ok (s.value.isEmpty || Scalar.isNothing s.value)
    | some tag =>
      if tag ≠ Scalar.standardTag "null" then .ok false
      else if Scalar.isNothing s.value then .ok true
      else c.rejectAll (.wrongValue (.string (String.ofList s.value)) "null")

def readOptional {α : Type} (read : Read α) : Read (Option α) := fun c items => do
  let leftOut ← match c.look items with
    | (.scalar s, _) :: _ => isLeftOut c s
    | _ => .ok false
  if leftOut then return (none, items.drop 1)
  let (value, rest) ← read c items
  return (some value, rest)

/-- The strings up to the end of a sequence. -/
def readItems (c : Context) (index : Nat) : Items → Except Rejection (List String × Items)
  | [] => .error .malformed
  | (.sequenceEnd, _) :: rest => .ok ([], rest)
  | item :: rest => do
    let path := c.path ++ "[" ++ toString index ++ "]"
    let (value, _) ← readString "a string" { c with path } (item :: rest)
    let (values, rest) ← readItems c (index + 1) rest
    return (value :: values, rest)

def readStrings : Read (List String) := fun c all =>
  match c.look all with
  | (.sequence, _) :: inner => do
    let (values, rest) ← readItems c 0 inner
    match all with
    | (.alias _, _) :: rest => return (values, rest)
    | _ => return (values, rest)
  | (.scalar s, mark) :: _ =>
    if s.value.isEmpty ∧ s.style = .plain then .ok ([], all.drop 1)
    else c.reject (s.mismatch "a sequence") mark
  | (.mapping, mark) :: _ => c.reject (.wrongType .map "a sequence") mark
  | _ => .error .malformed

/-- Reads the value of a field. -/
def readField (p : Project) (name : String) : Read Project := fun c items =>
  match name with
  | "inputs" => (readStrings c items).map fun (inputs, rest) => ({ p with inputs }, rest)
  | "output" =>
    (readOptional (readString "path string") c items).map fun (output, rest) => ({ p with output }, rest)
  | "charset" =>
    (readOptional readCharset c items).map fun (charset, rest) => ({ p with charset }, rest)
  | "separator" =>
    (readOptional readBoolean c items).map fun (separator, rest) => ({ p with separator }, rest)
  | _ =>
    (readOptional readBoolean c items).map fun (eliminateUnused, rest) => ({ p with eliminateUnused }, rest)

/-- The path that a value is told with; where its key is an alias, it has no name. -/
def placeOf (name : String) : Items → String
  | (.scalar _, _) :: _ => name
  | _ => "?"

/-- Reads fields up to the end of the mapping. Each takes at least two items, which bounds the
fuel. -/
def readFields (c : Context) : Nat → List String → Project → Items → Except Rejection Project
  | 0, _, _, _ => .error .malformed
  | _ + 1, _, p, (.mappingEnd, _) :: _ => .ok p
  | fuel + 1, seen, p, all => do
    let (name, rest) ← readString "field identifier" c all
    if name ∉ fieldNames then
      c.reject (.unknownField name fieldNames) (((c.look all).head?.map Prod.snd).getD {})
    if name ∈ seen then c.rejectAll (.duplicateField name)
    let (p, rest) ← readField p name { c with path := placeOf name all } rest
    readFields c fuel (name :: seen) p rest

def ofDocument (d : Document) : Except Rejection Project := do
  let expected := "struct ProjectConfig"
  let p ← match d.items with
    | [] => .ok {}
    | (.mapping, mark) :: rest => readFields ⟨d, mark, ""⟩ (rest.length + 1) [] {} rest
    | (.scalar s, mark) :: _ =>
      if s.value.isEmpty ∧ s.style = .plain then .ok {}
      else .error (.mismatch (s.mismatch expected) "" mark)
    | (.sequence, mark) :: _ => .error (.mismatch (.wrongType .sequence expected) "" mark)
    | _ => .error .malformed
  if d.sound then return p else throw .malformed

/-- What is said of a text that is no document; this reader does not tell why. -/
def malformedText : String := "the text is malformed"

/-- Decodes by this reader. -/
instance : Decoder where
  decode text := (ofDocument (Document.ofText text)).mapError (·.message malformedText)

end SourceBundle.Project
