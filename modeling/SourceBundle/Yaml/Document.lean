import SourceBundle.Yaml.Event

/-! # Documents

A text holds one document. Its nodes are its events; an alias tells the position of the node
that it stands for. Of a malformed text the document has what was read before the fault.
-/
namespace SourceBundle.Yaml

inductive Item where
  | scalar (scalar : Scalar)
  | sequence
  | sequenceEnd
  | mapping
  | mappingEnd
  /-- Stands for the node with this number. -/
  | alias (number : Nat)
deriving DecidableEq, Repr

structure Document where
  items : List (Item × Mark) := []
  /-- The numbers of the anchored nodes with their positions, the last ones first. -/
  anchored : List (Nat × Nat) := []
  /-- Whether the text is well formed and holds nothing else. -/
  sound : Bool := true
deriving DecidableEq, Repr

namespace Document

/-- The names met so far, the last ones first, with their numbers. -/
abbrev Names := List (List Char × Nat)

/-- An anchored node gets as its number the count of different names before it. -/
def register (d : Document) (names : Names) (anchor : Option (List Char)) : Document × Names :=
  match anchor with
  | none => (d, names)
  | some name =>
    let number := (names.map Prod.fst).eraseDups.length
    ({ d with anchored := (number, d.items.length) :: d.anchored }, (name, number) :: names)

/-- Adds an event; `none` where an alias stands for nothing. -/
def add (d : Document) (names : Names) (event : Marked) : Option (Document × Names) :=
  let put := fun ((d, names) : Document × Names) item =>
    some ({ d with items := d.items ++ [(item, event.2)] }, names)
  match event.1 with
  | .alias name => (names.lookup name).bind fun number => put (d, names) (.alias number)
  | .scalar scalar anchor => put (d.register names anchor) (.scalar scalar)
  | .sequence anchor => put (d.register names anchor) .sequence
  | .sequenceEnd => put (d, names) .sequenceEnd
  | .mapping anchor => put (d.register names anchor) .mapping
  | .mappingEnd => put (d, names) .mappingEnd

def addAll (d : Document) (names : Names) : List Marked → Document
  | [] => d
  | event :: events =>
    match d.add names event with
    | some (d, names) => addAll d names events
    | none => { d with sound := false }

/-- How many events a list of tokens can yield: between two tokens at most three nodes are left
out or closed. -/
def fuel (ts : List Token) : Nat := 4 * (ts.length + 2)

def ofGrammar (handles : Grammar.Handles) (expected : Grammar.Expected) (ts : List Token) :
    Document :=
  let (events, left) := Grammar.run handles (fuel ts) [expected] ts
  addAll { sound := left.any Grammar.ends } [] events

/-- The document of a text. A text without any nodes holds the document without items. -/
def ofText (text : List Char) : Document :=
  match tokens text with
  | [] => { sound := false }
  | token :: ts =>
    if token.lexeme = .streamEnd then {}
    else if token.lexeme.endsDocument && token.lexeme ≠ .documentEnd then
      match Grammar.directives false [] (token :: ts) with
      | some (handles, ⟨.documentStart, _, _⟩ :: ts) =>
        ofGrammar (handles ++ Grammar.defaultHandles) .content ts
      | _ => { sound := false }
    else ofGrammar Grammar.defaultHandles .node (token :: ts)

def node (d : Document) (number : Nat) : List (Item × Mark) :=
  match d.anchored.lookup number with
  | some position => d.items.drop position
  | none => []

end Document

end SourceBundle.Yaml
