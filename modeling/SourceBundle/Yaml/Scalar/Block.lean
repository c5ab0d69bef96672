import SourceBundle.Yaml.Mark

/-! # Block scalars

A block scalar takes every line that is indented as far as its first one. A literal one keeps
its line breaks; in a folded one a break between two lines that start with no blank becomes a
space. The header says what becomes of the breaks at the end.
-/
namespace SourceBundle.Yaml.Block

inductive Chomp where
  | strip
  | clip
  | keep
deriving DecidableEq, Repr

structure Header where
  chomp : Chomp := .clip
  /-- How far the lines are indented below their parent, if that is told. -/
  increment : Option Nat := none
deriving DecidableEq, Repr

def chomp? : Char → Option Chomp
  | '+' => some .keep
  | '-' => some .strip
  | _ => none

/-- The digit of an increment, which cannot be zero. -/
def increment? (c : Char) : Option (Option Nat) :=
  if !c.isDigit then some none
  else if c = '0' then none
  else some (some (c.toNat - '0'.toNat))

/-- The marks of a header in either order, and how many they are. -/
def header (text : List Char) : Option (Header × Nat) :=
  match text with
  | [] => some ({}, 0)
  | c :: rest =>
    match chomp? c with
    | some chomp => do
      match ← increment? (rest.headD ' ') with
      | some n => return (⟨chomp, some n⟩, 2)
      | none => return (⟨chomp, none⟩, 1)
    | none => do
      match ← increment? c with
      | some n =>
        match rest.head?.bind chomp? with
        | some chomp => return (⟨chomp, some n⟩, 2)
        | none => return (⟨.clip, some n⟩, 1)
      | none => return ({}, 0)

/-- The greatest column that the blank lines in front and the first line reach. A tab in the
indentation is refused. -/
def indentation (column most : Nat) : List Char → Option Nat
  | [] => some most
  | c :: rest =>
    if c = ' ' then indentation (column + 1) (max most (column + 1)) rest
    else if c = '\t' then none
    else if isBreak c then indentation 0 most rest
    else some most

structure State where
  out : List Char := []
  /-- The break that ended the line before, and the breaks after it. -/
  first : List Char := []
  more : List Char := []
  /-- Whether the line before started with a blank. -/
  blank : Bool := false
  inLine : Bool := false
deriving DecidableEq, Repr

def State.startLine (literal : Bool) (s : State) (c : Char) : State :=
  let folded := !literal && s.first = ['\n'] && !s.blank && !isSpace c
  let before := if folded then (if s.more.isEmpty then [' '] else []) else s.first
  ⟨c :: ((before ++ s.more).reverse ++ s.out), [], [], isSpace c, true⟩

def body (literal : Bool) (indent : Nat) (mark : Mark) (s : State) :
    List Char → Option (State × Cursor)
  | [] => some (s, ⟨mark, []⟩)
  | c :: rest =>
    let next := mark.after c
    if s.inLine then
      if isBreak c then body literal indent next { s with first := [c], inLine := false } rest
      else body literal indent next { s with out := c :: s.out } rest
    else if isBreak c then body literal indent next { s with more := s.more ++ [c] } rest
    else if mark.column < indent then
      if c = ' ' then body literal indent next s rest
      else if c = '\t' then none
      else some (s, ⟨mark, c :: rest⟩)
    else body literal indent next (s.startLine literal c) rest

def State.value (s : State) (chomp : Chomp) : List Char :=
  s.out.reverse ++ match chomp with
    | .strip => []
    | .clip => s.first
    | .keep => s.first ++ s.more

/-- Reads a scalar from behind its mark; `margin` is how many columns its parent leaves free. -/
def read (literal : Bool) (margin : Nat) (c : Cursor) : Option (List Char × Cursor) := do
  let (header, count) ← header c.text
  let (_, c) := (c.skip count).run isSpace
  let c := if c.text.head? = some '#' then (c.run (!isBreak ·)).2 else c
  let c ← match c.text with
    | [] => some c
    | b :: rest => if isBreak b then some ⟨c.mark.after b, rest⟩ else none
  let indent ← match header.increment with
    | some n => some (margin - 1 + n)
    | none => (indentation c.mark.column 0 c.text).map fun most => max most (max margin 1)
  let (s, c) ← body literal indent c.mark {} c.text
  return (s.value header.chomp, c)

end SourceBundle.Yaml.Block
