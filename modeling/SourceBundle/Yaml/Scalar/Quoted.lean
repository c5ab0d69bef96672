import SourceBundle.Yaml.Scalar.Gap

/-! # Quoted scalars

Between single quotes only the quote itself is written twice. Between double quotes a backslash
starts an escape: a letter, a code point in two, four or eight digits, or a line break, which is
left out with the blanks after it.
-/
namespace SourceBundle.Yaml.Quoted

inductive Style where
  | single
  | double
deriving DecidableEq, Repr

def Style.mark : Style → Char
  | single => '\''
  | double => '"'

inductive Escape where
  | none
  | begun
  /-- The value so far, and the digits still to come. -/
  | digits (value left : Nat)
deriving DecidableEq, Repr

def letters : List (Char × Char) :=
  [('0', '\x00'), ('a', '\x07'), ('b', '\x08'), ('t', '\t'), ('\t', '\t'), ('n', '\n'),
   ('v', '\x0b'), ('f', '\x0c'), ('r', '\r'), ('e', '\x1b'), (' ', ' '), ('"', '"'), ('/', '/'),
   ('\\', '\\'), ('N', '\u0085'), ('_', '\u00a0'), ('L', '\u2028'), ('P', '\u2029')]

/-- How many digits follow the letter of a numeric escape. -/
def digitCounts : List (Char × Nat) := [('x', 2), ('u', 4), ('U', 8)]

def isScalarValue (n : Nat) : Bool := n < 0xD800 || (0xDFFF < n && n ≤ 0x10FFFF)

/-- Reads up to the closing quote; what has been read comes last character first. -/
def read (style : Style) (mark : Mark) (out : List Char) (gap : Gap) (escape : Escape) :
    List Char → Option (List Char × Cursor)
  | [] => none
  | c :: rest =>
    match escape with
    | .digits value left =>
      match hexDigit? c with
      | none => none
      | some digit =>
        let value := value * 16 + digit
        match left with
        | 0 | 1 =>
          if isScalarValue value then
            read style (mark.after c) (Char.ofNat value :: out) .empty .none rest
          else none
        | left + 1 => read style (mark.after c) out .empty (.digits value left) rest
    | .begun =>
      if isBreak c then read style (mark.after c) out (.lines [] []) .none rest
      else match letters.lookup c, digitCounts.lookup c with
        | some d, _ => read style (mark.after c) (d :: out) .empty .none rest
        | none, some count => read style (mark.after c) out .empty (.digits 0 count) rest
        | none, none => none
    | .none =>
      if isSpace c then read style (mark.after c) out (gap.addSpace c) .none rest
      else if isBreak c then read style (mark.after c) out (gap.addBreak c) .none rest
      else if gap ≠ .empty ∧ atDocumentMark mark (c :: rest) then none
      else
        let out := gap.text.reverse ++ out
        if c = style.mark then
          match style, rest with
          | .single, '\'' :: rest => read style (mark.right 2) ('\'' :: out) .empty .none rest
          | _, rest => some (out.reverse, ⟨mark.after c, rest⟩)
        else if style = .double ∧ c = '\\' then
          read style (mark.after c) out .empty .begun rest
        else read style (mark.after c) (c :: out) .empty .none rest

end SourceBundle.Yaml.Quoted
