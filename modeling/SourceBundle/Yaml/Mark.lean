/-! # Places in a text

Line breaks are unified before a text is read: a carriage return, a line feed, both in this
order, and U+0085 are all one line feed; U+2028 and U+2029 stay as they are. Lines and columns
are counted in characters from zero.
-/
namespace SourceBundle.Yaml

structure Mark where
  line : Nat := 0
  column : Nat := 0
deriving DecidableEq, Repr, Inhabited

def isBreak (c : Char) : Bool := c = '\n' || c = '\u2028' || c = '\u2029'

def isSpace (c : Char) : Bool := c = ' ' || c = '\t'

/-- Whether a word may end before what follows. -/
def atGap : List Char → Bool
  | [] => true
  | c :: _ => isSpace c || isBreak c

def Mark.after (m : Mark) (c : Char) : Mark :=
  if isBreak c then ⟨m.line + 1, 0⟩ else ⟨m.line, m.column + 1⟩

def Mark.right (m : Mark) (count : Nat) : Mark := ⟨m.line, m.column + count⟩

structure Cursor where
  mark : Mark := {}
  text : List Char
deriving DecidableEq, Repr, Inhabited

namespace Cursor

def skip (c : Cursor) (count : Nat) : Cursor := ⟨c.mark.right count, c.text.drop count⟩

/-- The longest run of characters of a class, and the cursor after it. -/
def run (c : Cursor) (p : Char → Bool) : List Char × Cursor :=
  let word := c.text.takeWhile p
  (word, c.skip word.length)

end Cursor

def unifyBreaks : List Char → List Char
  | '\r' :: '\n' :: rest | '\r' :: rest | '\u0085' :: rest => '\n' :: unifyBreaks rest
  | c :: rest => c :: unifyBreaks rest
  | [] => []

/-- The characters that a text may hold: no control characters apart from tabs and line breaks,
and not the two code points that end the first plane. -/
def isAllowed (c : Char) : Bool :=
  let n := c.toNat
  n = 9 || n = 10 || n = 13 || (0x20 ≤ n && n ≤ 0x7E) || n = 0x85
    || (0xA0 ≤ n && n ≤ 0xFFFD) || 0x10000 ≤ n

/-- Whether three of these characters stand alone at the start of a line, where they mark the
start or the end of a document. -/
def marksDocument (c : Char) (m : Mark) (text : List Char) : Bool :=
  m.column = 0 && text.take 3 = [c, c, c] && atGap (text.drop 3)

def atDocumentMark (m : Mark) (text : List Char) : Bool :=
  marksDocument '-' m text || marksDocument '.' m text

def isWord (c : Char) : Bool := c.isAlphanum || c = '_' || c = '-'

def hexDigit? (c : Char) : Option Nat :=
  if c.isDigit then some (c.toNat - '0'.toNat)
  else if 'a' ≤ c ∧ c ≤ 'f' then some (c.toNat - 'a'.toNat + 10)
  else if 'A' ≤ c ∧ c ≤ 'F' then some (c.toNat - 'A'.toNat + 10)
  else none

end SourceBundle.Yaml
