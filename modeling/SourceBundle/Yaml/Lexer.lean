import SourceBundle.Yaml.Scalar.Block
import SourceBundle.Yaml.Scalar.Plain
import SourceBundle.Yaml.Scalar.Quoted
import SourceBundle.Yaml.Tag
import SourceBundle.Yaml.Token

/-! # From a text to tokens

A key of a mapping shows only at the colon behind it. So the place where a key could start is
kept as a candidate, one for each level of brackets, and its token is put into the queue when
the colon comes. No token at or behind a candidate is handed on: what has been handed on when
the text turns out to be malformed depends on that.
-/
namespace SourceBundle.Yaml

/-- A place where a key could start. -/
structure Candidate where
  /-- Whether the indentation leaves nothing else for it to be. -/
  required : Bool
  /-- The number of the token at that place. -/
  number : Nat
  mark : Mark
deriving DecidableEq, Repr

structure Lexer where
  cursor : Cursor
  /-- How many tokens have been handed on. -/
  count : Nat := 0
  queue : List Token := []
  /-- One more than the indentation of the current block; 0 outside of all blocks. -/
  margin : Nat := 0
  margins : List Nat := []
  keyAllowed : Bool := true
  candidate : Option Candidate := none
  /-- The candidates of the levels of brackets around the current one. -/
  outer : List (Option Candidate) := []
deriving DecidableEq, Repr

namespace Lexer

def mark (l : Lexer) : Mark := l.cursor.mark

def text (l : Lexer) : List Char := l.cursor.text

def inFlow (l : Lexer) : Bool := !l.outer.isEmpty

/-! ## Candidates -/

/-- A key stands on one line and starts at most this many characters before its colon. -/
def keyLimit : Nat := 1024

def isStale (k : Candidate) (m : Mark) : Bool :=
  k.mark.line < m.line || k.mark.column + keyLimit < m.column

/-- Forgets a candidate that can no longer be a key; `none` if it had to be one. -/
def freshen (m : Mark) (k : Option Candidate) : Option (Option Candidate) :=
  match k with
  | none => some none
  | some k =>
    if isStale k m then (if k.required then none else some none) else some (some k)

def freshenAll (l : Lexer) : Option Lexer := do
  return { l with
    candidate := ← freshen l.mark l.candidate
    outer := ← l.outer.mapM (freshen l.mark) }

/-- Gives up the candidate of the current level; `none` if it had to be a key. -/
def dropCandidate (l : Lexer) : Option Lexer :=
  if l.candidate.any Candidate.required then none else some { l with candidate := none }

/-- Takes the current place for a candidate where a key is allowed. -/
def addCandidate (l : Lexer) : Option Lexer :=
  if l.keyAllowed then
    l.dropCandidate.map fun l => { l with
      candidate := some
        ⟨!l.inFlow && l.margin = l.mark.column + 1, l.count + l.queue.length, l.mark⟩ }
  else some l

/-! ## Tokens and indentation -/

def put (l : Lexer) (lexeme : Lexeme) (start stop : Mark) : Lexer :=
  { l with queue := l.queue ++ [⟨lexeme, start, stop⟩] }

def putHere (l : Lexer) (lexeme : Lexeme) : Lexer := l.put lexeme l.mark l.mark

/-- Puts a token into the queue in front of the one with this number. -/
def putAt (l : Lexer) (number : Nat) (lexeme : Lexeme) (mark : Mark) : Lexer :=
  let position := number - l.count
  { l with queue := l.queue.take position ++ ⟨lexeme, mark, mark⟩ :: l.queue.drop position }

def take (l : Lexer) (lexeme : Lexeme) (width : Nat) : Lexer :=
  let l := l.put lexeme l.mark (l.mark.right width)
  { l with cursor := l.cursor.skip width }

/-- Goes to a cursor and puts the token that lies between. -/
def goto (l : Lexer) (lexeme : Lexeme) (cursor : Cursor) : Lexer :=
  let l := l.put lexeme l.mark cursor.mark
  { l with cursor }

/-- Closes the blocks that are indented further than a column. -/
def closeTo (margin : Nat) (l : Lexer) : Lexer :=
  if l.inFlow then l
  else
    let closed := (l.margin :: l.margins).takeWhile (margin < ·)
    let rest := (l.margin :: l.margins).drop closed.length
    let l := closed.foldl (fun l _ => l.putHere .blockEnd) l
    { l with margin := rest.headD 0, margins := rest.drop 1 }

def opensBlock (l : Lexer) (column : Nat) : Bool := !l.inFlow && l.margin ≤ column

def indentTo (l : Lexer) (column : Nat) : Lexer :=
  { l with margin := column + 1, margins := l.margin :: l.margins }

/-- Opens a block at the current place, unless it is open. -/
def openBlock (l : Lexer) (lexeme : Lexeme) : Lexer :=
  if l.opensBlock l.mark.column then (l.putHere lexeme).indentTo l.mark.column else l

/-! ## Blanks and comments -/

/-- Skips blanks, comments and line breaks. Tabs count as blanks only where no key can start,
and a line break outside of brackets allows one. -/
def skipBlanks (flow allowed comment : Bool) (mark : Mark) : List Char → Bool × Cursor
  | [] => (allowed, ⟨mark, []⟩)
  | c :: rest =>
    let next := mark.after c
    if isBreak c then skipBlanks flow (allowed || !flow) false next rest
    else if comment then skipBlanks flow allowed true next rest
    else if c = '\uFEFF' && mark.column = 0 then skipBlanks flow allowed false next rest
    else if c = ' ' || (c = '\t' && (flow || !allowed)) then skipBlanks flow allowed false next rest
    else if c = '#' then skipBlanks flow allowed true next rest
    else (allowed, ⟨mark, c :: rest⟩)

def skip (l : Lexer) : Lexer :=
  let (keyAllowed, cursor) := skipBlanks l.inFlow l.keyAllowed false l.mark l.text
  { l with keyAllowed, cursor }

/-! ## One kind of token each -/

/-- The end of the text counts as the start of a line. -/
def endStream (l : Lexer) : Option Lexer := do
  let mark := if l.mark.column = 0 then l.mark else ⟨l.mark.line + 1, 0⟩
  let l ← (closeTo 0 { l with cursor := ⟨mark, []⟩ }).dropCandidate
  return { l.putHere .streamEnd with keyAllowed := false }

/-- What may follow a directive on its line. -/
def endLine (c : Cursor) : Option Cursor :=
  let (_, c) := c.run isSpace
  let c := if c.text.head? = some '#' then (c.run (!isBreak ·)).2 else c
  match c.text with
  | [] => some c
  | b :: rest => if isBreak b then some ⟨c.mark.after b, rest⟩ else none

def versionNumber (c : Cursor) : Option (Nat × Cursor) :=
  let (digits, c) := c.run Char.isDigit
  if digits.isEmpty ∨ 9 < digits.length then none
  else some (digits.foldl (fun n d => 10 * n + (d.toNat - '0'.toNat)) 0, c)

def versionDirective (c : Cursor) : Option (Lexeme × Cursor) := do
  let (major, c) ← versionNumber (c.run isSpace).2
  if c.text.head? ≠ some '.' then none
  let (minor, c) ← versionNumber (c.skip 1)
  return (.version major minor, c)

def handleDirective (c : Cursor) : Option (Lexeme × Cursor) := do
  let c := (c.run isSpace).2
  let (name, rest) ← Tag.handle c.text
  if name ≠ ['!'] ∧ name.getLast? ≠ some '!' then none
  if !rest.head?.any isSpace then none
  let (_, c) := (c.skip name.length).run isSpace
  let (expansion, rest) ← Tag.uri Tag.isVerbatimChar 0 [] c.text
  if expansion.isEmpty || !atGap rest then none
  return (.handle name expansion, c.skip (c.text.length - rest.length))

def directive (l : Lexer) : Option Lexer := do
  let l ← (closeTo 0 l).dropCandidate
  let (name, c) := (l.cursor.skip 1).run isWord
  if !atGap c.text then none
  let (lexeme, c) ←
    if name = "YAML".toList then versionDirective c
    else if name = "TAG".toList then handleDirective c
    else none
  let l := l.goto lexeme c
  return { l with keyAllowed := false, cursor := ← endLine c }

def documentMark (l : Lexer) (lexeme : Lexeme) : Option Lexer := do
  let l ← (closeTo 0 l).dropCandidate
  return { l.take lexeme 3 with keyAllowed := false }

def openFlow (l : Lexer) (lexeme : Lexeme) : Option Lexer := do
  let l ← l.addCandidate
  return { l.take lexeme 1 with
    keyAllowed := true, candidate := none, outer := l.candidate :: l.outer }

def closeFlow (l : Lexer) (lexeme : Lexeme) : Option Lexer := do
  let l ← l.dropCandidate
  return { l.take lexeme 1 with
    keyAllowed := false, candidate := l.outer.headD none, outer := l.outer.drop 1 }

def flowEntry (l : Lexer) : Option Lexer := do
  let l ← l.dropCandidate
  return { l.take .flowEntry 1 with keyAllowed := true }

def blockEntry (l : Lexer) : Option Lexer := do
  if !l.inFlow && !l.keyAllowed then none
  let l ← (l.openBlock .blockSequence).dropCandidate
  return { l.take .blockEntry 1 with keyAllowed := true }

def complexKey (l : Lexer) : Option Lexer := do
  if !l.inFlow && !l.keyAllowed then none
  let l ← (l.openBlock .blockMapping).dropCandidate
  return { l.take .key 1 with keyAllowed := !l.inFlow }

/-- A colon makes a key of the candidate, or follows a key that was marked. -/
def value (l : Lexer) : Option Lexer :=
  match l.candidate with
  | some k =>
    let opens := l.opensBlock k.mark.column
    let l := l.putAt k.number .key k.mark
    let l := if opens then (l.putAt k.number .blockMapping k.mark).indentTo k.mark.column else l
    some { l.take .value 1 with keyAllowed := false, candidate := none }
  | none =>
    if !l.inFlow && !l.keyAllowed then none
    else some { (l.openBlock .blockMapping).take .value 1 with keyAllowed := !l.inFlow }

/-- What may stand right behind the name of an anchor or alias. -/
def endsName (text : List Char) : Bool :=
  atGap text || text.head?.any fun c => "?:,]\x7d%@`".toList.contains c

def name (l : Lexer) (lexeme : List Char → Lexeme) : Option Lexer := do
  let l ← l.addCandidate
  let (name, c) := (l.cursor.skip 1).run isWord
  if name.isEmpty || !endsName c.text then none
  return { l.goto (lexeme name) c with keyAllowed := false }

def tag (l : Lexer) : Option Lexer := do
  let l ← l.addCandidate
  let (handle, suffix, rest) ← Tag.read l.text
  if !atGap rest && !(l.inFlow && rest.head? = some ',') then none
  let c := l.cursor.skip (l.text.length - rest.length)
  return { l.goto (.tag handle suffix) c with keyAllowed := false }

def blockScalar (l : Lexer) (style : Style) : Option Lexer := do
  let l ← l.dropCandidate
  let (value, c) ← Block.read (style = .literal) l.margin (l.cursor.skip 1)
  return { l.goto (.scalar value style) c with keyAllowed := true }

def quotedScalar (l : Lexer) (style : Quoted.Style) : Option Lexer := do
  let l ← l.addCandidate
  let (value, c) ← Quoted.read style (l.mark.right 1) [] .empty .none (l.text.drop 1)
  return { l.goto (.scalar value .quoted) c with keyAllowed := false }

def plainScalar (l : Lexer) : Option Lexer := do
  let l ← l.addCandidate
  let o ← Plain.read l.inFlow l.margin l.mark [] .empty l.text
  return { l.goto (.scalar o.value .plain) o.cursor with keyAllowed := o.broken }

/-- The characters that start no plain scalar by themselves. -/
def isIndicator (c : Char) : Bool := "-?:,[]\x7b\x7d#&*!|>'\"%@`".toList.contains c

def next (l : Lexer) (c : Char) (rest : List Char) : Option Lexer :=
  let gap := atGap rest
  if c = '%' ∧ l.mark.column = 0 then l.directive
  else if marksDocument '-' l.mark l.text then l.documentMark .documentStart
  else if marksDocument '.' l.mark l.text then l.documentMark .documentEnd
  else match c with
    | '[' => l.openFlow .flowSequence
    | '\x7b' => l.openFlow .flowMapping
    | ']' => l.closeFlow .flowSequenceEnd
    | '\x7d' => l.closeFlow .flowMappingEnd
    | ',' => l.flowEntry
    | '*' => l.name .alias
    | '&' => l.name .anchor
    | '!' => l.tag
    | '\'' => l.quotedScalar .single
    | '"' => l.quotedScalar .double
    | c =>
      if c = '-' && gap then l.blockEntry
      else if c = '?' && (l.inFlow || gap) then l.complexKey
      else if c = ':' && (l.inFlow || gap) then l.value
      else if c = '|' && !l.inFlow then l.blockScalar .literal
      else if c = '>' && !l.inFlow then l.blockScalar .folded
      else if !isIndicator c && !isSpace c || c = '-'
          || (!l.inFlow && (c = '?' || c = ':')) then l.plainScalar
      else none

/-- Reads one more token into the queue, with those that its indentation brings. -/
def fetch (l : Lexer) : Option Lexer := do
  let l ← l.skip.freshenAll
  let l := closeTo (l.mark.column + 1) l
  match l.text with
  | [] => l.endStream
  | c :: rest => l.next c rest

/-! ## The run -/

/-- The tokens in the queue that lie before every candidate, and the lexer without them. -/
def drain (l : Lexer) : List Token × Lexer :=
  let oldest := (l.candidate :: l.outer).filterMap fun k => k.map Candidate.number
  let ready := match oldest.min? with
    | some number => number - l.count
    | none => l.queue.length
  (l.queue.take ready,
    { l with count := l.count + min ready l.queue.length, queue := l.queue.drop ready })

/-- The tokens handed on until the end, or until the text turns out to be malformed. Every
token but the last needs a character of its own, which bounds the fuel. -/
def run : Nat → Lexer → List Token
  | 0, _ => []
  | fuel + 1, l =>
    let handed := if l.queue.isEmpty then some ([], l) else l.freshenAll.map drain
    match handed with
    | none => []
    | some (tokens, l) =>
      if tokens.any (·.lexeme = .streamEnd) then tokens
      else match l.fetch with
        | none => tokens
        | some l => tokens ++ run fuel l

end Lexer

/-- The tokens of a text. -/
def tokens (text : List Char) : List Token :=
  if text.all isAllowed then
    Lexer.run (text.length + 2) { cursor := { text := unifyBreaks text } }
  else []

end SourceBundle.Yaml
