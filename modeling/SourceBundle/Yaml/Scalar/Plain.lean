import SourceBundle.Yaml.Scalar.Gap

/-! # Plain scalars

A plain scalar ends before a colon or a comment that a blank sets off, before a line that is not
indented enough, before a document mark, and inside brackets before a comma or a bracket.
-/
namespace SourceBundle.Yaml.Plain

def isFlowMark (c : Char) : Bool := [',', '[', ']', '\x7b', '\x7d'].contains c

structure Outcome where
  value : List Char
  /-- Whether the scalar was followed by a line break. -/
  broken : Bool
  cursor : Cursor
deriving DecidableEq, Repr

/-- Reads on. `flow` tells whether the scalar stands inside brackets, `margin` how many columns
its further lines must leave free; the words read so far come last character first. -/
def read (flow : Bool) (margin : Nat) (mark : Mark) (words : List Char) (gap : Gap) :
    List Char → Option Outcome
  | [] => some ⟨words.reverse, gap.isLines, ⟨mark, []⟩⟩
  | c :: rest =>
    let stop := some ⟨words.reverse, gap.isLines, ⟨mark, c :: rest⟩⟩
    if isSpace c then
      if gap.isLines && mark.column < margin && c = '\t' then none
      else read flow margin (mark.after c) words (gap.addSpace c) rest
    else if isBreak c then read flow margin (mark.after c) words (gap.addBreak c) rest
    else if gap ≠ .empty ∧
        ((!flow && mark.column < margin) || atDocumentMark mark (c :: rest) || c = '#') then stop
    else if flow && c = ':' && rest.head?.any (fun d => isFlowMark d || d = '?') then none
    else if (c = ':' && atGap rest) || (flow && isFlowMark c) then stop
    else read flow margin (mark.after c) (c :: (gap.text.reverse ++ words)) .empty rest

end SourceBundle.Yaml.Plain
