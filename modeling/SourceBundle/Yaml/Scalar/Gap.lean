import SourceBundle.Yaml.Mark

/-! # Gaps between words

Between two words of a flow or plain scalar stand blanks, or line breaks with blanks around
them. Blanks are kept. A single line break becomes a space; of several the first is dropped.
-/
namespace SourceBundle.Yaml

inductive Gap where
  | blanks (text : List Char)
  /-- The first line break, if it counts, and those after it. -/
  | lines (first more : List Char)
deriving DecidableEq, Repr

namespace Gap

def empty : Gap := .blanks []

def isLines : Gap → Bool
  | blanks _ => false
  | lines .. => true

def addSpace (c : Char) : Gap → Gap
  | blanks text => blanks (text ++ [c])
  | gap => gap

def addBreak (c : Char) : Gap → Gap
  | blanks _ => lines [c] []
  | lines first more => lines first (more ++ [c])

def text : Gap → List Char
  | blanks text => text
  | lines first more =>
    if first = ['\n'] then (if more.isEmpty then [' '] else more) else first ++ more

end Gap

end SourceBundle.Yaml
