import SourceBundle.Yaml.Mark

/-! # Tokens

What a text consists of. The indentation of blocks is written out as tokens of its own.
-/
namespace SourceBundle.Yaml

inductive Style where
  | plain
  | quoted
  | literal
  | folded
deriving DecidableEq, Repr

inductive Lexeme where
  | streamEnd
  | version (major minor : Nat)
  /-- What a tag handle stands for. -/
  | handle (name expansion : List Char)
  | documentStart
  | documentEnd
  | blockSequence
  | blockMapping
  | blockEnd
  | flowSequence
  | flowSequenceEnd
  | flowMapping
  | flowMappingEnd
  | blockEntry
  | flowEntry
  | key
  | value
  | alias (name : List Char)
  | anchor (name : List Char)
  | tag (handle suffix : List Char)
  | scalar (value : List Char) (style : Style)
deriving DecidableEq, Repr

structure Token where
  lexeme : Lexeme
  start : Mark
  stop : Mark
deriving DecidableEq, Repr

namespace Lexeme

/-- Whether a document without a start mark ends before the token. -/
def endsDocument : Lexeme → Bool
  | streamEnd | version .. | handle .. | documentStart | documentEnd => true
  | _ => false

end Lexeme

end SourceBundle.Yaml
