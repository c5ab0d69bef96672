import SourceBundle.Text.Hidden

/-! # Quoted texts

A text between double quotes, as messages show it: quotes and backslashes are escaped, and what
does not show is written by its code point.
-/
namespace SourceBundle.Text

def quoteChar (c : Char) : List Char :=
  match c with
  | '\x00' => ['\\', '0']
  | '\t' => ['\\', 't']
  | '\r' => ['\\', 'r']
  | '\n' => ['\\', 'n']
  | '\\' => ['\\', '\\']
  | '"' => ['\\', '"']
  | c =>
    if isHidden c then '\\' :: 'u' :: '\x7b' :: Nat.toDigits 16 c.toNat ++ ['\x7d'] else [c]

def quote (text : List Char) : List Char := '"' :: text.flatMap quoteChar ++ ['"']

end SourceBundle.Text
