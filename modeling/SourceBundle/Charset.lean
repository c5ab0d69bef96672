import SourceBundle.Text.Blank
import SourceBundle.Text.Utf8

/-! # Charsets

Decoding never fails: what is not valid becomes U+FFFD. Encoding never fails: what the charset
lacks becomes a question mark.
-/
namespace SourceBundle

open Text.Utf8 (Octets)

inductive Charset where
  | utf8
  | latin1
  | ascii
deriving DecidableEq, Repr, Inhabited

namespace Charset

def name : Charset → String
  | utf8 => "utf-8"
  | latin1 => "iso-8859-1"
  | ascii => "us-ascii"

/-- The spellings of each charset, in lower case. -/
def spellings : List (String × Charset) :=
  [("utf-8", utf8), ("utf8", utf8),
   ("iso-8859-1", latin1), ("iso8859-1", latin1), ("iso_8859_1", latin1),
   ("latin1", latin1), ("latin-1", latin1),
   ("us-ascii", ascii), ("ascii", ascii)]

/-- The charset of a name; white space around it and the case of its ASCII letters do not
matter. -/
def ofName? (name : String) : Option Charset :=
  spellings.lookup (String.ofList ((Text.trim name.toList).map Char.toLower))

def decodeOctet (limit : Nat) (b : UInt8) : Char :=
  if b.toNat ≤ limit then Char.ofNat b.toNat else Text.Utf8.replacement

def encodeChar (limit : Nat) (c : Char) : UInt8 :=
  if c.toNat ≤ limit then UInt8.ofNat c.toNat else '?'.toUInt8

def decode : Charset → Octets → List Char
  | utf8, octets => Text.Utf8.decode octets
  | latin1, octets => octets.map (decodeOctet 0xFF)
  | ascii, octets => octets.map (decodeOctet 0x7F)

def encode : Charset → List Char → Octets
  | utf8, text => Text.Utf8.encode text
  | latin1, text => text.map (encodeChar 0xFF)
  | ascii, text => text.map (encodeChar 0x7F)

end Charset

end SourceBundle
