import SourceBundle.Yaml.Mark

/-! # Tags

A tag is written in full between angle brackets, or as a handle and a suffix. Octets may be
escaped by a percent sign; the octets of one character must form a UTF-8 sequence by their
leading bits. Tags are kept as texts of octets.
-/
namespace SourceBundle.Yaml.Tag

def isUriChar (c : Char) : Bool := isWord c || ";/?:@&=+$.!~*'()".toList.contains c

/-- What a tag between angle brackets may hold besides. -/
def isVerbatimChar (c : Char) : Bool := isUriChar c || [',', '[', ']'].contains c

/-- How many octets a character has by its first one. -/
def sequenceLength? (octet : Nat) : Option Nat :=
  if octet < 0x80 then some 1
  else if octet / 0x20 = 6 then some 2
  else if octet / 0x10 = 14 then some 3
  else if octet / 8 = 30 then some 4
  else none

/-- Reads characters of a class and escapes; `more` counts the escapes that must still follow
for the character begun. The result comes with what follows it. -/
def uri (allowed : Char → Bool) (more : Nat) (out : List Char) :
    List Char → Option (List Char × List Char)
  | '%' :: a :: b :: rest => do
    let octet := 16 * (← hexDigit? a) + (← hexDigit? b)
    let left ← match more with
      | 0 => (sequenceLength? octet).map (· - 1)
      | more + 1 => if octet / 0x40 = 2 then some more else none
    uri allowed left (Char.ofNat octet :: out) rest
  | '%' :: _ => none
  | text@(c :: rest) =>
    if more ≠ 0 then none
    else if allowed c then uri allowed 0 (c :: out) rest
    else some (out.reverse, text)
  | [] => if more = 0 then some (out.reverse, []) else none

/-- A bang, a word and, where there is one, a bang after it. -/
def handle (text : List Char) : Option (List Char × List Char) :=
  match text with
  | '!' :: rest =>
    let word := rest.takeWhile isWord
    match rest.drop word.length with
    | '!' :: rest => some ('!' :: word ++ ['!'], rest)
    | rest => some ('!' :: word, rest)
  | _ => none

/-- The handle and the suffix of a tag in a node. The tag that is one bang has no handle. -/
def read (text : List Char) : Option (List Char × List Char × List Char) := do
  match text with
  | '!' :: '<' :: rest =>
    match ← uri isVerbatimChar 0 [] rest with
    | ([], _) => none
    | (suffix, '>' :: rest) => return ([], suffix, rest)
    | _ => none
  | text =>
    let (head, rest) ← handle text
    if 1 < head.length ∧ head.getLast? = some '!' then
      match ← uri isUriChar 0 [] rest with
      | ([], _) => none
      | (suffix, rest) => return (head, suffix, rest)
    else
      match ← uri isUriChar 0 [] rest with
      | (suffix, rest) =>
        let suffix := head.drop 1 ++ suffix
        if suffix.isEmpty then return ([], ['!'], rest) else return (['!'], suffix, rest)

end SourceBundle.Yaml.Tag
