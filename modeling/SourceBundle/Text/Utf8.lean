/-! # UTF-8

A decoder that never fails. What stands between two octets is a `Pending` character: the bits
so far and the ranges in which its remaining octets must lie. An octet outside the range ends
the pending character, which then counts as one replacement character, and starts afresh: each
replacement character stands for a longest part that could still have become a character.
-/
namespace SourceBundle.Text.Utf8

abbrev Octets := List UInt8

def replacement : Char := '\uFFFD'

structure Range where
  low : Nat
  high : Nat

def Range.holds (r : Range) (b : UInt8) : Bool := r.low ≤ b.toNat && b.toNat ≤ r.high

def continuation : Range := ⟨0x80, 0xBF⟩

/-- A character that has begun: its bits so far, the range of the next octet and the number
of octets after that one. -/
structure Pending where
  bits : Nat
  next : Range
  more : Nat

/-- The first octet of a character fixes its length and the range of the second octet; the
narrow ranges leave out overlong forms, surrogates and what lies above U+10FFFF. -/
def lead? (n : Nat) : Option Pending :=
  if 0xC2 ≤ n && n ≤ 0xDF then some ⟨n - 0xC0, continuation, 0⟩
  else if n == 0xE0 then some ⟨0, ⟨0xA0, 0xBF⟩, 1⟩
  else if n == 0xED then some ⟨0xD, ⟨0x80, 0x9F⟩, 1⟩
  else if 0xE1 ≤ n && n ≤ 0xEF then some ⟨n - 0xE0, continuation, 1⟩
  else if n == 0xF0 then some ⟨0, ⟨0x90, 0xBF⟩, 2⟩
  else if n == 0xF4 then some ⟨4, ⟨0x80, 0x8F⟩, 2⟩
  else if 0xF1 ≤ n && n ≤ 0xF3 then some ⟨n - 0xF0, continuation, 2⟩
  else none

/-- What an octet yields where no character is pending. -/
def start (b : UInt8) : List Char × Option Pending :=
  if b.toNat < 0x80 then ([Char.ofNat b.toNat], none)
  else match lead? b.toNat with
    | some p => ([], some p)
    | none => ([replacement], none)

def step (pending : Option Pending) (b : UInt8) : List Char × Option Pending :=
  match pending with
  | none => start b
  | some p =>
    if p.next.holds b then
      let bits := p.bits * 64 + (b.toNat - 0x80)
      match p.more with
      | 0 => ([Char.ofNat bits], none)
      | n + 1 => ([], some ⟨bits, continuation, n⟩)
    else
      let (out, next) := start b
      (replacement :: out, next)

def run : Option Pending → Octets → List Char
  | none, [] => []
  | some _, [] => [replacement]
  | pending, b :: rest =>
    let (out, next) := step pending b
    out ++ run next rest

/-- Every octet sequence has a text. -/
def decode (octets : Octets) : List Char := run none octets

def encode (text : List Char) : Octets := text.flatMap String.utf8EncodeChar

/-- The text of octets that are valid UTF-8: those that the text gives back. -/
def decode? (octets : Octets) : Option (List Char) :=
  let text := decode octets
  if encode text = octets then some text else none

end SourceBundle.Text.Utf8
