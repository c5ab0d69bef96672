import SourceBundle.Decimal.Binary

/-! # Shortest decimal texts

The text of a binary number has the fewest digits that still lead back to it, and of those the
nearest. The numbers that round to it form an interval, whose ends belong to it if the
significand is even. For a growing count of digits the two neighbours of the number on that
decimal grid are tried.
-/
namespace SourceBundle.Decimal

/-- The number `digits * 10 ^ exponent`. -/
structure Scaled where
  digits : Nat
  exponent : Int
deriving DecidableEq, Repr

/-- Where a number goes that lies half way between two decimals. -/
inductive Tie where
  | up
  | toEven
deriving DecidableEq, Repr

/-- How `x * 10 ^ k` compares with `y * 2 ^ e`. -/
def compareScaled (x : Nat) (k : Int) (y : Nat) (e : Int) : Ordering :=
  let a := x * Nat.pow 10 k.toNat * Nat.pow 2 (-e).toNat
  let b := y * Nat.pow 2 e.toNat * Nat.pow 10 (-k).toNat
  compare a b

/-- The greatest `t` with `10 ^ t` not above the number; the fuel bounds how small it may be. -/
def magnitude (b : Binary) : Int :=
  let (num, den) := shift b.significand 1 b.exponent
  if den ≤ num then ((Nat.toDigits 10 (num / den)).length : Int) - 1
  else below num den 400 1
where
  below (num den : Nat) : Nat → Nat → Int
    | 0, j => -j
    | fuel + 1, j => if den ≤ num * Nat.pow 10 j then -j else below num den fuel (j + 1)

namespace Binary

/-- The interval around the number in units of a quarter of its last bit. -/
def low (b : Binary) : Nat :=
  if b.significand = Nat.pow 2 52 ∧ leastExponent < b.exponent then 4 * b.significand - 1
  else 4 * b.significand - 2

def high (b : Binary) : Nat := 4 * b.significand + 2

/-- Whether `x * 10 ^ k` rounds to the number. -/
def holds (b : Binary) (x : Nat) (k : Int) : Bool :=
  let e := b.exponent - 2
  let above := compareScaled x k b.low e
  let under := compareScaled x k b.high e
  if b.significand % 2 = 0 then above != .lt && under != .gt else above == .gt && under == .lt

/-- The whole part of the number over `10 ^ k`, and how the rest compares with a half. -/
def grid (b : Binary) (k : Int) : Nat × Ordering :=
  let (num, den) := shift b.significand 1 b.exponent
  let num := num * Nat.pow 10 (-k).toNat
  let den := den * Nat.pow 10 k.toNat
  (num / den, compare (2 * (num % den)) den)

/-- The decimal with at most this many digits that leads back to the number. The upper neighbour
may be a power of ten, which has one digit. -/
def withDigits? (b : Binary) (tie : Tie) (count : Nat) : Option Scaled :=
  let k := magnitude b - count + 1
  let (lower, rest) := b.grid k
  let below : Scaled := ⟨lower, k⟩
  let above : Scaled := if lower + 1 = Nat.pow 10 count then ⟨1, k + count⟩ else ⟨lower + 1, k⟩
  match b.holds lower k, b.holds (lower + 1) k with
  | true, true =>
    let down := rest = .lt ∨ (rest = .eq ∧ tie = .toEven ∧ lower % 2 = 0)
    some (if down then below else above)
  | true, false => some below
  | false, true => some above
  | false, false => none

def shortest (b : Binary) (tie : Tie) : Scaled :=
  ((List.range 17).findSome? fun n => b.withDigits? tie (n + 1)).getD ⟨0, 0⟩

end Binary

/-- Which numbers are written without an exponent: those whose point stands, counted from the
first digit, above `above` and not beyond `upTo`. -/
structure Layout where
  above : Option Int
  upTo : Option Int
  tie : Tie

/-- No number is written with an exponent. -/
def plainLayout : Layout := ⟨none, none, .up⟩

/-- Very small and very large numbers are written with an exponent. -/
def compactLayout : Layout := ⟨some (-5), some 16, .toEven⟩

def zeros (n : Nat) : List Char := List.replicate n '0'

/-- The digits and the point, which always has a digit on both sides, or the exponent. -/
def write (layout : Layout) (d : Scaled) : String :=
  let digits := Nat.toDigits 10 d.digits
  let point : Int := digits.length + d.exponent
  let plain := layout.above.all (· < point) && layout.upTo.all (point ≤ ·)
  String.ofList <|
    if plain then
      if point ≤ 0 then '0' :: '.' :: zeros (-point).toNat ++ digits
      else if digits.length ≤ point.toNat then
        digits ++ zeros (point.toNat - digits.length) ++ ['.', '0']
      else digits.take point.toNat ++ '.' :: digits.drop point.toNat
    else
      (match digits with
        | [d] => [d]
        | d :: rest => d :: '.' :: rest
        | [] => []) ++ 'e' :: (toString (point - 1)).toList

/-- The text of a signed number; zero is `0.0`. -/
def text (layout : Layout) (negative : Bool) (b : Binary) : String :=
  (if negative then "-" else "") ++
    if b.significand = 0 then "0.0" else write layout (b.shortest layout.tie)

end SourceBundle.Decimal
