/-! # Binary approximations of decimals

The binary numbers with 53 significant bits and exponents as in double precision. A decimal goes
to the nearest of them, a tie to the one with an even significand. All is done on natural
numbers.
-/
namespace SourceBundle.Decimal

/-- The number `significand * 2 ^ exponent`. -/
structure Binary where
  significand : Nat
  exponent : Int
deriving DecidableEq, Repr

def leastExponent : Int := -1074

def greatestExponent : Int := 971

/-- A quotient rounded to the nearest integer, a tie to the even one. -/
def roundDiv (num den : Nat) : Nat :=
  let q := num / den
  let r := num % den
  if 2 * r < den then q else if 2 * r = den ∧ q % 2 = 0 then q else q + 1

/-- A fraction times a power of two. -/
def shift (num den : Nat) (e : Int) : Nat × Nat :=
  if e < 0 then (num, den * Nat.pow 2 (-e).toNat) else (num * Nat.pow 2 e.toNat, den)

/-- The nearest number to a positive fraction; `none` beyond the greatest. -/
def Binary.nearest? (num den : Nat) : Option Binary :=
  let guess : Int := (Nat.log2 num : Int) - Nat.log2 den - 52
  let e := if (shift num den (-guess)).1 < Nat.pow 2 52 * (shift num den (-guess)).2
    then guess - 1 else guess
  let e := max e leastExponent
  let (n, d) := shift num den (-e)
  let m := roundDiv n d
  let b : Binary := if m = Nat.pow 2 53 then ⟨Nat.pow 2 52, e + 1⟩ else ⟨m, e⟩
  if greatestExponent < b.exponent then none else some b

/-- The nearest number to `digits * 10 ^ exponent`. Far out of range nothing is computed. -/
def Binary.ofDecimal? (digits : Nat) (exponent : Int) : Option Binary :=
  let size : Int := (Nat.toDigits 10 digits).length + exponent
  if digits = 0 ∨ size < -400 then some ⟨0, leastExponent⟩
  else if 400 < size then none
  else if exponent < 0 then Binary.nearest? digits (Nat.pow 10 (-exponent).toNat)
  else Binary.nearest? (digits * Nat.pow 10 exponent.toNat) 1

end SourceBundle.Decimal
