/-! # Decimals

A decimal is a natural number of units of a power of ten, the value that a numeral in a source text
stands for. Here are the numerals that make one up and the normal form without trailing zeros. -/

namespace Offside

/-- The number `coeff * 10 ^ exponent`. -/
structure Decimal where
  coeff : Nat
  exponent : Int
deriving DecidableEq, Repr, Inhabited

/-- The number that a run of decimal digits stands for, continuing from `acc`. -/
def digitsValue (acc : Nat) (ds : List Char) : Nat :=
  ds.foldl (fun n d => 10 * n + (d.toNat - '0'.toNat)) acc

/-- The decimal digits of a number, at least one. -/
def decimalDigits (n : Nat) : List Char := Nat.toDigits 10 n

/-- An integer in decimal digits, a minus sign before a negative one. -/
def intChars : Int → List Char
  | .ofNat n => decimalDigits n
  | .negSucc n => '-' :: decimalDigits (n + 1)

namespace Decimal

/-- The decimal with the digits `whole`, a point, the digits `fraction`, times ten to `exponent`. -/
def ofDigits (whole fraction : List Char) (exponent : Int) : Decimal :=
  ⟨digitsValue 0 (whole ++ fraction), exponent - fraction.length⟩

/-- Moves up to `fuel` trailing zeros of the coefficient into the exponent. -/
def stripZeros : Nat → Nat → Int → Decimal
  | 0, n, e => ⟨n, e⟩
  | fuel + 1, n, e => if n % 10 = 0 then stripZeros fuel (n / 10) (e + 1) else ⟨n, e⟩

/-- The same number with no trailing zero in the coefficient; zero has exponent zero. -/
def normalize (d : Decimal) : Decimal :=
  if d.coeff = 0 then ⟨0, 0⟩ else stripZeros d.coeff.log2 d.coeff d.exponent

/-- The power of ten just above a positive decimal: `10 ^ (point - 1) ≤ d < 10 ^ point`. -/
def point (d : Decimal) : Int := (decimalDigits d.coeff).length + d.exponent

end Decimal

end Offside
