import Offside.Decimal.Basic

/-! # Double precision numbers

The 64 bits of a double precision number, its comparison, and the double nearest to a decimal. The
arithmetic is exact on natural numbers: no operation here rounds but the one that says so. -/

namespace Offside

/-- A double precision number by its bits: sign, eleven bits of exponent, fifty-two of fraction. -/
structure Binary64 where
  bits : UInt64
deriving DecidableEq, Repr, Inhabited

namespace Binary64

/-- The weight of the sign bit. -/
def signWeight : Nat := Nat.pow 2 63

/-- The weight of the exponent's lowest bit, and so of the leading digit that is not stored. -/
def leadingWeight : Nat := Nat.pow 2 52

/-- How many of the least positive double make one. -/
def unitScale : Nat := Nat.pow 2 1074

/-- The magnitude bits of infinity; larger ones are not numbers. -/
def infinityBits : Nat := 0x7FF * leadingWeight

/-- The bits below the sign. -/
def magnitude (x : Binary64) : Nat := x.bits.toNat % signWeight

/-- Whether the sign bit is set. -/
def isNegative (x : Binary64) : Bool := signWeight ≤ x.bits.toNat

/-- Whether the bits stand for no number. -/
def isNaN (x : Binary64) : Bool := infinityBits < x.magnitude

/-- Whether the bits stand for an infinity. -/
def isInfinite (x : Binary64) : Bool := x.magnitude == infinityBits

/-- Equality of numbers: what is not a number differs from everything, and the two zeros agree. -/
def numEq (x y : Binary64) : Bool :=
  !x.isNaN && !y.isNaN && (x.bits == y.bits || (x.magnitude == 0 && y.magnitude == 0))

/-- The non-negative double with the given magnitude bits. -/
def ofMagnitude (m : Nat) : Binary64 := ⟨UInt64.ofNat m⟩

/-- A finite magnitude is `significand * 2 ^ (scale - 1074)`. -/
def significand (magnitude : Nat) : Nat :=
  if magnitude < leadingWeight then magnitude else magnitude % leadingWeight + leadingWeight

/-- The power of two of a magnitude, counted from the least one, 1074 places behind the point. -/
def scale (magnitude : Nat) : Nat := magnitude / leadingWeight - 1

/-- The quotient rounded to the nearest natural number, a half to the even one. -/
def roundDiv (num den : Nat) : Nat :=
  let q := num / den
  let r := 2 * (num % den)
  if r < den then q else if den < r then q + 1 else q + q % 2

/-- How many places `num / den`, counted in units of the least double, lies above the doubles that
    have this unit: there it has at least 53 binary digits. -/
def excess (num den : Nat) : Nat :=
  let places := (num * unitScale / den).log2
  places - 52

/-- The magnitude bits of the double nearest to `num / den`, infinity when none is. -/
def roundRatio (num den : Nat) : Nat :=
  let scale := excess num den
  min (scale * leadingWeight + roundDiv (num * unitScale) (den * Nat.pow 2 scale)) infinityBits

/-- The double nearest to a decimal, a tie going to the even one. Decimals from `10 ^ 309` on are
    infinite and those below `10 ^ (-324)` are zero, so large exponents cost nothing. -/
def ofDecimal (d : Decimal) : Binary64 :=
  let d := d.normalize
  if d.coeff = 0 ∨ d.point < -323 then ofMagnitude 0
  else if 309 < d.point then ofMagnitude infinityBits
  else if 0 ≤ d.exponent then ofMagnitude (roundRatio (d.coeff * Nat.pow 10 d.exponent.toNat) 1)
  else ofMagnitude (roundRatio d.coeff (Nat.pow 10 (-d.exponent).toNat))

end Binary64

end Offside
