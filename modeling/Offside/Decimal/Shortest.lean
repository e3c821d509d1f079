import Offside.Decimal.Binary64

/-! # The shortest decimal of a double

Among the decimals that read back as a given double, the one with the fewest digits, and among those
the one nearest to it. Every candidate is read back before it is taken, so what is returned always
stands for the double it came from. -/

namespace Offside.Binary64

/-- The exact value of a finite magnitude, in units of the least positive double. -/
def numerator (magnitude : Nat) : Nat := significand magnitude * Nat.pow 2 (scale magnitude)

/-- The exact value of a finite magnitude, with as many digits as it takes. -/
def exactDecimal (magnitude : Nat) : Decimal :=
  Decimal.normalize ⟨numerator magnitude * Nat.pow 5 1074, -1074⟩

/-- The power of ten just above a positive fraction: `10 ^ (p - 1) ≤ num / den < 10 ^ p`. -/
def ratioPoint (num den : Nat) : Int :=
  if den ≤ num then (decimalDigits (num / den)).length
  else 1 - (decimalDigits ((den - 1) / num)).length

/-- The two multiples of `10 ^ exponent` around `num / den`, the nearer one first; from the middle
    the upper one is taken to be nearer. -/
def neighbours (num den : Nat) (exponent : Int) : List Decimal :=
  let num := num * Nat.pow 10 (-exponent).toNat
  let den := den * Nat.pow 10 exponent.toNat
  let lower : Decimal := ⟨num / den, exponent⟩
  let upper : Decimal := ⟨num / den + 1, exponent⟩
  if 2 * (num % den) < den then [lower, upper] else [upper, lower]

/-- The fewest digits that read back as the double of a magnitude, the nearest of those. -/
def shortest (magnitude : Nat) : Decimal :=
  let num := numerator magnitude
  let point := ratioPoint num unitScale
  let reads := fun d => ofDecimal d == ofMagnitude magnitude
  let found := (List.range 17).findSome? fun (n : Nat) =>
    ((neighbours num unitScale (point - (n + 1))).map Decimal.normalize).find? reads
  if magnitude = 0 then ⟨0, 0⟩ else found.getD (exactDecimal magnitude)

end Offside.Binary64
