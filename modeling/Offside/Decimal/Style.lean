import Offside.Decimal.Shortest

/-! # Writing doubles

How the shortest digits of a double are laid out: with all places before and behind the point, or
with one digit before the point and an exponent. Two styles are in use, one for numbers inside
messages and one that can be read back as a number literal. -/

namespace Offside.Decimal

/-- The decisions of a written form. -/
structure Style where
  /-- The powers of ten just above a number for which all its places are written. -/
  positional : Int → Bool
  /-- What follows a number that has no places behind the point. -/
  wholeMark : List Char

/-- All places are always written, and whole numbers have no point. -/
def plain : Style := ⟨fun _ => true, []⟩

/-- Numbers from `10 ^ (-4)` up to below `10 ^ 16` are written with all places, at least one of them
    behind the point, and the others with an exponent. -/
def literal : Style := ⟨fun p => -3 ≤ p && p ≤ 16, ['.', '0']⟩

/-- The digits `ds`, of which the point stands behind the first `p`, with all places. -/
def Style.places (style : Style) (ds : List Char) (p : Int) : List Char :=
  if p ≤ 0 then ['0', '.'] ++ List.replicate (-p).toNat '0' ++ ds
  else if ds.length ≤ p.toNat then ds ++ List.replicate (p.toNat - ds.length) '0' ++ style.wholeMark
  else ds.take p.toNat ++ '.' :: ds.drop p.toNat

/-- The digits `ds`, of which the point stands behind the first `p`, with an exponent. -/
def scientific (ds : List Char) (p : Int) : List Char :=
  let tail := ds.drop 1
  ds.take 1 ++ (if tail.isEmpty then [] else '.' :: tail) ++ 'e' :: intChars (p - 1)

/-- A decimal in a style. -/
def Style.chars (style : Style) (d : Decimal) : List Char :=
  let ds := decimalDigits d.coeff
  if style.positional d.point then style.places ds d.point else scientific ds d.point

end Offside.Decimal

namespace Offside.Binary64

/-- A double in a style; infinities and what is not a number have names. -/
def chars (style : Decimal.Style) (x : Binary64) : List Char :=
  let sign := if x.isNegative then ['-'] else []
  if x.isNaN then ['N', 'a', 'N']
  else if x.isInfinite then sign ++ ['i', 'n', 'f']
  else sign ++ style.chars (shortest x.magnitude)

/-- A double as text. -/
def text (style : Decimal.Style) (x : Binary64) : String := String.ofList (x.chars style)

end Offside.Binary64
