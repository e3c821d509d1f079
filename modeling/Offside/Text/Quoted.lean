import Offside.Text.Unprintable
import Offside.Text.ExtendingMark

/-! # Quoted text

Text and single characters between quotes, as messages and rendered programs show them. The quote
itself, the backslash and line breaks never stand bare between the quotes, and neither does
anything that a reader could not see. -/

namespace Offside.Text

/-- Whether a character can be shown as itself: it has a shape and does not join the one before. -/
def isShown (c : Char) : Bool :=
  if c.toNat < 0x80 then 0x20 ≤ c.toNat && c.toNat < 0x7F
  else
    let within := fun (r : Nat × Nat) => r.1 ≤ c.toNat && c.toNat ≤ r.2
    !unprintableRanges.any within && !extendingMarkRanges.any within

/-- The lower case hexadecimal digits of a number, at least one. -/
def hexDigits (n : Nat) : List Char := Nat.toDigits 16 n

/-- How a character is written between quotes of the kind `quote`: the quote and the backslash behind
    a backslash, four controls by a letter or digit, and what cannot be shown by its code point. -/
def escape (quote c : Char) : List Char :=
  if c = quote ∨ c = '\\' then ['\\', c]
  else if c = '\n' then ['\\', 'n']
  else if c = '\r' then ['\\', 'r']
  else if c = '\t' then ['\\', 't']
  else if c = '\x00' then ['\\', '0']
  else if isShown c then [c]
  else ['\\', 'u', '\x7b'] ++ hexDigits c.toNat ++ ['\x7d']

/-- Characters between double quotes. -/
def quoteChars (cs : List Char) : List Char :=
  '"' :: (cs.flatMap (escape '"') ++ ['"'])

/-- Text between double quotes. -/
def quote (s : String) : String := String.ofList (quoteChars s.toList)

/-- One character between single quotes. -/
def quoteChar (c : Char) : String := String.ofList ('\'' :: (escape '\'' c ++ ['\'']))

end Offside.Text
