import Offside.Span

/-! # Located errors

An error together with the place it belongs to and what brought it about, and the lines that show
all three. -/

namespace Offside

/-- The lines of an error: its text, its place, and the text of its cause. -/
def locatedText (error : String) (location : Option Span) (cause : Option String) : String :=
  error ++ "\n" ++
    (match location with
      | some s => "  -> " ++ s.start.text ++ "\n"
      | none => "") ++
    (match cause with
      | some c => "caused by: " ++ c
      | none => "")

/-- An error that may have a place and a cause. -/
structure Located (ε κ : Type) where
  error : ε
  location : Option Span := none
  cause : Option κ := none
deriving DecidableEq, Repr, Inhabited

/-- A located error as text. -/
def Located.message {ε κ : Type} (errorText : ε → String) (causeText : κ → String)
    (e : Located ε κ) : String :=
  locatedText (errorText e.error) e.location (e.cause.map causeText)

end Offside
