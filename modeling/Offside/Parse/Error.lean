import Offside.Located
import Offside.Token.Fault

/-! # Syntax errors

Why a token stream is no program: the token that does not fit, or the fault that ended the stream. An
error carries the productions that were being read, outermost first. -/

namespace Offside

/-- What is wrong with a program. -/
inductive SyntaxFault where
  | expectedToken (names : List String) (found : Option Token)
  | unexpectedToken (found : Token)
  | unexpectedEnd
  | invalidTarget (found : String)
  | tooDeeplyNested (limit : Nat)
  /-- Reading went on although an error had ended it. -/
  | poisoned
  | fault (fault : Fault)
deriving DecidableEq, Repr, Inhabited

def SyntaxFault.text : SyntaxFault → String
  | .expectedToken names found =>
    "expected one of " ++ ", ".intercalate names ++ ", got " ++
      (match found with
        | some t => t.text
        | none => "end of input")
  | .unexpectedToken t => "unexpected token: " ++ t.text
  | .unexpectedEnd => "unexpected end of input"
  | .invalidTarget found => "cannot assign to " ++ found
  | .tooDeeplyNested limit =>
    "too deeply nested, at most " ++ toString limit ++ " productions may be open"
  | .poisoned => "attempting to continue parsing but parser was poisoned"
  | .fault f => f.message

/-- A syntax error with its place, its cause and the productions that were open. -/
structure SyntaxError where
  fault : SyntaxFault
  location : Option Span := none
  cause : Option SyntaxError := none
  stack : Option (List String) := none
deriving Repr, Inhabited

/-- The lines that number the open productions, outermost first. -/
def stackText (stack : List String) : String :=
  "non terminal stack:\n" ++
    String.join (stack.zipIdx.map fun (name, i) => "  " ++ toString i ++ ": " ++ name ++ "\n")

/-- A syntax error as text. -/
def SyntaxError.message : SyntaxError → String
  | ⟨fault, location, cause, stack⟩ =>
    let causeText := match cause with
      | some c => some c.message
      | none => none
    "syntax error: " ++ locatedText fault.text location causeText ++
      (match stack with
        | some names => stackText names
        | none => "")

end Offside
