import Offside.Parse.Error

/-! # Compile errors

Why a program cannot be compiled: it is not well formed, a name in it is bound nowhere, or the backend
refuses it. -/

namespace Offside

/-- What is wrong with a program that is to be compiled. -/
inductive CompileFault where
  | grammar (error : SyntaxError)
  | unresolvedName (name scope : String)
  | backend (text : String)
deriving Repr, Inhabited

def CompileFault.text : CompileFault → String
  | .grammar e => e.message
  | .unresolvedName n s =>
    "name " ++ Text.quote n ++ " read in " ++ s ++ " is never bound and is not a builtin"
  | .backend t => "backend failed: " ++ t

/-- A compile error with its place and its cause. -/
structure CompileError where
  fault : CompileFault
  ownLocation : Option Span := none
  cause : Option CompileError := none
deriving Repr, Inhabited

namespace CompileError

/-- The place of a compile error; a syntax error without one stands where it was found. -/
def location (e : CompileError) : Option Span :=
  match e.fault with
  | .grammar s => e.ownLocation <|> s.location
  | _ => e.ownLocation

/-- A compile error as text. -/
def message : CompileError → String
  | ⟨fault, ownLocation, cause⟩ =>
    let causeText := match cause with
      | some c => some c.message
      | none => none
    locatedText fault.text ownLocation causeText

end CompileError

end Offside
