/-! # Reserved words

The words with a meaning of their own, apart from how a dialect spells them. -/

namespace Offside

/-- A reserved word. -/
inductive Keyword where
  | andKw | assertKw | breakKw | classKw | continueKw | defineKw | delKw | elifKw | elseKw
  | exceptKw | execKw | finallyKw | forKw | fromKw | globalKw | ifKw | importKw | inKw | isKw
  | lambdaKw | notKw | orKw | passKw | printKw | raiseKw | returnKw | tryKw | whileKw
deriving DecidableEq, Repr, Inhabited

namespace Keyword

/-- Every reserved word, in order. -/
def all : List Keyword :=
  [.andKw, .assertKw, .breakKw, .classKw, .continueKw, .defineKw, .delKw, .elifKw, .elseKw,
  .exceptKw, .execKw, .finallyKw, .forKw, .fromKw, .globalKw, .ifKw, .importKw, .inKw, .isKw,
  .lambdaKw, .notKw, .orKw, .passKw, .printKw, .raiseKw, .returnKw, .tryKw, .whileKw]

/-- The name of a reserved word, the same in every dialect. -/
def label : Keyword → String
  | .andKw => "And"
  | .assertKw => "Assert"
  | .breakKw => "Break"
  | .classKw => "Class"
  | .continueKw => "Continue"
  | .defineKw => "Define"
  | .delKw => "Del"
  | .elifKw => "Elif"
  | .elseKw => "Else"
  | .exceptKw => "Except"
  | .execKw => "Exec"
  | .finallyKw => "Finally"
  | .forKw => "For"
  | .fromKw => "From"
  | .globalKw => "Global"
  | .ifKw => "If"
  | .importKw => "Import"
  | .inKw => "In"
  | .isKw => "Is"
  | .lambdaKw => "Lambda"
  | .notKw => "Not"
  | .orKw => "Or"
  | .passKw => "Pass"
  | .printKw => "Print"
  | .raiseKw => "Raise"
  | .returnKw => "Return"
  | .tryKw => "Try"
  | .whileKw => "While"

end Keyword

end Offside
