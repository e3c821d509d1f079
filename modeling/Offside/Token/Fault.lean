import Offside.Text.Quoted
import Offside.Token.Kind

/-! # Faults

What can be wrong with a text before its grammar is looked at: characters that start no token,
numbers that are too large, and lines whose indentation fits no open block. -/

namespace Offside

/-- What is wrong with the characters at a place. -/
inductive LexFault where
  | illegalChar (char : Char)
  | invalidLiteral (text : String)
deriving DecidableEq, Repr, Inhabited

/-- What is wrong with the indentation at a place. -/
inductive IndentFault where
  | expectedIndentedBlock | unexpectedIndent | inconsistentIndentation
deriving DecidableEq, Repr, Inhabited

/-- A fault and the place of the character or token that shows it. -/
inductive Fault where
  | lex (fault : LexFault) (position : Position)
  | indent (fault : IndentFault) (position : Position)
deriving DecidableEq, Repr, Inhabited

def LexFault.text : LexFault → String
  | .illegalChar c => "illegal character " ++ Text.quoteChar c
  | .invalidLiteral s => "invalid numeric literal " ++ Text.quote s

def IndentFault.text : IndentFault → String
  | .expectedIndentedBlock => "expected an indented block"
  | .unexpectedIndent => "unexpected indent"
  | .inconsistentIndentation => "inconsistent indentation"

namespace Fault

def position : Fault → Position
  | .lex _ p | .indent _ p => p

/-- A fault as a message, with its place. -/
def message : Fault → String
  | .lex f p => f.text ++ " at " ++ p.text
  | .indent f p => f.text ++ " at " ++ p.text

end Fault

/-- One item of a token stream: a token, or what stopped it from being read. -/
abbrev Item := Except Fault Token

end Offside
