/-! # Operators and delimiters

The tokens with one fixed spelling, the same in every dialect. -/

namespace Offside

/-- An operator or a delimiter. -/
inductive Symbol where
  | plus | minus | star | slash | percent | power | bitOr | bitAnd | tilde | caret | leftShift
  | rightShift | less | lessEqual | greater | greaterEqual | equal | notEqual | assign
  | plusAssign | minusAssign | starAssign | slashAssign | percentAssign | powerAssign
  | leftShiftAssign | rightShiftAssign | bitAndAssign | bitOrAssign | tildeAssign | caretAssign
  | colon | comma | semicolon | dot | leftParen | rightParen | leftBracket | rightBracket
  | leftCurly | rightCurly
deriving DecidableEq, Repr, Inhabited

namespace Symbol

/-- Every operator and delimiter, in order. -/
def all : List Symbol :=
  [.plus, .minus, .star, .slash, .percent, .power, .bitOr, .bitAnd, .tilde, .caret, .leftShift,
  .rightShift, .less, .lessEqual, .greater, .greaterEqual, .equal, .notEqual, .assign,
  .plusAssign, .minusAssign, .starAssign, .slashAssign, .percentAssign, .powerAssign,
  .leftShiftAssign, .rightShiftAssign, .bitAndAssign, .bitOrAssign, .tildeAssign, .caretAssign,
  .colon, .comma, .semicolon, .dot, .leftParen, .rightParen, .leftBracket, .rightBracket,
  .leftCurly, .rightCurly]

/-- How a symbol is written. -/
def spelling : Symbol → String
  | .plus => "+"
  | .minus => "-"
  | .star => "*"
  | .slash => "/"
  | .percent => "%"
  | .power => "**"
  | .bitOr => "|"
  | .bitAnd => "&"
  | .tilde => "~"
  | .caret => "^"
  | .leftShift => "<<"
  | .rightShift => ">>"
  | .less => "<"
  | .lessEqual => "<="
  | .greater => ">"
  | .greaterEqual => ">="
  | .equal => "=="
  | .notEqual => "!="
  | .assign => "="
  | .plusAssign => "+="
  | .minusAssign => "-="
  | .starAssign => "*="
  | .slashAssign => "/="
  | .percentAssign => "%="
  | .powerAssign => "**="
  | .leftShiftAssign => "<<="
  | .rightShiftAssign => ">>="
  | .bitAndAssign => "&="
  | .bitOrAssign => "|="
  | .tildeAssign => "~="
  | .caretAssign => "^="
  | .colon => ":"
  | .comma => ","
  | .semicolon => ";"
  | .dot => "."
  | .leftParen => "("
  | .rightParen => ")"
  | .leftBracket => "["
  | .rightBracket => "]"
  | .leftCurly => "\x7b"
  | .rightCurly => "\x7d"

/-- The name of a symbol. -/
def label : Symbol → String
  | .plus => "Plus"
  | .minus => "Minus"
  | .star => "Star"
  | .slash => "Slash"
  | .percent => "Percent"
  | .power => "Pow"
  | .bitOr => "BitOr"
  | .bitAnd => "BitAnd"
  | .tilde => "Tilde"
  | .caret => "Caret"
  | .leftShift => "LShift"
  | .rightShift => "RShift"
  | .less => "Lt"
  | .lessEqual => "Lte"
  | .greater => "Gt"
  | .greaterEqual => "Gte"
  | .equal => "Eq"
  | .notEqual => "Neq"
  | .assign => "Assign"
  | .plusAssign => "PlusAssign"
  | .minusAssign => "MinusAssign"
  | .starAssign => "StarAssign"
  | .slashAssign => "SlashAssign"
  | .percentAssign => "PercentAssign"
  | .powerAssign => "PowAssign"
  | .leftShiftAssign => "LShiftAssign"
  | .rightShiftAssign => "RShiftAssign"
  | .bitAndAssign => "BitAndAssign"
  | .bitOrAssign => "BitOrAssign"
  | .tildeAssign => "TildeAssign"
  | .caretAssign => "CaretAssign"
  | .colon => "Colon"
  | .comma => "Comma"
  | .semicolon => "SemiColon"
  | .dot => "Dot"
  | .leftParen => "LParen"
  | .rightParen => "RParen"
  | .leftBracket => "LBracket"
  | .rightBracket => "RBracket"
  | .leftCurly => "LCurly"
  | .rightCurly => "RCurly"

/-- Whether a symbol combines an operation with an assignment. -/
def isAugmented : Symbol → Bool
  | .plusAssign | .minusAssign | .starAssign | .slashAssign | .percentAssign | .powerAssign
  | .leftShiftAssign | .rightShiftAssign | .bitAndAssign | .bitOrAssign | .tildeAssign
  | .caretAssign => true
  | _ => false

/-- Every symbol is listed. -/
theorem mem_all (s : Symbol) : s ∈ all := by
  cases s <;> decide

/-- No two symbols are written alike. -/
theorem spelling_injective : Function.Injective spelling := by
  have hall : ∀ s ∈ all, ∀ t ∈ all, s.spelling = t.spelling → s = t := by decide +kernel
  exact fun s t => hall s s.mem_all t t.mem_all

end Symbol

end Offside
