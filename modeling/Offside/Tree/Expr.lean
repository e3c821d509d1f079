import Offside.Decimal.Style
import Offside.Span
import Offside.Text.Quoted

/-! # Expressions

Expression trees and the text that shows one with all its parentheses. Each node carries the span of
the source text it was read from. -/

namespace Offside

/-- A literal value. -/
inductive Constant where
  | integer (value : Int)
  | float (value : Binary64)
  | string (text : String)
deriving DecidableEq, Repr, Inhabited

/-- An operator between two values. -/
inductive BinaryOp where
  | add | sub | mul | div | mod | pow | leftShift | rightShift | bitOr | bitXor | bitAnd
deriving DecidableEq, Repr, Inhabited

/-- An operator that may leave its right side unevaluated. -/
inductive BoolOp where
  | and | or
deriving DecidableEq, Repr, Inhabited

/-- An operator in front of one value. -/
inductive UnaryOp where
  | plus | minus | invert | not
deriving DecidableEq, Repr, Inhabited

/-- A comparison. The two-word comparisons are operators of their own. -/
inductive CompareOp where
  | equal | notEqual | less | lessEqual | greater | greaterEqual | is | isNot | isIn | notIn
deriving DecidableEq, Repr, Inhabited

/-- An expression. -/
inductive Expr where
  | name (span : Span) (name : String)
  | constant (span : Span) (value : Constant)
  | attribute (span : Span) (value : Expr) (attr : String)
  | binary (span : Span) (op : BinaryOp) (left right : Expr)
  | bool (span : Span) (op : BoolOp) (left right : Expr)
  | unary (span : Span) (op : UnaryOp) (operand : Expr)
  | compare (span : Span) (op : CompareOp) (left right : Expr)
  | call (span : Span) (callee : Expr) (args : List Expr)
  /-- `body` if `test` holds, else `orelse`. -/
  | conditional (span : Span) (test body orelse : Expr)
  | list (span : Span) (items : List Expr)
  | tuple (span : Span) (items : List Expr)
  | dict (span : Span) (entries : List (Expr × Expr))
deriving BEq, Repr, Inhabited

namespace Expr

/-- Where an expression stands. -/
def span : Expr → Span
  | .name s _ | .constant s _ | .attribute s _ _ | .binary s _ _ _ | .bool s _ _ _ | .unary s _ _
  | .compare s _ _ _ | .call s _ _ | .conditional s _ _ _ | .list s _ | .tuple s _ | .dict s _ => s

/-- The same expression at another place; its parts stay where they are. -/
def withSpan (s : Span) : Expr → Expr
  | .name _ n => .name s n
  | .constant _ v => .constant s v
  | .attribute _ v a => .attribute s v a
  | .binary _ op l r => .binary s op l r
  | .bool _ op l r => .bool s op l r
  | .unary _ op e => .unary s op e
  | .compare _ op l r => .compare s op l r
  | .call _ f as => .call s f as
  | .conditional _ t b o => .conditional s t b o
  | .list _ es => .list s es
  | .tuple _ es => .tuple s es
  | .dict _ es => .dict s es

@[simp] theorem span_withSpan (s : Span) (e : Expr) : (e.withSpan s).span = s := by
  cases e <;> rfl

/-- What sort of expression a node is. -/
def label : Expr → String
  | .name .. => "Name"
  | .constant _ (.integer _) => "Integer"
  | .constant _ (.float _) => "Float"
  | .constant _ (.string _) => "String"
  | .attribute .. => "Attribute"
  | .binary .. => "Binary"
  | .bool .. => "Bool"
  | .unary .. => "Unary"
  | .compare .. => "Compare"
  | .call .. => "Call"
  | .conditional .. => "IfExp"
  | .list .. => "List"
  | .tuple .. => "Tuple"
  | .dict .. => "Dict"

end Expr

/-! ### Text -/

def BinaryOp.text : BinaryOp → String
  | .add => "+"
  | .sub => "-"
  | .mul => "*"
  | .div => "/"
  | .mod => "%"
  | .pow => "**"
  | .leftShift => "<<"
  | .rightShift => ">>"
  | .bitOr => "|"
  | .bitXor => "^"
  | .bitAnd => "&"

def BoolOp.text : BoolOp → String
  | .and => "and"
  | .or => "or"

def UnaryOp.text : UnaryOp → String
  | .plus => "+"
  | .minus => "-"
  | .invert => "~"
  | .not => "not"

def CompareOp.text : CompareOp → String
  | .equal => "=="
  | .notEqual => "!="
  | .less => "<"
  | .lessEqual => "<="
  | .greater => ">"
  | .greaterEqual => ">="
  | .is => "is"
  | .isNot => "is not"
  | .isIn => "in"
  | .notIn => "not in"

/-- A literal as a program writes it. -/
def Constant.chars : Constant → List Char
  | .integer i => intChars i
  | .float x => x.chars Decimal.literal
  | .string s => Text.quoteChars s.toList

/-- Texts with a comma and a space between them. -/
def commaSeparated (texts : List (List Char)) : List Char := [',', ' '].intercalate texts

/-- Texts in parentheses with a comma after a lone one. -/
def tupleChars : List (List Char) → List Char
  | [only] => '(' :: (only ++ [',', ')'])
  | texts => '(' :: (commaSeparated texts ++ [')'])

/-- An operator and its two sides in parentheses. -/
def infixChars (left : List Char) (op : String) (right : List Char) : List Char :=
  '(' :: (left ++ ' ' :: (op.toList ++ ' ' :: (right ++ [')'])))

namespace Expr

mutual

/-- An expression with every operation in parentheses. -/
def chars : Expr → List Char
  | .name _ n => n.toList
  | .constant _ v => v.chars
  | .attribute _ v a => v.chars ++ '.' :: a.toList
  | .binary _ op l r => infixChars l.chars op.text r.chars
  | .bool _ op l r => infixChars l.chars op.text r.chars
  | .unary _ op e =>
    let space := if op = .not then [' '] else []
    '(' :: (op.text.toList ++ space ++ e.chars ++ [')'])
  | .compare _ op l r => infixChars l.chars op.text r.chars
  | .call _ f as => f.chars ++ '(' :: (commaSeparated (charsList as) ++ [')'])
  | .conditional _ t b o =>
    '(' :: (b.chars ++ " if ".toList ++ t.chars ++ " else ".toList ++ o.chars ++ [')'])
  | .list _ es => '[' :: (commaSeparated (charsList es) ++ [']'])
  | .tuple _ es => tupleChars (charsList es)
  | .dict _ es => '\x7b' :: (commaSeparated (charsEntries es) ++ ['\x7d'])

/-- The texts of expressions in a row. -/
def charsList : List Expr → List (List Char)
  | [] => []
  | e :: es => e.chars :: charsList es

/-- The texts of dictionary entries in a row. -/
def charsEntries : List (Expr × Expr) → List (List Char)
  | [] => []
  | (k, v) :: es => (k.chars ++ ':' :: ' ' :: v.chars) :: charsEntries es

end

/-- An expression as text. -/
def text (e : Expr) : String := String.ofList e.chars

end Expr

end Offside
