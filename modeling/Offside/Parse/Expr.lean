import Offside.Parse.Cursor
import Offside.Tree.Expr

/-! # Reading expressions

From the loosest to the tightest: lists of tests, conditional expressions, `or`, `and`, `not`,
comparisons, six levels of binary operators, signs, powers, calls and attributes, and atoms.

Each production is written in terms of `below`, the productions for the expressions inside it; these
begin behind a token that has been taken. A tower of as many storeys as there are tokens left is
therefore high enough for every expression. -/

namespace Offside.Parse

/-- The productions through which an expression contains others of unbounded depth. -/
inductive Rule where
  | test | notTest | factor
deriving DecidableEq, Repr, Inhabited

/-! ### Pieces that do not recur -/

/-- Whether a kind can start an atom. -/
def startsAtom : Kind → Bool
  | .name _ | .integer _ | .float _ | .string _ => true
  | .symbol .leftParen | .symbol .leftBracket | .symbol .leftCurly => true
  | _ => false

/-- Whether a kind can start an expression. -/
def startsExpr : Kind → Bool
  | .symbol .plus | .symbol .minus | .symbol .tilde | .keyword .notKw => true
  | k => startsAtom k

/-- Whether the cursor sees the start of an expression. -/
def seesExpr : Parse Bool := return (← peek).any (startsExpr ·.kind)

/-- The levels of binary operators, the loosest first. -/
def binaryLevels : List (List (Symbol × BinaryOp)) :=
  [[(.bitOr, .bitOr)],
   [(.caret, .bitXor)],
   [(.bitAnd, .bitAnd)],
   [(.leftShift, .leftShift), (.rightShift, .rightShift)],
   [(.plus, .add), (.minus, .sub)],
   [(.star, .mul), (.slash, .div), (.percent, .mod)]]

/-- The comparisons of one token. -/
def compareOp? : Kind → Option CompareOp
  | .symbol .equal => some .equal
  | .symbol .notEqual => some .notEqual
  | .symbol .less => some .less
  | .symbol .lessEqual => some .lessEqual
  | .symbol .greater => some .greater
  | .symbol .greaterEqual => some .greaterEqual
  | .keyword .inKw => some .isIn
  | _ => none

/-- The signs in front of a factor. -/
def signOp? : Kind → Option UnaryOp
  | .symbol .plus => some .plus
  | .symbol .minus => some .minus
  | .symbol .tilde => some .invert
  | _ => none

/-- Two expressions under an operator, from the start of the left to the end of the right. -/
def binaryNode (op : BinaryOp) (l r : Expr) : Expr := .binary (l.span.join r.span) op l r

/-- Two expressions under a boolean operator. -/
def boolNode (op : BoolOp) (l r : Expr) : Expr := .bool (l.span.join r.span) op l r

/-- One more operator and its right operand, behind the left one. -/
def chainStep (operand : Parse Expr) (node? : Kind → Option (Expr → Expr → Expr)) (l : Expr) :
    Parse (ForInStep Expr) := do
  match ← acceptMap (node? ·.kind) with
  | none => return .done l
  | some node => return .yield (node l (← operand))

/-- Operands with operators between them, grouped from the left. -/
def chain (operand : Parse Expr) (node? : Kind → Option (Expr → Expr → Expr)) : Parse Expr := do
  loop (chainStep operand node?) (← operand)

/-- The operators of some binary levels over operands that bind tighter. -/
def binaryFrom (operand : Parse Expr) : List (List (Symbol × BinaryOp)) → Parse Expr
  | [] => operand
  | ops :: levels =>
    chain (binaryFrom operand levels) fun
      | .symbol s => (ops.lookup s).map binaryNode
      | _ => none

/-- A comparison operator, if one comes next. -/
def comparisonOp : Parse (Option CompareOp) := do
  match ← acceptMap (compareOp? ·.kind) with
  | some op => return some op
  | none =>
    match ← accept (.keyword .isKw) with
    | some _ =>
      match ← accept (.keyword .notKw) with
      | some _ => return some .isNot
      | none => return some .is
    | none =>
      match ← accept (.keyword .notKw) with
      | some _ =>
        let _ ← require (.keyword .inKw) "in"
        return some .notIn
      | none => return none

/-- One more item in front of a closing bracket, if it does not come next. -/
def itemStep {α : Type} (item : Parse α) (close : Symbol) (items : List α) :
    Parse (ForInStep (List α)) := do
  if ← sees (.symbol close) then return .done items
  let items := items ++ [← item]
  match ← accept (.symbol .comma) with
  | some _ => return .yield items
  | none => return .done items

/-- Items with commas between them, and perhaps one more comma, up to a closing bracket. -/
def commaList {α : Type} (item : Parse α) (close : Symbol) (description : String) :
    Parse (List α) := do
  let items ← loop (itemStep item close) []
  let _ ← require (.symbol close) description
  return items

/-- One more test behind a comma, if one starts there. -/
def testStep (test : Parse Expr) (items : List Expr) : Parse (ForInStep (List Expr)) := do
  match ← accept (.symbol .comma) with
  | none => return .done items
  | some _ =>
    if ← seesExpr then return .yield (items ++ [← within "test" test])
    else return .done items

/-- Tests with commas between them, and perhaps one more comma. One test without a comma is the
    expression itself, all else is a tuple. -/
def testlistOf (test : Parse Expr) : Parse Expr := within "testlist" do
  let first ← within "test" test
  if !(← sees (.symbol .comma)) then return first
  let items ← loop (testStep test) [first]
  return .tuple (← spanFrom first.span) items

/-! ### Productions over the expressions inside -/

section
variable (below : Rule → Parse Expr)

/-- A key, a colon and a value. -/
def dictEntry : Parse (Expr × Expr) := do
  let key ← below .test
  let _ ← require (.symbol .colon) ":"
  let value ← below .test
  return (key, value)

/-- What an atom that starts with a taken token is, but for its span. -/
def atomBody (t : Token) : Parse Expr := do
  match t.kind with
  | .name n => return .name t.span n
  | .integer i => return .constant t.span (.integer i)
  | .float x => return .constant t.span (.float x)
  | .string s => return .constant t.span (.string s)
  | .symbol .leftParen =>
    match ← accept (.symbol .rightParen) with
    | some _ => return .tuple t.span []
    | none =>
      let inner ← testlistOf (below .test)
      let _ ← require (.symbol .rightParen) ")"
      return inner
  | .symbol .leftBracket => return .list t.span (← commaList (below .test) .rightBracket "]")
  | _ => return .dict t.span (← commaList (dictEntry below) .rightCurly "\x7d")

/-- A name, a literal or a bracketed expression. -/
def atom : Parse Expr := within "atom" do
  match ← takeIf (startsAtom ·.kind) with
  | none => failWanting ["name", "literal", "(", "[", "\x7b"]
  | some t => return (← atomBody below t).withSpan (← spanFrom t.span)

/-- One more call or attribute behind its owner. -/
def trailerStep (owner : Expr) : Parse (ForInStep Expr) := do
  match ← accept (.symbol .leftParen) with
  | some _ =>
    let args ← commaList (below .test) .rightParen ")"
    return .yield (.call (← spanFrom owner.span) owner args)
  | none =>
    match ← accept (.symbol .dot) with
    | some _ =>
      let (attr, s) ← requireName
      return .yield (.attribute (owner.span.join s) owner attr)
    | none => return .done owner

/-- An atom with calls and attributes behind it. -/
def atomTrailers : Parse Expr := do
  loop (trailerStep below) (← atom below)

/-- An atom with its trailers, perhaps raised to a factor. -/
def power : Parse Expr := do
  let base ← atomTrailers below
  match ← accept (.symbol .power) with
  | none => return base
  | some _ => return binaryNode .pow base (← below .factor)

/-- A sign in front of a factor, or a power. -/
def factorBody : Parse Expr := do
  match ← acceptMap fun t => (signOp? t.kind).map (·, t.span) with
  | none => power below
  | some (op, s) =>
    let operand ← within "factor" (below .factor)
    return .unary (s.join operand.span) op operand

/-- Factors under all levels of binary operators. -/
def binary : Parse Expr := binaryFrom (factorBody below) binaryLevels

/-- Two binary expressions compared, or one alone. Comparisons do not chain. -/
def comparison : Parse Expr := do
  let left ← binary below
  match ← comparisonOp with
  | none => return left
  | some op =>
    let right ← binary below
    return .compare (left.span.join right.span) op left right

/-- A negated test, or a comparison. -/
def notTestBody : Parse Expr := do
  match ← accept (.keyword .notKw) with
  | some t =>
    let operand ← within "not_test" (below .notTest)
    return .unary (t.span.join operand.span) .not operand
  | none => comparison below

/-- Tests that all have to hold. -/
def andTest : Parse Expr :=
  chain (notTestBody below) fun k => if k = .keyword .andKw then some (boolNode .and) else none

/-- Tests of which one has to hold. -/
def orTest : Parse Expr :=
  chain (andTest below) fun k => if k = .keyword .orKw then some (boolNode .or) else none

/-- A test, perhaps with a condition and an alternative. -/
def testBody : Parse Expr := do
  let body ← orTest below
  match ← accept (.keyword .ifKw) with
  | none => return body
  | some _ =>
    let test ← orTest below
    let _ ← require (.keyword .elseKw) "else"
    let orelse ← below .test
    return .conditional (body.span.join orelse.span) test body orelse

/-- A production one storey above `below`. -/
def rule : Rule → Parse Expr
  | .test => testBody below
  | .notTest => notTestBody below
  | .factor => factorBody below

end

/-! ### The tower -/

/-- The productions `height` storeys up. On the ground nothing can be read. -/
def storey : (height : Nat) → Rule → Parse Expr
  | 0, _ => failUnexpected
  | height + 1, r => fun c => rule (storey height) r c

/-- A production for as many tokens as there are. -/
def expr (r : Rule) : Parse Expr := fun c => storey (c.remaining + 1) r c

/-- One test. -/
def test : Parse Expr := within "test" (expr .test)

/-- One test, if one can start here. -/
def testOpt : Parse (Option Expr) := do
  if ← seesExpr then return some (← test) else return none

/-- Tests with commas between them. -/
def testlist : Parse Expr := testlistOf (expr .test)

/-- An expression of binary operators only at its top. -/
def operation : Parse Expr := binaryFrom (expr .factor) binaryLevels

end Offside.Parse
