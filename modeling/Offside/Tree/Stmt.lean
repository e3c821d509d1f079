import Offside.Tree.Expr

/-! # Statements, blocks and modules

A module is a block of statements. Some statements own blocks of their own, and a closure block also
opens a scope, which name resolution marks on it. -/

namespace Offside

/-- The number of a scope in its table. -/
structure ScopeId where
  index : Nat
deriving DecidableEq, Repr, Inhabited

def ScopeId.text (id : ScopeId) : String := "scope#" ++ toString id.index

/-- What an assignment writes to. -/
inductive Target where
  | name (name : String)
  | attribute (value : Expr) (attr : String)
deriving BEq, Repr, Inhabited

/-- The operation of an augmented assignment; `invert` belongs to no binary operator. -/
inductive AugOp where
  | binary (op : BinaryOp)
  | invert
deriving DecidableEq, Repr, Inhabited

def AugOp.text : AugOp → String
  | .binary op => op.text ++ "="
  | .invert => "~="

mutual

/-- A statement. -/
inductive Stmt where
  | expr (span : Span) (value : Expr)
  | assign (span : Span) (target : Target) (value : Expr)
  | augAssign (span : Span) (op : AugOp) (target : Target) (value : Expr)
  /-- Conditions with their blocks, in order, and a block for when none holds. -/
  | ifElse (span : Span) (branches : List (Expr × Block)) (orelse : Option Block)
  | whileLoop (span : Span) (test : Expr) (body : Block) (orelse : Option Block)
  | forLoop (span : Span) (target : String) (iter : Expr) (body : Block) (orelse : Option Block)
  | breakLoop (span : Span)
  | continueLoop (span : Span)
  | pass (span : Span)
  | assert (span : Span) (test : Expr) (msg : Option Expr)
  | global (span : Span) (names : List String)
  /-- Runs the code bound to a name inside a namespace. -/
  | exec (span : Span) (code : String) (space : Expr)
  | closure (span : Span) (closure : Closure)
deriving BEq, Repr, Inhabited

/-- Statements in a row. -/
structure Block where
  stmts : List Stmt
  span : Span
deriving BEq, Repr, Inhabited

/-- A name bound to what a block makes. A lazy block is kept unevaluated; a wrapper is called with
    the name and the value, and its result is bound instead. -/
structure Closure where
  name : String
  wrapper : Option Expr
  body : Block
  isLazy : Bool
  scope : Option ScopeId
  span : Span
deriving BEq, Repr, Inhabited

end

namespace Stmt

/-- Where a statement stands. -/
def span : Stmt → Span
  | .expr s _ | .assign s _ _ | .augAssign s _ _ _ | .ifElse s _ _ | .whileLoop s _ _ _
  | .forLoop s _ _ _ _ | .breakLoop s | .continueLoop s | .pass s | .assert s _ _ | .global s _
  | .exec s _ _ | .closure s _ => s

/-- What sort of statement a node is. -/
def label : Stmt → String
  | .expr .. => "ExprStmt"
  | .assign .. => "Assign"
  | .augAssign .. => "AugAssign"
  | .ifElse .. => "If"
  | .whileLoop .. => "While"
  | .forLoop .. => "For"
  | .breakLoop .. => "Break"
  | .continueLoop .. => "Continue"
  | .pass .. => "Pass"
  | .assert .. => "Assert"
  | .global .. => "Global"
  | .exec .. => "Exec"
  | .closure .. => "ClosureBlock"

end Stmt

/-- The block of statements in a row; its span goes from the first to the last of them. -/
def Block.ofStmts (stmts : List Stmt) : Block :=
  match stmts.head?, stmts.getLast? with
  | some first, some last => ⟨stmts, first.span.join last.span⟩
  | _, _ => ⟨stmts, {}⟩

/-- A whole program. -/
structure Module where
  body : Block
  scope : Option ScopeId := none
deriving BEq, Repr, Inhabited

end Offside
