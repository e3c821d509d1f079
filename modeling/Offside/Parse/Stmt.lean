import Offside.Layout.Blocks
import Offside.Parse.Expr
import Offside.Tree.Stmt

/-! # Reading statements

Simple statements stand on one line with semicolons between them; compound statements own suites,
which are either the rest of the line or an indented block. As with expressions, statements are
written in terms of the suites inside them, which begin behind a token that has been taken. -/

namespace Offside.Parse

/-! ### Simple statements -/

/-- The operation of an augmented assignment. -/
def augOp? : Kind → Option AugOp
  | .symbol .tildeAssign => some .invert
  | .symbol .plusAssign => some (.binary .add)
  | .symbol .minusAssign => some (.binary .sub)
  | .symbol .starAssign => some (.binary .mul)
  | .symbol .slashAssign => some (.binary .div)
  | .symbol .percentAssign => some (.binary .mod)
  | .symbol .powerAssign => some (.binary .pow)
  | .symbol .leftShiftAssign => some (.binary .leftShift)
  | .symbol .rightShiftAssign => some (.binary .rightShift)
  | .symbol .bitAndAssign => some (.binary .bitAnd)
  | .symbol .bitOrAssign => some (.binary .bitOr)
  | .symbol .caretAssign => some (.binary .bitXor)
  | _ => none

/-- The target that an expression on the left of an assignment stands for, or what it is instead. -/
def targetOf : Expr → Except String Target
  | .name _ n => .ok (.name n)
  | .attribute _ v a => .ok (.attribute v a)
  | .constant .. | .list .. | .tuple .. | .dict .. => .error "literal"
  | _ => .error "expression"

/-- The target of an assignment; an error stands at the expression that is none. -/
def target (e : Expr) : Parse Target := fun c =>
  match targetOf e with
  | .ok t => .ok t c
  | .error found => .error (c.errorAt (.invalidTarget found) (some e.span)) c

/-- An expression, or an assignment to one. -/
def exprStmt : Parse Stmt := within "expr_stmt" do
  let lhs ← testlist
  match ← accept (.symbol .assign) with
  | some _ =>
    let target ← target lhs
    let value ← testlist
    return .assign (lhs.span.join value.span) target value
  | none =>
    match ← acceptMap (augOp? ·.kind) with
    | some op =>
      let target ← target lhs
      let value ← testlist
      return .augAssign (lhs.span.join value.span) op target value
    | none => return .expr lhs.span lhs

/-- A test and perhaps a message. -/
def assertStmt (start : Span) : Parse Stmt := do
  let test ← test
  match ← accept (.symbol .comma) with
  | some _ =>
    let msg ← Parse.test
    return .assert (← spanFrom start) test (some msg)
  | none => return .assert (← spanFrom start) test none

/-- One more name behind a comma. -/
def nameStep (names : List String) : Parse (ForInStep (List String)) := do
  match ← accept (.symbol .comma) with
  | none => return .done names
  | some _ => return .yield (names ++ [(← requireName).1])

/-- Names with commas between them. -/
def globalStmt (start : Span) : Parse Stmt := do
  let (first, _) ← requireName
  let names ← loop nameStep [first]
  return .global (← spanFrom start) names

/-- A name and the namespace to run it in. -/
def execStmt (start : Span) : Parse Stmt := do
  let (code, _) ← requireName
  let _ ← require (.keyword .inKw) "in"
  let space ← test
  return .exec (← spanFrom start) code space

/-- The rest of a statement behind its keyword, for the keywords that start a simple one. -/
def keywordStmt? (start : Span) : Kind → Option (Parse Stmt)
  | .keyword .passKw => some (return .pass (← spanFrom start))
  | .keyword .breakKw => some (return .breakLoop (← spanFrom start))
  | .keyword .continueKw => some (return .continueLoop (← spanFrom start))
  | .keyword .assertKw => some (assertStmt start)
  | .keyword .globalKw => some (globalStmt start)
  | .keyword .execKw => some (execStmt start)
  | _ => none

/-- One simple statement. -/
def smallStmt : Parse Stmt := do
  match ← acceptMap fun t => keywordStmt? t.span t.kind with
  | some rest => rest
  | none => if ← seesExpr then exprStmt else failUnexpected

/-- One more simple statement behind a semicolon, if the line does not end there. -/
def smallStep (stmts : List Stmt) : Parse (ForInStep (List Stmt)) := do
  match ← accept (.symbol .semicolon) with
  | none => return .done stmts
  | some _ =>
    if ← sees .newline then return .done stmts
    return .yield (stmts ++ [← smallStmt])

/-- The simple statements of a line. -/
def simpleStmt : Parse (List Stmt) := within "simple_stmt" do
  let first ← smallStmt
  let stmts ← loop smallStep [first]
  match ← accept .newline with
  | some _ => return stmts
  | none => failWanting ["';'", "newline"]

/-! ### Compound statements over the suites inside -/

/-- A statement from its keyword to the end of its last suite. -/
def stmtSpan (start : Span) (body : Block) (orelse : Option Block) : Span :=
  let last := orelse.getD body
  if last.stmts.isEmpty then start else start.join last.span

section
variable (suite : Parse Block)

/-- A condition and its suite. -/
def guarded : Parse (Expr × Block) := do
  let test ← test
  let _ ← require (.symbol .colon) "':'"
  let body ← suite
  return (test, body)

/-- The suite for when no condition holds, if there is one. -/
def elseSuite : Parse (Option Block) := do
  match ← accept (.keyword .elseKw) with
  | none => return none
  | some _ =>
    let _ ← require (.symbol .colon) "':'"
    return some (← suite)

/-- One more condition with its suite. -/
def elifStep (branches : List (Expr × Block)) : Parse (ForInStep (List (Expr × Block))) := do
  match ← accept (.keyword .elifKw) with
  | none => return .done branches
  | some _ => return .yield (branches ++ [← guarded suite])

/-- Conditions with their suites, tried in order. -/
def ifStmt (start : Span) : Parse Stmt := within "if_stmt" do
  let first ← guarded suite
  let branches ← loop (elifStep suite) [first]
  let orelse ← elseSuite suite
  let last := (branches.getLast?.getD first).2
  return .ifElse (stmtSpan start last orelse) branches orelse

/-- A suite repeated while a condition holds. -/
def whileStmt (start : Span) : Parse Stmt := within "while_stmt" do
  let (test, body) ← guarded suite
  let orelse ← elseSuite suite
  return .whileLoop (stmtSpan start body orelse) test body orelse

/-- A suite repeated for the items of an iterable. -/
def forStmt (start : Span) : Parse Stmt := within "for_stmt" do
  let (target, _) ← requireName
  let _ ← require (.keyword .inKw) "in"
  let (iter, body) ← guarded suite
  let orelse ← elseSuite suite
  return .forLoop (stmtSpan start body orelse) target iter body orelse

/-- The name of a closure block and what wraps it: an expression before the name is a wrapper, and an
    expression alone has to be the name. -/
def closureHead : Parse (String × Option Expr) := do
  let head ← operation
  if ← sees (.symbol .colon) then
    match head with
    | .name _ n => return (n, none)
    | _ => failWanting ["name"]
  else
    let (name, _) ← requireName
    return (name, some head)

/-- A named suite. -/
def closureStmt (start : Span) (isLazy : Bool) : Parse Stmt := within "closure_block" do
  let (name, wrapper) ← closureHead
  let _ ← require (.symbol .colon) "':'"
  let body ← suite
  let span := stmtSpan start body none
  return .closure span { name, wrapper, body, isLazy, scope := none, span }

/-- The rest of a statement behind its keyword, for the keywords that start a compound one. -/
def compound? (start : Span) : Kind → Option (Parse Stmt)
  | .keyword .ifKw => some (ifStmt suite start)
  | .keyword .whileKw => some (whileStmt suite start)
  | .keyword .forKw => some (forStmt suite start)
  | .keyword .defineKw => some (closureStmt suite start true)
  | .keyword .classKw => some (closureStmt suite start false)
  | _ => none

/-- A compound statement, or the simple statements of a line. -/
def statementOver : Parse (List Stmt) := do
  match ← acceptMap fun t => compound? suite t.span t.kind with
  | some rest => return [← rest]
  | none => simpleStmt

/-- One more statement of an indented block, if it does not end. -/
def blockStep (stmts : List Stmt) : Parse (ForInStep (List Stmt)) := do
  match ← accept .blockEnd with
  | some _ => return .done stmts
  | none => return .yield (stmts ++ (← statementOver suite))

/-- An indented block of statements, or the simple statements of the same line. -/
def suiteOver : Parse Block := within "suite" do
  match ← accept .newline with
  | none => return .ofStmts (← simpleStmt)
  | some _ =>
    let _ ← require .blockStart "indented block"
    return .ofStmts (← loop (blockStep suite) [])

end

/-! ### The tower -/

/-- Suites with up to `height` others around one another. -/
def suiteUpTo : (height : Nat) → Parse Block
  | 0 => failUnexpected
  | height + 1 => fun c => suiteOver (suiteUpTo height) c

/-- A suite. -/
def suite : Parse Block := fun c => suiteUpTo (c.remaining + 1) c

/-- A compound statement, or the simple statements of a line. -/
def statement : Parse (List Stmt) := statementOver suite

/-- One more line of a program, if it does not end. -/
def lineStep (stmts : List Stmt) : Parse (ForInStep (List Stmt)) := do
  match ← accept .newline with
  | some _ => return .yield stmts
  | none =>
    if ← sees .endMarker then return .done stmts
    else if (← peek).isNone then failUnexpected
    else return .yield (stmts ++ (← statement))

/-- Lines of statements, some of them empty, up to the end marker. -/
def module : Parse Module := within "file_input" do
  let stmts ← loop lineStep []
  let _ ← require .endMarker "end of input"
  return { body := .ofStmts stmts }

end Offside.Parse

namespace Offside

/-- Runs a reader on a token stream. -/
def Parse.run {α : Type} (p : Parse α) (items : List Item) : Except SyntaxError α :=
  match p { input := items } with
  | .ok a _ => .ok a
  | .error e _ => .error e

/-- Reads a program. -/
def parse (dialect : Dialect) (source : String) : Except SyntaxError Module :=
  Parse.module.run (tokenStream dialect source)

end Offside
