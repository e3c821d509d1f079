import Offside.Tree.Stmt

/-! # Visiting a tree

A visit meets every block, statement, closure block, target and expression of a tree, each before what
is inside it: the value of an assignment before its target, a condition before its block, a wrapper
before the body. At each node a visitor says whether to go into it, and in a monad that can fail it
may end the visit. -/

namespace Offside

/-- A node of a tree, of whatever sort. -/
inductive Node where
  | module (module : Module)
  | block (block : Block)
  | stmt (stmt : Stmt)
  | closure (closure : Closure)
  | target (target : Target)
  | expr (expr : Expr)
deriving BEq, Repr, Inhabited

section
variable {m : Type → Type} [Monad m] (enter : Node → m Bool)

/-- Meets a node and, if told to, what is inside it. -/
def meet (n : Node) (inside : m Unit) : m Unit := do
  if ← enter n then inside

namespace Expr

mutual

/-- Visits an expression. -/
def visit : Expr → m Unit
  | e@(.name ..) => meet enter (.expr e) (pure ())
  | e@(.constant ..) => meet enter (.expr e) (pure ())
  | e@(.attribute _ v _) => meet enter (.expr e) v.visit
  | e@(.binary _ _ l r) => meet enter (.expr e) do l.visit; r.visit
  | e@(.bool _ _ l r) => meet enter (.expr e) do l.visit; r.visit
  | e@(.unary _ _ o) => meet enter (.expr e) o.visit
  | e@(.compare _ _ l r) => meet enter (.expr e) do l.visit; r.visit
  | e@(.call _ f as) => meet enter (.expr e) do f.visit; visitList as
  | e@(.conditional _ t b o) => meet enter (.expr e) do t.visit; b.visit; o.visit
  | e@(.list _ es) => meet enter (.expr e) (visitList es)
  | e@(.tuple _ es) => meet enter (.expr e) (visitList es)
  | e@(.dict _ es) => meet enter (.expr e) (visitEntries es)

/-- Visits expressions in a row. -/
def visitList : List Expr → m Unit
  | [] => pure ()
  | e :: es => do e.visit; visitList es

/-- Visits dictionary entries in a row, each key before its value. -/
def visitEntries : List (Expr × Expr) → m Unit
  | [] => pure ()
  | (k, v) :: es => do k.visit; v.visit; visitEntries es

end

end Expr

/-- Visits a target. -/
def Target.visit : Target → m Unit
  | t@(.name _) => meet enter (.target t) (pure ())
  | t@(.attribute v _) => meet enter (.target t) (v.visit enter)

/-- Visits an expression that may be missing. -/
def Expr.visitOption : Option Expr → m Unit
  | none => pure ()
  | some e => e.visit enter

mutual

/-- Visits a statement. -/
def Stmt.visit : Stmt → m Unit
  | s@(.expr _ e) => meet enter (.stmt s) (e.visit enter)
  | s@(.assign _ t e) => meet enter (.stmt s) do e.visit enter; t.visit enter
  | s@(.augAssign _ _ t e) => meet enter (.stmt s) do e.visit enter; t.visit enter
  | s@(.ifElse _ bs o) => meet enter (.stmt s) do Block.visitBranches bs; Block.visitOption o
  | s@(.whileLoop _ t b o) => meet enter (.stmt s) do t.visit enter; b.visit; Block.visitOption o
  | s@(.forLoop _ _ i b o) => meet enter (.stmt s) do i.visit enter; b.visit; Block.visitOption o
  | s@(.breakLoop _) => meet enter (.stmt s) (pure ())
  | s@(.continueLoop _) => meet enter (.stmt s) (pure ())
  | s@(.pass _) => meet enter (.stmt s) (pure ())
  | s@(.assert _ t msg) => meet enter (.stmt s) do t.visit enter; Expr.visitOption enter msg
  | s@(.global ..) => meet enter (.stmt s) (pure ())
  | s@(.exec _ _ e) => meet enter (.stmt s) (e.visit enter)
  | s@(.closure _ c) => meet enter (.stmt s) c.visit

/-- Visits a block. -/
def Block.visit : Block → m Unit
  | b@⟨stmts, _⟩ => meet enter (.block b) (Block.visitStmts stmts)

/-- Visits a closure block. -/
def Closure.visit : Closure → m Unit
  | c@⟨_, wrapper, body, _, _, _⟩ =>
    meet enter (.closure c) do Expr.visitOption enter wrapper; body.visit

/-- Visits statements in a row. -/
def Block.visitStmts : List Stmt → m Unit
  | [] => pure ()
  | s :: ss => do s.visit; Block.visitStmts ss

/-- Visits conditions and their blocks in a row. -/
def Block.visitBranches : List (Expr × Block) → m Unit
  | [] => pure ()
  | (t, b) :: bs => do t.visit enter; b.visit; Block.visitBranches bs

/-- Visits a block that may be missing. -/
def Block.visitOption : Option Block → m Unit
  | none => pure ()
  | some b => b.visit

end

/-- Visits a whole program. -/
def Module.visit (p : Module) : m Unit :=
  meet enter (.module p) (p.body.visit enter)

end

/-- What some nodes of a program have to tell, in visiting order. -/
def Module.collect {α : Type} (p : Module) (tell : Node → List α) : List α :=
  let enter : Node → StateM (List α) Bool := fun n => do
    modify (· ++ tell n)
    return true
  (p.visit enter |>.run []).2

/-- The names that a program's expressions read, in visiting order. -/
def Module.namesRead (p : Module) : List String :=
  p.collect fun
    | .expr (.name _ n) => [n]
    | _ => []

/-- The closure blocks of a program, in visiting order. -/
def Module.closures (p : Module) : List Closure :=
  p.collect fun
    | .closure c => [c]
    | _ => []

end Offside
