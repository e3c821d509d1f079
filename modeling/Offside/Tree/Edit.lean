import Offside.Tree.Visit

/-! # Editing a tree

An edit meets the same nodes in the same order as a visit. Before it meets a name expression, a name
target or a closure block it may give it another name. When it fails at a node it goes no further, and
what it has changed by then stays changed. -/

namespace Offside

/-- The names that an edit can change. -/
inductive NameSite where
  | expr | target | closure
deriving DecidableEq, Repr, Inhabited

/-- What an edit does: the new name at a site, and whether to go into a node or to fail at it. -/
structure Editor (σ ε : Type) where
  rename : NameSite → String → StateM σ String := fun _ n => pure n
  enter : Node → StateM σ (Except ε Bool) := fun _ => pure (.ok true)

/-- How far an edit has come: what it remembers, and why it has ended if it has. -/
structure Progress (σ ε : Type) where
  state : σ
  failure : Option ε := none

namespace Editor

variable {σ ε : Type} (ed : Editor σ ε)

/-- The new name at a site, as long as the edit has not failed. -/
def renamed (site : NameSite) (n : String) : StateM (Progress σ ε) String := fun p =>
  match p.failure with
  | some _ => (n, p)
  | none =>
    let (n, state) := ed.rename site n p.state
    (n, { p with state })

/-- Meets a node, and makes it anew from its parts if the edit goes into it. -/
def meet {α : Type} (n : Node) (unchanged : α) (parts : StateM (Progress σ ε) α) :
    StateM (Progress σ ε) α := fun p =>
  match p.failure with
  | some _ => (unchanged, p)
  | none =>
    match ed.enter n p.state with
    | (.error e, state) => (unchanged, { state, failure := some e })
    | (.ok false, state) => (unchanged, { p with state })
    | (.ok true, state) => parts { p with state }

/-- Meets an expression. -/
def meetExpr (e : Expr) (parts : StateM (Progress σ ε) Expr) : StateM (Progress σ ε) Expr :=
  ed.meet (.expr e) e parts

/-- Meets a statement. -/
def meetStmt (s : Stmt) (parts : StateM (Progress σ ε) Stmt) : StateM (Progress σ ε) Stmt :=
  ed.meet (.stmt s) s parts

mutual

/-- Edits an expression. -/
def expr : Expr → StateM (Progress σ ε) Expr
  | .name s n => do
    let e := Expr.name s (← ed.renamed .expr n)
    ed.meetExpr e (pure e)
  | e@(.constant ..) => ed.meetExpr e (pure e)
  | e@(.attribute s v a) => ed.meetExpr e do return .attribute s (← expr v) a
  | e@(.binary s op l r) => ed.meetExpr e do return .binary s op (← expr l) (← expr r)
  | e@(.bool s op l r) => ed.meetExpr e do return .bool s op (← expr l) (← expr r)
  | e@(.unary s op o) => ed.meetExpr e do return .unary s op (← expr o)
  | e@(.compare s op l r) => ed.meetExpr e do return .compare s op (← expr l) (← expr r)
  | e@(.call s f as) => ed.meetExpr e do return .call s (← expr f) (← exprs as)
  | e@(.conditional s t b o) =>
    ed.meetExpr e do return .conditional s (← expr t) (← expr b) (← expr o)
  | e@(.list s es) => ed.meetExpr e do return .list s (← exprs es)
  | e@(.tuple s es) => ed.meetExpr e do return .tuple s (← exprs es)
  | e@(.dict s es) => ed.meetExpr e do return .dict s (← entries es)

/-- Edits expressions in a row. -/
def exprs : List Expr → StateM (Progress σ ε) (List Expr)
  | [] => return []
  | e :: es => return (← expr e) :: (← exprs es)

/-- Edits dictionary entries in a row. -/
def entries : List (Expr × Expr) → StateM (Progress σ ε) (List (Expr × Expr))
  | [] => return []
  | (k, v) :: es => return (← expr k, ← expr v) :: (← entries es)

end

/-- Edits an expression that may be missing. -/
def exprOption : Option Expr → StateM (Progress σ ε) (Option Expr)
  | none => return none
  | some e => return some (← ed.expr e)

/-- Edits a target. -/
def target : Target → StateM (Progress σ ε) Target
  | .name n => do
    let t := Target.name (← ed.renamed .target n)
    ed.meet (.target t) t (pure t)
  | t@(.attribute v a) => ed.meet (.target t) t do return .attribute (← ed.expr v) a

mutual

/-- Edits a statement. -/
def stmt : Stmt → StateM (Progress σ ε) Stmt
  | s@(.expr p e) => ed.meetStmt s do return .expr p (← ed.expr e)
  | s@(.assign p t e) => ed.meetStmt s do
    let e ← ed.expr e
    return .assign p (← ed.target t) e
  | s@(.augAssign p op t e) => ed.meetStmt s do
    let e ← ed.expr e
    return .augAssign p op (← ed.target t) e
  | s@(.ifElse p bs o) => ed.meetStmt s do return .ifElse p (← branches bs) (← blockOption o)
  | s@(.whileLoop p t b o) =>
    ed.meetStmt s do return .whileLoop p (← ed.expr t) (← block b) (← blockOption o)
  | s@(.forLoop p n i b o) =>
    ed.meetStmt s do return .forLoop p n (← ed.expr i) (← block b) (← blockOption o)
  | s@(.breakLoop _) => ed.meetStmt s (pure s)
  | s@(.continueLoop _) => ed.meetStmt s (pure s)
  | s@(.pass _) => ed.meetStmt s (pure s)
  | s@(.assert p t msg) => ed.meetStmt s do return .assert p (← ed.expr t) (← ed.exprOption msg)
  | s@(.global ..) => ed.meetStmt s (pure s)
  | s@(.exec p n e) => ed.meetStmt s do return .exec p n (← ed.expr e)
  | s@(.closure p c) => ed.meetStmt s do return .closure p (← closure c)

/-- Edits a block. -/
def block : Block → StateM (Progress σ ε) Block
  | b@⟨ss, p⟩ => ed.meet (.block b) b do return ⟨← stmts ss, p⟩

/-- Edits a closure block. -/
def closure : Closure → StateM (Progress σ ε) Closure
  | ⟨name, wrapper, body, isLazy, scope, span⟩ => do
    let name ← ed.renamed .closure name
    let c : Closure := ⟨name, wrapper, body, isLazy, scope, span⟩
    ed.meet (.closure c) c do
      return ⟨name, ← ed.exprOption wrapper, ← block body, isLazy, scope, span⟩

/-- Edits statements in a row. -/
def stmts : List Stmt → StateM (Progress σ ε) (List Stmt)
  | [] => return []
  | s :: ss => return (← stmt s) :: (← stmts ss)

/-- Edits conditions and their blocks in a row. -/
def branches : List (Expr × Block) → StateM (Progress σ ε) (List (Expr × Block))
  | [] => return []
  | (t, b) :: bs => return (← ed.expr t, ← block b) :: (← branches bs)

/-- Edits a block that may be missing. -/
def blockOption : Option Block → StateM (Progress σ ε) (Option Block)
  | none => return none
  | some b => return some (← block b)

end

/-- Edits a whole program. -/
def module (m : Module) : StateM (Progress σ ε) Module :=
  ed.meet (.module m) m do return { m with body := ← ed.block m.body }

/-- Edits a program from a state: the new program, the new state, and why the edit failed. -/
def run (m : Module) (state : σ) : Module × σ × Option ε :=
  let (m, p) := ed.module m { state }
  (m, p.state, p.failure)

end Editor

/-- A program with a running number behind the name of every closure block, and how many there are. -/
def Module.numberClosures (m : Module) : Module × Nat :=
  let ed : Editor Nat Empty :=
    { rename := fun
        | .closure, n => fun i => (n ++ toString i, i + 1)
        | _, n => pure n }
  let (m, count, _) := ed.run m 0
  (m, count)

end Offside
