import Offside.Scope.Basic

/-! # Finding the scopes of a program

One walk over a program gives the module and every closure block a scope, numbered in the order in
which they are entered, and records in each scope the names that are bound, declared global and read
there. A closure block's name and wrapper belong to the scope around it. -/

namespace Offside

/-! ### The names that an expression reads -/

namespace Expr

mutual

/-- The names that an expression reads and where, in visiting order. -/
def reads : Expr → List (String × Span)
  | .name s n => [(n, s)]
  | .constant .. => []
  | .attribute _ v _ => v.reads
  | .binary _ _ l r => l.reads ++ r.reads
  | .bool _ _ l r => l.reads ++ r.reads
  | .unary _ _ e => e.reads
  | .compare _ _ l r => l.reads ++ r.reads
  | .call _ f as => f.reads ++ readsList as
  | .conditional _ t b o => t.reads ++ (b.reads ++ o.reads)
  | .list _ es => readsList es
  | .tuple _ es => readsList es
  | .dict _ es => readsEntries es

/-- The names that expressions in a row read. -/
def readsList : List Expr → List (String × Span)
  | [] => []
  | e :: es => e.reads ++ readsList es

/-- The names that dictionary entries in a row read. -/
def readsEntries : List (Expr × Expr) → List (String × Span)
  | [] => []
  | (k, v) :: es => k.reads ++ (v.reads ++ readsEntries es)

end

end Expr

/-- The names that a target reads: those of the object whose attribute it is. -/
def Target.reads : Target → List (String × Span)
  | .name _ => []
  | .attribute v _ => v.reads

/-- The name that a target binds. -/
def Target.bound? : Target → Option String
  | .name n => some n
  | .attribute .. => none

/-! ### The walk -/

namespace Scopes

/-- Records that a scope binds a name. -/
def bind (id : ScopeId) (n : String) : StateM Scopes Unit :=
  StateT.modifyGet fun t => ((), t.modify id (·.bind n))

/-- Records that a scope binds the name of a target, if it has one. -/
def bindTarget (id : ScopeId) (t : Target) : StateM Scopes Unit :=
  match t.bound? with
  | some n => bind id n
  | none => pure ()

/-- Records that a scope declares names to be global. -/
def declare (id : ScopeId) (names : List String) : StateM Scopes Unit :=
  StateT.modifyGet fun t => ((), t.modify id fun s => names.foldl Scope.declare s)

/-- Records that a scope reads names. -/
def use (id : ScopeId) (reads : List (String × Span)) : StateM Scopes Unit :=
  StateT.modifyGet fun t => ((), t.modify id fun s => reads.foldl (fun s r => s.use r.1 r.2) s)

/-- Puts in a scope and answers its number. -/
def enter (name : String) (parent : ScopeId) : StateM Scopes ScopeId :=
  StateT.modifyGet fun t => (t.nextId, t.create name parent)

/-- The reads of an expression that may be missing. -/
def readsOption : Option Expr → List (String × Span)
  | none => []
  | some e => e.reads

mutual

/-- Records the names of a statement in the scope `id` and finds the scopes inside it. -/
def stmt (id : ScopeId) : Stmt → StateM Scopes Stmt
  | .expr s e => do
    use id e.reads
    return .expr s e
  | .assign s t e => do
    bindTarget id t
    use id (e.reads ++ t.reads)
    return .assign s t e
  | .augAssign s op t e => do
    bindTarget id t
    use id ((t.bound?.map (·, s)).toList ++ (e.reads ++ t.reads))
    return .augAssign s op t e
  | .ifElse s bs o => return .ifElse s (← branches id bs) (← blockOption id o)
  | .whileLoop s t b o => do
    use id t.reads
    return .whileLoop s t (← block id b) (← blockOption id o)
  | .forLoop s n i b o => do
    bind id n
    use id i.reads
    return .forLoop s n i (← block id b) (← blockOption id o)
  | .breakLoop s => return .breakLoop s
  | .continueLoop s => return .continueLoop s
  | .pass s => return .pass s
  | .assert s t msg => do
    use id (t.reads ++ readsOption msg)
    return .assert s t msg
  | .global s names => do
    declare id names
    return .global s names
  | .exec s n e => do
    use id ((n, s) :: e.reads)
    return .exec s n e
  | .closure s c => return .closure s (← closure id c)

/-- Records the names of a block in the scope `id` and finds the scopes inside it. -/
def block (id : ScopeId) : Block → StateM Scopes Block
  | ⟨ss, s⟩ => return ⟨← stmts id ss, s⟩

/-- Records a closure block's name and wrapper in the scope `id` and gives its body a scope. -/
def closure (id : ScopeId) : Closure → StateM Scopes Closure
  | ⟨name, wrapper, body, isLazy, _, span⟩ => do
    bind id name
    use id ((wrapper.map fun _ => (name, span)).toList ++ readsOption wrapper)
    let inner ← enter name id
    return ⟨name, wrapper, ← block inner body, isLazy, some inner, span⟩

/-- Walks statements in a row. -/
def stmts (id : ScopeId) : List Stmt → StateM Scopes (List Stmt)
  | [] => return []
  | s :: ss => return (← stmt id s) :: (← stmts id ss)

/-- Walks conditions and their blocks in a row. -/
def branches (id : ScopeId) : List (Expr × Block) → StateM Scopes (List (Expr × Block))
  | [] => return []
  | (t, b) :: bs => do
    use id t.reads
    return (t, ← block id b) :: (← branches id bs)

/-- Walks a block that may be missing. -/
def blockOption (id : ScopeId) : Option Block → StateM Scopes (Option Block)
  | none => return none
  | some b => return some (← block id b)

end

/-- The number of the module's scope. -/
def rootId : ScopeId := ⟨0⟩

/-- The name of the module's scope. -/
def rootName : String := "<module>"

/-- Finds the scopes of a program and marks them on it. -/
def collect (m : Module) : Module × Scopes :=
  let (body, table) := (block rootId m.body).run (createRoot {} rootName)
  ({ body, scope := some rootId }, table)

end Scopes

end Offside
