import Offside.Scope.Collect

/-! # How names are stored

Every name that a scope binds, declares or reads is stored in one of four ways. The scopes are gone
through from the innermost outwards; a scope that does not bind a name asks the scope around it, which
then knows that the name is needed inside. A name that no scope binds belongs to the module, and is
unbound there unless something binds it or it is built in. -/

namespace Offside

/-- A name that is read and bound nowhere, with the scope that asked for it. -/
structure Unbound where
  scope : ScopeId
  name : String
deriving DecidableEq, Repr, Inhabited

/-- The names bound in the namespace of the module: those bound by the module itself, and those that
    a closure block both binds and declares to be global. -/
def Scopes.moduleNames (t : Scopes) : List String :=
  t.scopes.flatMap fun s => if s.isNested then s.locals.filter (· ∈ s.globals) else s.locals

/-- What has been found out about the names of a program. -/
structure Findings where
  table : Scopes
  unbound : List Unbound := []
deriving DecidableEq, Repr, Inhabited

namespace Findings

/-- Changes a scope. -/
def edit (id : ScopeId) (f : Scope → Scope) : StateM Findings Unit :=
  StateT.modifyGet fun k => ((), { k with table := k.table.modify id f })

/-- Notes a name that nothing binds. -/
def report (origin : ScopeId) (n : String) : StateM Findings Unit :=
  StateT.modifyGet fun k => ((), { k with unbound := k.unbound ++ [⟨origin, n⟩] })

/-- Records how a scope stores a name. -/
def record (id : ScopeId) (n : String) (c : Storage) : StateM Findings Storage := do
  edit id (·.record n c)
  return c

/-- A name of the scope itself is a cell once a scope inside has asked for it. -/
def bindHere (id : ScopeId) (n : String) (asked : Bool) : StateM Findings Storage := do
  if asked then
    edit id (·.addCell n)
    return .cell
  else return .localName

/-- How the first scope of a path outwards stores a name. `known` are the names that are not to be
    reported when nothing binds them, `origin` is the scope that reads the name, and `asked` says
    whether a scope inside is asking. -/
def resolve (known : List String) (n : String) (origin : ScopeId) :
    (path : List ScopeId) → (asked : Bool) → StateM Findings Storage
  | [], _ => do
    if n ∉ known then report origin n
    return .global
  | id :: outer, asked => do
    let s := (← get).table.get id
    match s.class? n with
    | some .localName => if asked then record id n (← bindHere id n true) else return .localName
    | some c => return c
    | none =>
      if n ∈ s.globals then record id n .global
      else if n ∈ s.cells then record id n .cell
      else if n ∈ s.locals then record id n (← bindHere id n asked)
      else if outer.isEmpty then record id n (← resolve known n origin outer true)
      else
        edit id (·.addFree n)
        let _ ← record id n .free
        match ← resolve known n origin outer true with
        | .global =>
          edit id (·.dropFree n)
          record id n .global
        | _ => record id n .free

/-- Finds out how a scope stores all its names. -/
def scope (known : List String) (id : ScopeId) : StateM Findings Unit := do
  let s := (← get).table.get id
  (s.uses.map (·.1) ++ s.globals ++ s.locals).forM fun n => do
    let _ ← resolve known n id (id :: s.outer) false

/-- Finds out how all scopes store their names, the last first. -/
def run (known : List String) (t : Scopes) : Findings :=
  let ids := (List.range t.size).reverse.map ScopeId.mk
  ((ids.forM (scope known)).run { table := t }).2

end Findings

/-- A program with its scopes. -/
structure Resolved where
  module : Module
  table : Scopes
  unbound : List Unbound
deriving Repr, Inhabited

namespace Resolved

/-- The scope of the module. -/
def moduleScope (r : Resolved) : Scope := r.table.get (r.module.scope.getD Scopes.rootId)

/-- The scope of a closure block. -/
def scopeOf? (r : Resolved) (c : Closure) : Option Scope := c.scope.bind r.table.get?

end Resolved

/-- Finds the scopes of a program, given the names that are built in. -/
def resolve (builtins : List String) (m : Module) : Resolved :=
  let (module, table) := Scopes.collect m
  let k := Findings.run (table.moduleNames ++ builtins) table
  { module, table := k.table, unbound := k.unbound }

end Offside
