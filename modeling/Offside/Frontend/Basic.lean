import Offside.Frontend.Error
import Offside.Parse.Stmt
import Offside.Scope.Classify
import Offside.Text.Blank

/-! # The front end

The front end takes source text to a program with its scopes, one unit at a time, and hands it to a
backend. It is set up once: with a dialect, with the names that are built in, and with whether a name
that nothing binds is an error. -/

namespace Offside

/-- The settings of a front end before they have been checked. -/
structure Settings where
  dialect : Dialect := default
  /-- Whether a name that nothing binds is an error. -/
  strict : Bool := false
  /-- The names that are built in; a name may be given more than once. -/
  builtins : List String := []
  sourceName : String := "<string>"
deriving DecidableEq, Repr, Inhabited

/-- A name that cannot be built in. -/
structure InvalidBuiltin where
  name : String
deriving DecidableEq, Repr, Inhabited

def InvalidBuiltin.message (e : InvalidBuiltin) : String :=
  Text.quote e.name ++ " is not a valid builtin name"

/-- Whether a name can be built in: it has characters and none of them is blank. -/
def isBuiltinName (n : String) : Bool := !n.isEmpty && n.toList.all (!Text.isBlank ·)

/-- A front end: settings that have been checked. -/
structure Frontend where
  dialect : Dialect
  strict : Bool
  builtins : List String
  sourceName : String
deriving DecidableEq, Repr, Inhabited

/-- Checks settings; repeated names are kept once, in their first place. -/
def Settings.build (s : Settings) : Except InvalidBuiltin Frontend :=
  match s.builtins.find? (!isBuiltinName ·) with
  | some n => .error ⟨n⟩
  | none =>
    .ok { dialect := s.dialect, strict := s.strict, builtins := s.builtins.eraseDups,
          sourceName := s.sourceName }

/-- Turns programs with their scopes into something else, or refuses them; it may remember what it
    has seen. -/
structure Backend (σ α : Type) where
  emit : Resolved → StateM σ (Except String α)

namespace Frontend

/-- Reads a program. -/
def parse (f : Frontend) (source : String) : Except CompileError Module :=
  match Offside.parse f.dialect source with
  | .ok m => .ok m
  | .error e => .error { fault := .grammar e }

/-- The error for a name that nothing binds, where it is first read. -/
def unresolved (r : Resolved) (u : Unbound) : CompileError :=
  let scope := r.table.get u.scope
  { fault := .unresolvedName u.name scope.name, ownLocation := scope.useSite? u.name }

/-- Reads a program and finds its scopes. -/
def compile (f : Frontend) (source : String) : Except CompileError Resolved :=
  match f.parse source with
  | .error e => .error e
  | .ok m =>
    let r := resolve f.builtins m
    match r.unbound with
    | u :: _ => if f.strict then .error (unresolved r u) else .ok r
    | [] => .ok r

/-- Reads a program, finds its scopes and hands it to a backend. -/
def compileInto {σ α : Type} (f : Frontend) (b : Backend σ α) (source : String) :
    StateM σ (Except CompileError α) := do
  match f.compile source with
  | .error e => return .error e
  | .ok r =>
    match ← b.emit r with
    | .ok a => return .ok a
    | .error text => return .error { fault := .backend text }

end Frontend

/-- A backend that counts the programs it sees and lists the scopes of each, one on a line; it refuses
    a program without statements. -/
def Backend.listing : Backend Nat String where
  emit r := do
    modify (· + 1)
    if r.module.body.stmts.isEmpty then return .error "module has no statements"
    return .ok (String.join (r.table.scopes.map fun s => s.text ++ "\n"))

end Offside
