import Offside.Tree.Edit

/-! # Tracing a visit

A trace is the log of the nodes that a visit or an edit has met. It can be told not to go into nodes of
some sorts and to fail once it has a number of entries. -/

namespace Offside

/-- What a trace notes about a node. -/
inductive Detail where
  | isEmpty (value : Bool)
  | size (count : Nat)
  | line (line : Nat)
  | name (name : String)
  | attribute (object attr : String)
  | text (line : Nat) (text : String)
deriving DecidableEq, Repr, Inhabited

/-- An entry of a trace. -/
structure Entry where
  label : String
  detail : Detail
deriving DecidableEq, Repr, Inhabited

/-- The entry of a node. -/
def Node.entry : Node → Entry
  | .module m => ⟨"Module", .isEmpty m.body.stmts.isEmpty⟩
  | .block b => ⟨"Block", .size b.stmts.length⟩
  | .stmt s => ⟨s.label, .line s.span.line⟩
  | .closure c => ⟨"Closure", .name c.name⟩
  | .target (.name n) => ⟨"Target", .name n⟩
  | .target (.attribute v a) => ⟨"Target", .attribute v.text a⟩
  | .expr e => ⟨e.label, .text e.span.line e.text⟩

/-- How to trace: the sorts of nodes not to go into, and the number of entries to fail at. -/
structure Tracing where
  skip : List String := []
  stop : Option Nat := none
deriving DecidableEq, Repr, Inhabited

namespace Tracing

/-- Notes a node, or fails if there are entries enough. -/
def note (t : Tracing) (n : Node) : StateM (List Entry) (Except String Bool) := fun log =>
  let entry := n.entry
  if t.stop.any (· ≤ log.length) then (.error ("stopped at " ++ entry.label), log)
  else (.ok (!t.skip.contains entry.label), log ++ [entry])

/-- The trace of a visit and why it failed. -/
def visit (t : Tracing) (m : Module) : List Entry × Option String :=
  let enter : Node → EStateM String (List Entry) Bool := fun n log =>
    match t.note n log with
    | (.ok into, log) => .ok into log
    | (.error e, log) => .error e log
  match m.visit enter [] with
  | .ok _ log => (log, none)
  | .error e log => (log, some e)

/-- The trace of an edit that renames by the first match of a list, with the edited program and why
    it failed. -/
def edit (t : Tracing) (renames : List (String × String)) (m : Module) :
    Module × List Entry × Option String :=
  let ed : Editor (List Entry) String :=
    { rename := fun _ n => pure ((renames.lookup n).getD n)
      enter := t.note }
  ed.run m []

end Tracing

end Offside
