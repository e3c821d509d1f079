import Offside.Tree.Stmt

/-! # Scopes

A scope is the namespace of a module or of a closure block. It lists the names that are bound, declared
global and read in it, and says of each name how it is stored. All lists keep the order in which names
were first put in. -/

namespace Offside

/-- How a name is stored by a scope that refers to it. -/
inductive Storage where
  /-- Bound here and used nowhere deeper. -/
  | localName
  /-- In the namespace of the module. -/
  | global
  /-- Bound by a scope further out. -/
  | free
  /-- Bound here and used by a scope inside. -/
  | cell
deriving DecidableEq, Repr, Inhabited

def Storage.text : Storage → String
  | .localName => "LOCAL"
  | .global => "GLOBAL"
  | .free => "FREE"
  | .cell => "CELL"

/-- Puts a name at the end of a list that does not have it. -/
def addName (names : List String) (n : String) : List String :=
  if n ∈ names then names else names ++ [n]

theorem mem_addName {names : List String} {n m : String} :
    m ∈ addName names n ↔ m ∈ names ∨ m = n := by
  unfold addName
  split <;> simp_all

/-- Puts a name with a value at the end of a list that does not have the name. -/
def addFirst {α : Type} (entries : List (String × α)) (n : String) (a : α) : List (String × α) :=
  if n ∈ entries.map (·.1) then entries else entries ++ [(n, a)]

/-- Gives a name a value, in its place if the list has the name and at the end otherwise. -/
def putName {α : Type} (entries : List (String × α)) (n : String) (a : α) : List (String × α) :=
  if n ∈ entries.map (·.1) then entries.map fun e => if e.1 = n then (n, a) else e
  else entries ++ [(n, a)]

/-- The namespace of a module or of a closure block. -/
structure Scope where
  id : ScopeId
  name : String
  /-- The scopes around this one, innermost first. -/
  outer : List ScopeId := []
  /-- The scopes directly inside, in order. -/
  children : List ScopeId := []
  /-- The names bound here. -/
  locals : List String := []
  /-- The names declared to be global here. -/
  globals : List String := []
  /-- The names read here, with the place of the first reading. -/
  uses : List (String × Span) := []
  /-- The names of scopes further out that this one needs. -/
  frees : List String := []
  /-- The names bound here that a scope inside needs. -/
  cells : List String := []
  classes : List (String × Storage) := []
deriving DecidableEq, Repr, Inhabited

namespace Scope

/-- The scope directly around this one. -/
def parent (s : Scope) : Option ScopeId := s.outer.head?

/-- Whether this is the scope of a closure block. -/
def isNested (s : Scope) : Bool := !s.outer.isEmpty

/-- How a name is stored, if the scope refers to it. -/
def class? (s : Scope) (n : String) : Option Storage := s.classes.lookup n

/-- Where a name is first read, if it is. -/
def useSite? (s : Scope) (n : String) : Option Span := s.uses.lookup n

/-- A scope with its names on one line. -/
def text (s : Scope) : String :=
  s.name ++ " (" ++ s.id.text ++ "): " ++
    ", ".intercalate (s.classes.map fun (n, c) => n ++ "=" ++ c.text)

def bind (s : Scope) (n : String) : Scope := { s with locals := addName s.locals n }

def declare (s : Scope) (n : String) : Scope := { s with globals := addName s.globals n }

def use (s : Scope) (n : String) (site : Span) : Scope := { s with uses := addFirst s.uses n site }

def addFree (s : Scope) (n : String) : Scope := { s with frees := addName s.frees n }

def dropFree (s : Scope) (n : String) : Scope := { s with frees := s.frees.erase n }

def addCell (s : Scope) (n : String) : Scope := { s with cells := addName s.cells n }

def record (s : Scope) (n : String) (c : Storage) : Scope :=
  { s with classes := putName s.classes n c }

end Scope

/-- The scopes of a module by number; the first is the module's own. -/
structure Scopes where
  scopes : List Scope := []
deriving DecidableEq, Repr, Inhabited

namespace Scopes

def size (t : Scopes) : Nat := t.scopes.length

def get? (t : Scopes) (id : ScopeId) : Option Scope := t.scopes[id.index]?

/-- The scope with a number; one without names when there is none. -/
def get (t : Scopes) (id : ScopeId) : Scope := (t.get? id).getD { id, name := "" }

/-- Changes the scope with a number. -/
def modify (t : Scopes) (id : ScopeId) (f : Scope → Scope) : Scopes :=
  ⟨t.scopes.modify id.index f⟩

/-- The number of the next scope. -/
def nextId (t : Scopes) : ScopeId := ⟨t.size⟩

/-- Puts in a scope that is inside no other. -/
def createRoot (t : Scopes) (name : String) : Scopes :=
  ⟨t.scopes ++ [{ id := t.nextId, name }]⟩

/-- Puts in a scope that is directly inside another. -/
def create (t : Scopes) (name : String) (parent : ScopeId) : Scopes :=
  let scope : Scope := { id := t.nextId, name, outer := parent :: (t.get parent).outer }
  let t' := t.modify parent fun s => { s with children := s.children ++ [t.nextId] }
  ⟨t'.scopes ++ [scope]⟩

end Scopes

end Offside
