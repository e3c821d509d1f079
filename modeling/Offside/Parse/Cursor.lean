import Offside.Parse.Error

/-! # The cursor

The parser looks at one token at a time. A cursor holds that token, what has not been looked at, the
span of the token taken last, and the productions that are being read. A fault in the stream poisons
the cursor: it is answered once, and whatever is asked afterwards fails. -/

namespace Offside

/-- What a cursor sees. -/
inductive Lookahead where
  /-- Nothing has been looked at. -/
  | unread
  | token (token : Token)
  /-- The stream is at its end. -/
  | ended
  /-- The stream had a fault. -/
  | poisoned
deriving DecidableEq, Repr, Inhabited

/-- A place in a token stream. -/
structure Cursor where
  input : List Item
  look : Lookahead := .unread
  /-- The span of the token taken last. -/
  last : Option Span := none
  /-- The names of the productions that are being read, outermost first. -/
  stack : List String := []
deriving Inhabited

/-- How many productions may be open at once. -/
def nestingLimit : Nat := 100

namespace Cursor

/-- How many items have not been taken. -/
def remaining (c : Cursor) : Nat :=
  c.input.length + match c.look with
    | .token _ => 1
    | _ => 0

/-- Whether the end of the stream has been seen. -/
def atEnd (c : Cursor) : Bool := c.look == .ended

/-- An error at a place. -/
def errorAt (c : Cursor) (fault : SyntaxFault) (location : Option Span) : SyntaxError :=
  { fault, location, stack := some c.stack }

/-- An error at the token the cursor sees, or behind the last one when it sees none. -/
def error (c : Cursor) (fault : SyntaxFault) : SyntaxError :=
  c.errorAt fault <| match c.look with
    | .token t => some t.span
    | _ => c.last.map Span.after

/-- The span from `start` to the end of the token taken last. -/
def spanFrom (c : Cursor) (start : Span) : Span :=
  match c.last with
  | some s => start.join s
  | none => start

end Cursor

/-- A reader of tokens: it moves a cursor and answers a value or an error. An error leaves the cursor
    where it arose. -/
abbrev Parse (α : Type) := EStateM SyntaxError Cursor α

namespace Parse

/-- Looks at the next item. -/
def advance : Parse Unit := fun c =>
  match c.input with
  | [] => .ok () { c with look := .ended }
  | .ok t :: rest => .ok () { c with input := rest, look := .token t }
  | .error f :: rest =>
    let c := { c with input := rest, look := .poisoned }
    let place : Span :=
      { offset := (c.last.map Span.stop).getD 0, line := f.position.line, column := f.position.column }
    .error (c.errorAt (.fault f) (some place)) c

/-- Looks at the first item if nothing has been looked at. -/
def begin : Parse Unit := fun c =>
  match c.look with
  | .unread => advance c
  | _ => .ok () c

/-- The token the cursor sees, none at the end. -/
def peek : Parse (Option Token) := do
  begin
  fun c => match c.look with
    | .token t => .ok (some t) c
    | .poisoned => .error (c.error .poisoned) c
    | _ => .ok none c

/-- Takes the token the cursor sees, none at the end. A fault right behind it loses the token. -/
def takeNext : Parse (Option Token) := do
  match ← peek with
  | none => return none
  | some t =>
    modify fun c => { c with last := some t.span }
    advance
    return some t

/-- Takes the token the cursor sees if it is as wanted. -/
def takeIf (wanted : Token → Bool) : Parse (Option Token) := do
  match ← peek with
  | none => return none
  | some t => if wanted t then takeNext else return none

/-- Takes the token the cursor sees if it has a meaning here, and answers that meaning. -/
def acceptMap {β : Type} (meaning : Token → Option β) : Parse (Option β) := do
  match ← peek with
  | none => return none
  | some t =>
    match meaning t with
    | none => return none
    | some b =>
      let _ ← takeNext
      return some b

/-- Takes a token of a kind if the cursor sees one. -/
def accept (kind : Kind) : Parse (Option Token) := takeIf (·.kind.same kind)

/-- Whether the cursor sees a token of a kind. -/
def sees (kind : Kind) : Parse Bool := return (← peek).any (·.kind.same kind)

/-- The error for what the cursor sees: `fault` for a token, and another at the end. A stream that
    cannot be looked at has an error of its own. -/
def complaint (fault : Token → SyntaxFault) : Parse SyntaxError := fun c =>
  match peek c with
  | .error e c => .ok e c
  | .ok none c => .ok (c.error .unexpectedEnd) c
  | .ok (some t) c =>
    .ok (c.error (if t.kind = .endMarker then .unexpectedEnd else fault t)) c

/-- The error for a token that is none of those named. -/
def expected (names : List String) : Parse SyntaxError :=
  complaint fun t => .expectedToken names (some t)

/-- The error for a token that nothing here begins or goes on with. -/
def unexpected : Parse SyntaxError := complaint .unexpectedToken

/-- Fails because none of the named tokens comes next. -/
def failWanting {α : Type} (names : List String) : Parse α := do throw (← expected names)

/-- Fails because of the token that comes next. -/
def failUnexpected {α : Type} : Parse α := do throw (← unexpected)

/-- Takes a token of a kind, which an error calls by `description`. -/
def require (kind : Kind) (description : String) : Parse Token := do
  match ← accept kind with
  | some t => return t
  | none => failWanting [description]

/-- Takes a name, with its place. -/
def requireName : Parse (String × Span) := do
  let name? := fun (t : Token) => match t.kind with
    | .name n => some (n, t.span)
    | _ => none
  match ← acceptMap name? with
  | some r => return r
  | none => failWanting ["name"]

/-- The span from `start` to the end of the token taken last. -/
def spanFrom (start : Span) : Parse Span := return (← get).spanFrom start

/-- Reads a production under a name. While it is read, and for good if it fails, the name is among
    the open productions; too many of them are an error. -/
def within {α : Type} (name : String) (p : Parse α) : Parse α := fun c =>
  if nestingLimit ≤ c.stack.length then .error (c.error (.tooDeeplyNested nestingLimit)) c
  else match p { c with stack := c.stack ++ [name] } with
    | .ok a c => .ok a { c with stack := c.stack.dropLast }
    | .error e c => .error e c

/-- Repeats a step, at most `bound` times, until it is done. -/
def repeatUpTo {α : Type} (step : α → Parse (ForInStep α)) : (bound : Nat) → α → Parse α
  | 0, a => return a
  | bound + 1, a => do
    match ← step a with
    | .done b => return b
    | .yield b => repeatUpTo step bound b

/-- Repeats a step until it is done. A step that goes on has taken a token, so the tokens that remain
    bound how often it can. -/
def loop {α : Type} (step : α → Parse (ForInStep α)) (a : α) : Parse α := fun c =>
  repeatUpTo step (c.remaining + 1) a c

end Parse

end Offside
