import Offside.Token.Fault

/-! # Marking the starts of lines and blocks

A colon may be followed by more of its line or by an indented block on the lines after it. One pass
over the tokens marks each token that comes first on its line and each token that has to open a
block: the first one behind a colon and at least one line break. -/

namespace Offside

/-- How far the tokens so far have come towards an indented block. -/
inductive Expectation where
  /-- The last token of a statement's text was no colon. -/
  | nothing
  /-- A colon was the last token, on the current line. -/
  | maybeBlock
  /-- A colon was the last token, on a line that has ended. -/
  | block
deriving DecidableEq, Repr, Inhabited

/-- What the pass remembers of the tokens before. -/
structure Marking where
  expectation : Expectation := .nothing
  atLineStart : Bool := true
deriving DecidableEq, Repr, Inhabited

namespace Marking

/-- Marks a token. -/
def mark (g : Marking) (t : Token) : Token :=
  let marked := { t with atLineStart := g.atLineStart }
  match t.kind with
  | .symbol .colon | .newline | .whitespace _ => marked
  | _ => { marked with mustIndent := g.expectation = .block }

/-- What is remembered after a token of a kind. -/
def after (g : Marking) : Kind → Marking
  | .symbol .colon => ⟨.maybeBlock, false⟩
  | .newline => ⟨if g.expectation = .maybeBlock then .block else g.expectation, true⟩
  | .whitespace _ => { g with atLineStart := true }
  | _ => ⟨.nothing, false⟩

/-- Marks all tokens; faults stay as they are and are not remembered. -/
def markAll (g : Marking) : List Item → List Item
  | [] => []
  | .error fault :: items => .error fault :: markAll g items
  | .ok t :: items => .ok (g.mark t) :: markAll (g.after t.kind) items

end Marking

/-- Marks the tokens of a text. -/
def markLines (items : List Item) : List Item := Marking.markAll {} items

end Offside
