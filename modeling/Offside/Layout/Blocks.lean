import Offside.Layout.Mark
import Offside.Token.Lexer

/-! # Blocks from indentation

The layout pass turns marked tokens into the stream that the grammar is about: spaces and blank lines
are gone, an indented block stands between a block start and a block end, and every line ends in a
line break. It answers one item at a time and looks at no more of its input than that takes. -/

namespace Offside

/-- The indentation widths of the open blocks, innermost first. The text itself stands around them
    all and has the width zero. -/
structure Levels where
  widths : List Nat := []
deriving DecidableEq, Repr, Inhabited

namespace Levels

/-- The width of the innermost block, or of the text when no block is open. -/
def top (l : Levels) : Nat := l.widths.headD 0

/-- All widths, outermost first. -/
def toList (l : Levels) : List Nat := 0 :: l.widths.reverse

/-- Opens a block of a width. -/
def push (l : Levels) (width : Nat) : Levels := ⟨width :: l.widths⟩

/-- The levels with the blocks inside the one of the given width closed, and how many those are. -/
def closeTo? (l : Levels) (width : Nat) : Option (Nat × Levels) :=
  let inner := l.widths.takeWhile (· != width)
  let outer := l.widths.drop inner.length
  if outer = [] ∧ width ≠ 0 then none else some (inner.length, ⟨outer⟩)

end Levels

/-- A token kept back until the block ends before it have been answered. -/
structure Held where
  ends : Nat
  token : Token
deriving DecidableEq, Repr, Inhabited

/-- The layout pass in the middle of its input. -/
structure Layout where
  input : List Item
  levels : Levels := {}
  /-- The width of the spaces at the start of the current line. -/
  depth : Nat := 0
  /-- Whether the last token of the input was spaces. -/
  afterSpaces : Bool := false
  /-- Whether a line has been begun and not ended in the answered tokens. -/
  lineOpen : Bool := false
  held : Option Held := none
  /-- Whether nothing of the input will be looked at any more. -/
  finished : Bool := false
deriving Inhabited

namespace Layout

/-- A token without characters in front of another one. -/
def synthetic (kind : Kind) (t : Token) : Token := { kind, span := t.span.before }

/-- Answers a fault as the last item. -/
def fail (s : Layout) (fault : Fault) : Item × Layout :=
  (.error fault, { s with finished := true, held := none })

/-- Answers a fault of indentation at a token. -/
def failAt (s : Layout) (fault : IndentFault) (t : Token) : Item × Layout :=
  s.fail (.indent fault t.span.start)

/-- Answers a token. -/
def forward (s : Layout) (t : Token) : Item × Layout :=
  (.ok t, match t.kind with
    | .newline => { s with lineOpen := false }
    | .blockStart | .blockEnd | .endMarker => s
    | _ => { s with lineOpen := true })

/-- Answers the first of `ends` block ends and then a token, keeping back the rest. -/
def close (s : Layout) (t : Token) : (ends : Nat) → Item × Layout
  | 0 => forward { s with held := none } t
  | ends + 1 => forward { s with held := some ⟨ends, t⟩ } (synthetic .blockEnd t)

/-- Answers the end of the input: a line break if a line is open, an end for every open block, and the
    end marker. -/
def finish (s : Layout) (marker : Token) : Item × Layout :=
  if marker.mustIndent then s.failAt .expectedIndentedBlock marker
  else
    let ends := s.levels.widths.length
    let s := { s with finished := true, levels := {} }
    if s.lineOpen then forward { s with held := some ⟨ends, marker⟩ } (synthetic .newline marker)
    else s.close marker ends

/-- Answers a token that belongs to a line, with the block structure that its indentation means. -/
def place (s : Layout) (t : Token) : Item × Layout :=
  let top := s.levels.top
  if t.mustIndent then
    if s.depth ≤ top then s.failAt .expectedIndentedBlock t
    else
      forward { s with levels := s.levels.push s.depth, held := some ⟨0, t⟩ } (synthetic .blockStart t)
  else if !t.atLineStart || s.depth == top then s.forward t
  else if top < s.depth then s.failAt .unexpectedIndent t
  else match s.levels.closeTo? s.depth with
    | none => s.failAt .inconsistentIndentation t
    | some (ends, levels) => close { s with levels } t ends

/-- The end marker of an input that has none. -/
def missingMarker : Token := { kind := .endMarker, span := {} }

/-- Reads the input up to the first token that has an answer. -/
def pull (s : Layout) : (input : List Item) → Item × Layout
  | [] => finish { s with input := [] } missingMarker
  | .error fault :: rest => fail { s with input := rest } fault
  | .ok t :: rest =>
    match t.kind with
    | .whitespace width => pull { s with depth := width, afterSpaces := true } rest
    | .newline =>
      if s.afterSpaces || t.atLineStart then pull { s with depth := 0, afterSpaces := false } rest
      else forward { s with input := rest, depth := 0, afterSpaces := false } t
    | .endMarker => finish { s with input := rest } t
    | _ => place { s with input := rest, afterSpaces := false } t

/-- The next item, none after the last one. -/
def next? (s : Layout) : Option (Item × Layout) :=
  match s.held with
  | some h => some (s.close h.token h.ends)
  | none => if s.finished then none else some (s.pull s.input)

/-- The next `fuel` items. -/
def take : (fuel : Nat) → Layout → List Item
  | 0, _ => []
  | fuel + 1, s =>
    match s.next? with
    | none => []
    | some (item, s) => item :: take fuel s

/-- All items. A token of the input is answered at most once and opens at most one block, which is
    closed once; the last line break and the end marker may come on top. -/
def items (s : Layout) : List Item := s.take (3 * s.input.length + 2)

end Layout

/-- The items of marked tokens, with block structure. -/
def layOut (items : List Item) : List Item := Layout.items { input := items }

/-- The token stream of a text, with block structure. -/
def tokenStream (dialect : Dialect) (source : String) : List Item :=
  layOut (markLines (lex dialect source))

end Offside
