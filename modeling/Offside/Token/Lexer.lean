import Offside.Dialect
import Offside.Token.Fault
import Offside.Token.Lexeme

/-! # The lexer

The lexer walks over a text and answers one item after the other: tokens, and at the end either the
end marker or the fault that stopped it. Line breaks and the spaces before a line's first token are
tokens only while no bracket is open. -/

namespace Offside

/-- How many brackets of each shape are open. A closing bracket without an opening one changes
    nothing. -/
structure Brackets where
  round : Nat := 0
  square : Nat := 0
  curly : Nat := 0
deriving DecidableEq, Repr, Inhabited

namespace Brackets

/-- Whether any bracket is open. -/
def nested (b : Brackets) : Bool := 0 < b.round || 0 < b.square || 0 < b.curly

/-- The open brackets after a token. -/
def track (b : Brackets) : Kind → Brackets
  | .symbol .leftParen => { b with round := b.round + 1 }
  | .symbol .rightParen => { b with round := b.round - 1 }
  | .symbol .leftBracket => { b with square := b.square + 1 }
  | .symbol .rightBracket => { b with square := b.square - 1 }
  | .symbol .leftCurly => { b with curly := b.curly + 1 }
  | .symbol .rightCurly => { b with curly := b.curly - 1 }
  | _ => b

end Brackets

/-- The number of bytes of characters in a source text. -/
def byteSize : List Char → Nat
  | [] => 0
  | c :: cs => c.utf8Size + byteSize cs

theorem byteSize_append (cs ds : List Char) : byteSize (cs ++ ds) = byteSize cs + byteSize ds := by
  induction cs with
  | nil => simp [byteSize]
  | cons c cs ih => simp [byteSize, ih, Nat.add_assoc]

/-- The least number that is too large for an integer. -/
def integerLimit : Nat := Nat.pow 2 63

/-- The position behind characters that start at a position. -/
def Position.advance (p : Position) (cs : List Char) : Position :=
  cs.foldl (fun p c => if c = '\n' then ⟨p.line + 1, 0⟩ else ⟨p.line, p.column + 1⟩) p

theorem Position.advance_append (p : Position) (cs ds : List Char) :
    p.advance (cs ++ ds) = (p.advance cs).advance ds := by
  simp [advance]

/-- A lexer in the middle of a text. -/
structure Lexer where
  dialect : Dialect
  /-- The characters that have not been read. -/
  rest : List Char
  /-- The number of bytes that have been read. -/
  offset : Nat := 0
  position : Position := ⟨1, 0⟩
  brackets : Brackets := {}
  /-- Whether nothing of the current line has been read. -/
  lineStart : Bool := true
  /-- Whether the last item has been answered. -/
  finished : Bool := false
deriving DecidableEq, Repr, Inhabited

namespace Lexer

/-- A lexer at the start of a text. -/
def new (dialect : Dialect) (source : String) : Lexer := { dialect, rest := source.toList }

/-- The lexer behind the next `n` characters. -/
def advance (l : Lexer) (n : Nat) : Lexer :=
  let taken := l.rest.take n
  { l with
    rest := l.rest.drop n
    offset := l.offset + byteSize taken
    position := l.position.advance taken }

/-- The span of the next `n` characters. -/
def spanOf (l : Lexer) (n : Nat) : Span :=
  { offset := l.offset, len := byteSize (l.rest.take n), line := l.position.line,
    column := l.position.column }

/-- The kind that a lexeme stands for: a word may be reserved, and an integer has 63 bits. -/
def kindOf (l : Lexer) : Lexeme → Except Fault Kind
  | .word w => .ok (match l.dialect.keyword? w with
    | some k => .keyword k
    | none => .name w)
  | .integer ds =>
    let value := digitsValue 0 ds
    if value < integerLimit then .ok (.integer value)
    else .error (.lex (.invalidLiteral (String.ofList ds)) l.position)
  | .float d => .ok (.float (.ofDecimal d))
  | .string s => .ok (.string s)
  | .symbol s => .ok (.symbol s)

/-- Answers a fault as the last item. -/
def fail (l : Lexer) (fault : Fault) : Item × Lexer := (.error fault, { l with finished := true })

/-- Reads a lexeme at the start of the unread characters, of which `c` is the first. -/
def lexeme (l : Lexer) (c : Char) : Item × Lexer :=
  match Lexeme.scan? l.rest with
  | none => l.fail (.lex (.illegalChar c) l.position)
  | some (lexeme, n) =>
    match l.kindOf lexeme with
    | .error fault => l.fail fault
    | .ok kind =>
      (.ok { kind, span := l.spanOf n },
        { l.advance n with brackets := l.brackets.track kind, lineStart := false })

/-- The spaces at the start of a line, as a token, unless they stand before a comment. -/
def indentation? (l : Lexer) : Option (Item × Lexer) :=
  let width := (spaceRun l.rest).length
  if l.lineStart ∧ l.brackets.nested = false ∧ 0 < width ∧
      (l.rest.drop width).head? ≠ some '#' then
    some (.ok { kind := .whitespace width, span := l.spanOf width },
      { l.advance width with lineStart := false })
  else none

/-- The lexer behind the gap before the next token. -/
def skipGap (l : Lexer) : Lexer := l.advance (gapRun l.brackets.nested false l.rest).length

/-- The item that starts with the first unread character. -/
def significant (l : Lexer) : Item × Lexer :=
  match l.rest with
  | [] => (.ok { kind := .endMarker, span := l.spanOf 0 }, { l with finished := true })
  | c :: _ =>
    let breaks := (lineBreakRun l.rest).length
    if 0 < breaks then
      (.ok { kind := .newline, span := l.spanOf breaks }, { l.advance breaks with lineStart := true })
    else l.lexeme c

/-- The next item, none after the last one. -/
def next? (l : Lexer) : Option (Item × Lexer) :=
  if l.finished then none
  else l.indentation? <|> some (significant l.skipGap)

/-- The next `fuel` items. -/
def take : (fuel : Nat) → Lexer → List Item
  | 0, _ => []
  | fuel + 1, l =>
    match l.next? with
    | none => []
    | some (item, l) => item :: take fuel l

/-- All items of a text. Every item but the last takes a character, so there is at most one more item
    than there are characters. -/
def items (l : Lexer) : List Item := l.take (l.rest.length + 1)

end Lexer

/-- The tokens of a text, as the lexer answers them. -/
def lex (dialect : Dialect) (source : String) : List Item := (Lexer.new dialect source).items

end Offside
