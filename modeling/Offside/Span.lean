/-! # Spans

Where a piece of source text stands. A span counts bytes from the start of the text and also
carries the line and column of its first character, so that a message can name the place without
the text at hand. Lines start at 1 and columns at 0. -/

namespace Offside

/-- A place between two characters, as a message shows it. -/
structure Position where
  line : Nat
  column : Nat
deriving DecidableEq, Repr, Inhabited

/-- Positions are shown as `line:column`. -/
def Position.text (p : Position) : String :=
  toString p.line ++ ":" ++ toString p.column

/-- A region of source text: `len` bytes from byte `offset` on, starting at `line` and `column`. -/
structure Span where
  offset : Nat := 0
  len : Nat := 0
  line : Nat := 0
  column : Nat := 0
deriving DecidableEq, Repr, Inhabited

namespace Span

/-- The line and column at which a span starts. -/
def start (s : Span) : Position := ⟨s.line, s.column⟩

/-- The first byte after a span. -/
def stop (s : Span) : Nat := s.offset + s.len

/-- A span without bytes. -/
def isEmpty (s : Span) : Bool := s.len == 0

/-- The empty span at the start of a span. -/
def before (s : Span) : Span := { s with len := 0 }

/-- The empty span directly after a span. The column moves on by the length, as it does over
    one-byte characters of a single line. -/
def after (s : Span) : Span :=
  { offset := s.stop, len := 0, line := s.line, column := s.column + s.len }

/-- The least span around two; its line and column are those of the one that starts first. -/
def join (s t : Span) : Span :=
  let first := if s.offset ≤ t.offset then s else t
  let offset := min s.offset t.offset
  { offset, len := max s.stop t.stop - offset, line := first.line, column := first.column }

/-- Spans are ordered by offset, then length, then line, then column. -/
instance : Ord Span where
  compare s t :=
    (compare s.offset t.offset).then <| (compare s.len t.len).then <|
      (compare s.line t.line).then (compare s.column t.column)

@[simp] theorem offset_after (s : Span) : s.after.offset = s.stop := rfl

theorem offset_join (s t : Span) : (s.join t).offset = min s.offset t.offset := rfl

/-- A joined span ends where the later of its two parts ends. -/
theorem stop_join (s t : Span) : (s.join t).stop = max s.stop t.stop := by
  simp only [join, stop]
  omega

end Span

end Offside
