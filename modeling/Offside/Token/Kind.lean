import Offside.Decimal.Style
import Offside.Text.Quoted
import Offside.Token.Keyword
import Offside.Token.Symbol
import Offside.Span

/-! # Tokens

A token is a kind, which says what it is, and a span, which says where it stands. Two further marks
are set once the tokens of a text have been read as lines: whether a token comes first on its line
and whether it has to open an indented block. -/

namespace Offside

/-- What a token is. -/
inductive Kind where
  | name (text : String)
  | integer (value : Int)
  | float (value : Binary64)
  | string (text : String)
  | keyword (word : Keyword)
  | symbol (symbol : Symbol)
  /-- One or more line breaks. -/
  | newline
  /-- The spaces before the first token of a line. -/
  | whitespace (width : Nat)
  /-- Where an indented block opens. -/
  | blockStart
  /-- Where an indented block closes. -/
  | blockEnd
  /-- The end of the text. -/
  | endMarker
deriving DecidableEq, Repr, Inhabited

namespace Kind

/-- Whether two kinds are equal, floats by their number and all else by what it holds. -/
def same : Kind → Kind → Bool
  | .float x, .float y => x.numEq y
  | k, l => k == l

/-- The kinds that carry no value, in order. -/
def valueless : List Kind :=
  Keyword.all.map .keyword ++ Symbol.all.map .symbol ++ [.newline, .blockStart, .blockEnd, .endMarker]

/-- The name of a kind, apart from what it carries. -/
def label : Kind → String
  | .name _ => "Name"
  | .integer _ => "Integer"
  | .float _ => "Float"
  | .string _ => "String"
  | .keyword k => k.label
  | .symbol s => s.label
  | .newline => "Newline"
  | .whitespace _ => "Whitespace"
  | .blockStart => "BlockStart"
  | .blockEnd => "BlockEnd"
  | .endMarker => "EndMarker"

/-- The one spelling that a kind has in every dialect, if there is one. -/
def spelling? : Kind → Option String
  | .symbol s => some s.spelling
  | _ => none

/-- Whether a kind combines an operation with an assignment. -/
def isAugmented : Kind → Bool
  | .symbol s => s.isAugmented
  | _ => false

/-- Whether a kind stands for block structure and for no characters of the text. -/
def isSynthetic : Kind → Bool
  | .blockStart | .blockEnd => true
  | _ => false

/-- How a message calls a kind. -/
def text : Kind → String
  | .name n => "name '" ++ n ++ "'"
  | .integer i => "integer " ++ toString i
  | .float x => "float " ++ x.text Decimal.plain
  | .string s => "string " ++ Text.quote s
  | .keyword k => "keyword " ++ k.label.toLower
  | .symbol s => "'" ++ s.spelling ++ "'"
  | .newline => "newline"
  | .whitespace w => "indentation of " ++ toString w
  | .blockStart => "block start"
  | .blockEnd => "block end"
  | .endMarker => "end of input"

/-- A kind with the value it carries, written as its name applied to the value. -/
def termText (k : Kind) : String :=
  let applied := fun value => k.label ++ "(" ++ value ++ ")"
  match k with
  | .name n => applied (Text.quote n)
  | .integer i => applied (toString i)
  | .float x => applied (x.text Decimal.literal)
  | .string s => applied (Text.quote s)
  | .whitespace w => applied (toString w)
  | _ => k.label

end Kind

/-- A piece of a source text: what it is and where it stands. -/
structure Token where
  kind : Kind
  span : Span
  /-- Whether the token comes first on its line. -/
  atLineStart : Bool := false
  /-- Whether the token has to open an indented block. -/
  mustIndent : Bool := false
deriving DecidableEq, Repr, Inhabited

/-- A token in a message: its kind and its position. -/
def Token.text (t : Token) : String := t.kind.text ++ " at " ++ t.span.start.text

end Offside
