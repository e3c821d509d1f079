import Offside.Decimal.Binary64
import Offside.Token.Symbol

/-! # Lexemes

The shapes that a text is cut into: words, numbers, quoted strings and symbols. Each recognizer looks
at the start of a list of characters and answers how many of them it takes, so what it took is always
a beginning of the text. Words and numbers take all they can; symbols are looked for in a table, from the
top. -/

namespace Offside

/-! ### Runs of characters -/

/-- The letters of ASCII and the underscore start a word. -/
def isWordStart (c : Char) : Bool := c.isAlpha || c == '_'

/-- A word goes on with letters, digits and underscores. -/
def isWordChar (c : Char) : Bool := c.isAlphanum || c == '_'

/-- The word at the start of a text, empty when there is none. -/
def wordRun : List Char → List Char
  | [] => []
  | c :: rest => if isWordStart c then c :: rest.takeWhile isWordChar else []

/-- The line breaks at the start of a text, `\n` or `\r\n` each, empty when there are none. -/
def lineBreakRun : List Char → List Char
  | '\n' :: rest => '\n' :: lineBreakRun rest
  | '\r' :: '\n' :: rest => '\r' :: '\n' :: lineBreakRun rest
  | _ => []

/-- The spaces at the start of a text. -/
def spaceRun (cs : List Char) : List Char := cs.takeWhile (· == ' ')

/-- The characters between two tokens: spaces and comments, and inside brackets also line breaks. A
    comment goes from `#` up to a line break character; `comment` says whether one is being read. -/
def gapRun (nested : Bool) : (comment : Bool) → List Char → List Char
  | _, '\r' :: '\n' :: rest => if nested then '\r' :: '\n' :: gapRun nested false rest else []
  | comment, c :: rest =>
    if c = '\n' then if nested then c :: gapRun nested false rest else []
    else if c = '\r' then []
    else if comment then c :: gapRun nested true rest
    else if c = ' ' then c :: gapRun nested false rest
    else if c = '#' then c :: gapRun nested true rest
    else []
  | _, [] => []

/-! ### What a run takes is a beginning of the text -/

theorem wordRun_append_drop (cs : List Char) : wordRun cs ++ cs.drop (wordRun cs).length = cs := by
  cases cs with
  | nil => rfl
  | cons c rest =>
    by_cases h : isWordStart c
    · simp only [wordRun, h, if_true, List.length_cons, List.drop_succ_cons, List.cons_append]
      exact congrArg (c :: ·) (List.prefix_iff_eq_append.mp (List.takeWhile_prefix isWordChar))
    · simp [wordRun, h]

theorem lineBreakRun_append_drop (cs : List Char) :
    lineBreakRun cs ++ cs.drop (lineBreakRun cs).length = cs := by
  fun_induction lineBreakRun cs with
  | case1 rest ih => simpa using ih
  | case2 rest ih => simpa using ih
  | case3 => simp

theorem gapRun_append_drop (nested comment : Bool) (cs : List Char) :
    gapRun nested comment cs ++ cs.drop (gapRun nested comment cs).length = cs := by
  fun_induction gapRun nested comment cs <;> simp_all

/-! ### Lexemes -/

/-- A lexeme with what its characters say; words are looked up and integers bounded later. -/
inductive Lexeme where
  | word (text : String)
  | integer (digits : List Char)
  | float (value : Decimal)
  | string (text : String)
  | symbol (symbol : Symbol)
deriving DecidableEq, Repr, Inhabited

namespace Lexeme

/-- The word at the start of a text. -/
def word? (cs : List Char) : Option (Lexeme × Nat) :=
  let run := wordRun cs
  if run.isEmpty then none else some (.word (String.ofList run), run.length)

/-! ### Numbers -/

/-- The decimal digits at the start of a text. -/
def digitRun (cs : List Char) : List Char := cs.takeWhile Char.isDigit

/-- The digits behind a point, empty when there is no point or no digit behind it. -/
def fractionRun : List Char → List Char
  | '.' :: rest => digitRun rest
  | _ => []

/-- The exponent at the start of a text: `e` or `E`, an optional sign, and digits. -/
def exponent? : List Char → Option (Int × Nat)
  | [] => none
  | c :: rest =>
    if c == 'e' || c == 'E' then
      let (sign, signed, body) : Int × Nat × List Char :=
        match rest with
        | '+' :: r => (1, 1, r)
        | '-' :: r => (-1, 1, r)
        | r => (1, 0, r)
      let digits := digitRun body
      if digits.isEmpty then none
      else some (sign * digitsValue 0 digits, 1 + signed + digits.length)
    else none

/-- The number at the start of a text: a fraction or an exponent makes it a float. -/
def number? (cs : List Char) : Option (Lexeme × Nat) :=
  let whole := digitRun cs
  let afterWhole := cs.drop whole.length
  let fraction := fractionRun afterWhole
  let size := whole.length + if fraction.isEmpty then 0 else fraction.length + 1
  if whole.isEmpty then none
  else match exponent? (cs.drop size), fraction with
    | some (e, n), _ => some (.float (.ofDigits whole fraction e), size + n)
    | none, [] => some (.integer whole, size)
    | none, _ => some (.float (.ofDigits whole fraction 0), size)

/-! ### Strings -/

/-- The value of a hexadecimal digit of either case. -/
def hexValue? (c : Char) : Option Nat :=
  if c.isDigit then some (c.toNat - '0'.toNat)
  else if 'a' ≤ c ∧ c ≤ 'f' then some (c.toNat - 'a'.toNat + 10)
  else if 'A' ≤ c ∧ c ≤ 'F' then some (c.toNat - 'A'.toNat + 10)
  else none

/-- The number that hexadecimal digits stand for. -/
def hexNumber (ds : List Char) : Nat :=
  ds.foldl (fun n d => 16 * n + (hexValue? d).getD 0) 0

/-- The character with the given code point, unless it is none. -/
def charOf? (n : Nat) : Option Char :=
  if n.isValidChar then some (Char.ofNat n) else none

/-- The character of an escape that is one letter, digit or mark. -/
def shortEscape? : Char → Option Char
  | 'n' => some '\n'
  | 'r' => some '\r'
  | 't' => some '\t'
  | '\\' => some '\\'
  | '"' => some '"'
  | '\'' => some '\''
  | '0' => some '\x00'
  | 'a' => some '\x07'
  | 'b' => some '\x08'
  | 'f' => some '\x0c'
  | 'v' => some '\x0b'
  | _ => none

/-- The character that a code point in braces names: `u`, one to six hexadecimal digits in braces. -/
def codePointEscape? : List Char → Option (Char × Nat)
  | 'u' :: '\x7b' :: rest =>
    let digits := rest.takeWhile fun c => (hexValue? c).isSome
    if 1 ≤ digits.length ∧ digits.length ≤ 6 ∧ (rest.drop digits.length).head? = some '\x7d' then
      (charOf? (hexNumber digits)).map (·, digits.length + 3)
    else none
  | _ => none

/-- The character that a byte names: `x` and two hexadecimal digits. -/
def byteEscape? : List Char → Option (Char × Nat)
  | 'x' :: a :: b :: _ =>
    if (hexValue? a).isSome ∧ (hexValue? b).isSome then
      (charOf? (hexNumber [a, b])).map (·, 3)
    else none
  | _ => none

/-- What the characters behind a backslash stand for and how many of them there are. An escape
    without a meaning stands for itself, backslash included; a line feed cannot be escaped. -/
def escape? (cs : List Char) : Option (List Char × Nat) :=
  match codePointEscape? cs <|> byteEscape? cs with
  | some (c, n) => some ([c], n)
  | none =>
    match cs with
    | [] => none
    | c :: _ =>
      match shortEscape? c with
      | some d => some ([d], 1)
      | none => if c = '\n' then none else some (['\\', c], 1)

/-- What the characters up to a closing quote stand for, and their number with the quote. The first
    `skip` characters belong to an escape that has been read. -/
def stringBody? : (skip : Nat) → List Char → Option (List Char × Nat)
  | _, [] => none
  | skip + 1, _ :: rest => (stringBody? skip rest).map fun (s, n) => (s, n + 1)
  | 0, c :: rest =>
    if c = '"' then some ([], 1)
    else if c = '\n' then none
    else if c = '\\' then
      match escape? rest with
      | none => none
      | some (out, size) => (stringBody? size rest).map fun (s, n) => (out ++ s, n + 1)
    else (stringBody? 0 rest).map fun (s, n) => (c :: s, n + 1)

/-- The string at the start of a text, on one line between double quotes. -/
def string? : List Char → Option (Lexeme × Nat)
  | '"' :: rest => (stringBody? 0 rest).map fun (s, n) => (.string (String.ofList s), n + 1)
  | _ => none

/-! ### Symbols -/

/-- The tags by which operators are recognized, in the order in which they are tried. -/
def operatorTags : List (String × Symbol) :=
  [("**=", .powerAssign), ("**", .power), ("*=", .starAssign), ("*", .star),
  ("<<=", .leftShiftAssign), ("<<", .leftShift), ("<=", .lessEqual), ("<", .less),
  (">>=", .rightShiftAssign), (">>", .rightShift), (">=", .greaterEqual), (">", .greater),
  ("==", .equal), ("=", .assign), ("!=", .notEqual),
  ("+=", .plusAssign), ("+", .plus), ("-=", .minusAssign), ("-", .minus),
  ("/=", .slashAssign), ("/", .slash), ("%=", .percentAssign), ("%", .percent),
  ("&=", .bitAndAssign), ("&", .bitAnd), ("|=", .bitOrAssign), ("|", .bitOr),
  ("^=", .caretAssign), ("^", .caret), ("~=", .tildeAssign), ("~", .tilde)]

/-- The tags by which delimiters are recognized, in the order in which they are tried. -/
def punctuationTags : List (String × Symbol) :=
  [(":", .colon), (",", .comma), (";", .semicolon), (".", .dot), ("(", .leftParen), (")", .rightParen),
  ("[", .leftBracket), ("]", .rightBracket), ("\x7b", .leftCurly), ("\x7d", .rightCurly)]

/-- The tags of all symbols; operators are tried before delimiters. -/
def symbolTags : List (String × Symbol) := operatorTags ++ punctuationTags

/-- The symbol at the start of a text: that of the first tag with which the text begins. -/
def symbol? (cs : List Char) : Option (Lexeme × Nat) :=
  (symbolTags.find? (·.1.toList.isPrefixOf cs)).map fun (tag, s) => (.symbol s, tag.length)

/-- The lexeme at the start of a text and the number of its characters. -/
def scan? (cs : List Char) : Option (Lexeme × Nat) :=
  word? cs <|> number? cs <|> string? cs <|> symbol? cs

end Lexeme

end Offside
