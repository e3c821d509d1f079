import Offside.Proofs.ExprRoundTrip
import Offside.Proofs.LexemeLine
import Offside.Proofs.Relocation

/-! # Token lists as text

Every token that can be written on a line has a spelling, and a list of such tokens is written with single spaces
between them. The lexer reads the list back, token by token. So the two dialects write the same list in two ways
and read the same from both. A string can be written in many more ways, and each of them is read back too. -/

namespace Offside

open Lexeme (isWord scan?)

namespace Kind

/-- The kinds that a dialect can write: reserved words, symbols and strings, words that it does not reserve, and
    integers of 63 bits without a sign. -/
def isSpelled (d : Dialect) : Kind → Bool
  | .keyword _ | .symbol _ | .string _ => true
  | .name n => isWord n.toList && (d.keyword? n).isNone
  | .integer i => 0 ≤ i && i < integerLimit
  | _ => false

/-- How a dialect writes a token of a kind that it can write. -/
def spelledBy (d : Dialect) : Kind → String
  | .keyword k => d.spelling k
  | .symbol s => s.spelling
  | .name n => n
  | .integer i => String.ofList (intChars i)
  | .string s => Text.quote s
  | _ => ""

/-! ### One token -/

variable {d : Dialect} {k : Kind} {rest : List Char}

/-- The spelling of a token is read whole, and as this token, before anything that is apart from it. -/
theorem scan?_spelledBy (hk : k.isSpelled d = true) (hrest : Apart rest) :
    ∃ x, scan? ((k.spelledBy d).toList ++ rest) = some (x, (k.spelledBy d).toList.length) ∧ x.Means d k := by
  cases k with
  | keyword k => exact ⟨_, Lexeme.scan?_word (isWord_spelling d k) hrest.word, Lexeme.means_keyword d k⟩
  | symbol s => exact ⟨_, Lexeme.scan?_symbol s hrest.symbol, fun _ _ => rfl⟩
  | name n =>
    obtain ⟨hword, hfree⟩ := Bool.and_eq_true_iff.mp hk
    exact ⟨_, Lexeme.scan?_word hword hrest.word, Lexeme.means_name (Option.isNone_iff_eq_none.mp hfree)⟩
  | integer i =>
    simp only [isSpelled, Bool.and_eq_true, decide_eq_true_eq] at hk
    obtain ⟨n, rfl⟩ := Int.eq_ofNat_of_zero_le hk.1
    have hlt : n < integerLimit := by omega
    rw [spelledBy, String.toList_ofList, ← chars_integer]
    exact ⟨_, Lexeme.scan?_numeral (.integer n) hrest.word hrest.point, Lexeme.means_integer hlt⟩
  | string s =>
    rw [spelledBy, Text.quote, String.toList_ofList]
    exact ⟨_, Lexeme.scan?_string s rest, fun _ _ => rfl⟩
  | float | newline | whitespace | blockStart | blockEnd | endMarker => cases hk

/-- A spelling has a first character, which is no space. -/
theorem exists_of_spelledBy (hk : k.isSpelled d = true) : ∃ c cs, (k.spelledBy d).toList = c :: cs ∧ c ≠ ' ' := by
  obtain ⟨x, hscan, -⟩ := scan?_spelledBy hk apart_nil
  cases hcs : (k.spelledBy d).toList with
  | nil =>
    rw [hcs] at hscan
    cases hscan
  | cons c cs =>
    refine ⟨c, cs, rfl, ?_⟩
    rintro rfl
    rw [hcs, List.cons_append, Lexeme.scan?_gap (.inl rfl)] at hscan
    cases hscan

theorem spells_spelledBy {ks : List Kind} (hk : k.isSpelled d = true) (hrest : Apart rest) (h : Spells d rest ks) :
    Spells d ((k.spelledBy d).toList ++ rest) (k :: ks) := by
  obtain ⟨x, hscan, hmeans⟩ := scan?_spelledBy hk hrest
  obtain ⟨c, cs, hcs, -⟩ := exists_of_spelledBy hk
  exact .token hscan (by simp [hcs]) hmeans h

end Kind

/-! ### Lists of tokens -/

/-- How a dialect writes tokens: their spellings with single spaces between them. -/
def spelledText (d : Dialect) (ks : List Kind) : String := " ".intercalate (ks.map (·.spelledBy d))

variable {d : Dialect} {ks : List Kind}

theorem toList_spelledText (d : Dialect) (ks : List Kind) :
    (spelledText d ks).toList = [' '].intercalate (ks.map fun k => (k.spelledBy d).toList) := by
  rw [spelledText, String.toList_intercalate, List.map_map]
  rfl

theorem spells_spelledText (h : ∀ k ∈ ks, k.isSpelled d = true) : Spells d (spelledText d ks).toList ks := by
  rw [toList_spelledText]
  induction ks with
  | nil => exact .nil
  | cons k ks ih =>
    obtain ⟨hk, hks⟩ := List.forall_mem_cons.mp h
    cases ks with
    | nil =>
      have hone := Kind.spells_spelledBy hk apart_nil .nil
      simpa using hone
    | cons k' ks =>
      have hrest := (ih hks).space
      rw [List.map_cons, List.map_cons, List.intercalate_cons_cons]
      have hmore := Kind.spells_spelledBy hk (apart_mark rfl _) hrest
      simpa using hmore

theorem head_spelledText (h : ∀ k ∈ ks, k.isSpelled d = true) : (spelledText d ks).toList.head? ≠ some ' ' := by
  rw [toList_spelledText]
  cases ks with
  | nil => nofun
  | cons k ks =>
    obtain ⟨c, cs, hcs, hc⟩ := Kind.exists_of_spelledBy (h k List.mem_cons_self)
    cases ks with
    | nil => simpa [hcs] using hc
    | cons k' ks => simpa [hcs, List.intercalate_cons_cons] using hc

theorem content_lex_spelledText (h : ∀ k ∈ ks, k.isSpelled d = true) :
    (lex d (spelledText d ks)).map Item.content = (ks ++ [Kind.endMarker]).map .ok := by
  obtain ⟨ts, hts, hkinds, -⟩ := Lexer.take_of_spells (l := Lexer.new d (spelledText d ks)) (spells_spelledText h)
    rfl rfl (.inr (head_spelledText h)) rfl (Nat.lt_succ_self _)
  have hcontent : ((ts.map .ok : List Item)).map Item.content = (ts.map (·.kind)).map .ok := by
    rw [List.map_map, List.map_map]
    rfl
  rw [lex, Lexer.items, ← hkinds, ← hcontent, ← hts]
  rfl

/-- A dialect reads back every list of tokens that it writes, and two dialects that both can write a list read the
    same from the two texts. -/
theorem lex_spelledText (ks : List Kind) (d d' : Dialect) (h : ∀ k ∈ ks, k.isSpelled d = true) :
    (lex d (spelledText d ks)).map Item.content = (ks ++ [Kind.endMarker]).map .ok ∧
      ((∀ k ∈ ks, k.isSpelled d' = true) →
        (lex d' (spelledText d' ks)).map Item.content = (lex d (spelledText d ks)).map Item.content) := by
  refine ⟨content_lex_spelledText h, fun h' => ?_⟩
  rw [content_lex_spelledText h', content_lex_spelledText h]

/-- Neighbours that would grow together without the space between them, and a string that holds quotes. -/
def crowdedKinds : List Kind :=
  [.keyword .notKw, .name "x1", .symbol .star, .symbol .power, .symbol .assign, .symbol .equal, .integer 0,
    .integer 9223372036854775807, .symbol .dot, .string "a \"b\"\n#", .keyword .defineKw, .name "entao"]

theorem lex_spelledText_crowdedKinds :
    (∀ k ∈ crowdedKinds, k.isSpelled .portuguese = true ∧ k.isSpelled .english = true) ∧
      (lex .portuguese (spelledText .portuguese crowdedKinds)).map Item.content =
        (crowdedKinds ++ [Kind.endMarker]).map .ok ∧
      (lex .english (spelledText .english crowdedKinds)).map Item.content =
        (lex .portuguese (spelledText .portuguese crowdedKinds)).map Item.content := by
  have hboth : ∀ k ∈ crowdedKinds, k.isSpelled .portuguese = true ∧ k.isSpelled .english = true := by decide
  obtain ⟨hread, hsame⟩ := lex_spelledText crowdedKinds .portuguese .english fun k hk => (hboth k hk).1
  exact ⟨hboth, hread, hsame fun k hk => (hboth k hk).2⟩

/-! ### One string -/

/-- A lexeme with nothing before and behind it is answered as one token and the end marker. -/
theorem lex_lexeme {cs : List Char} {x : Lexeme} {k : Kind} (hne : cs ≠ []) (hfeed : '\n' ∉ cs)
    (hscan : scan? cs = some (x, cs.length)) (hmeans : x.Means d k) :
    lex d (String.ofList cs) =
      [.ok { kind := k, span := { offset := 0, len := byteSize cs, line := 1, column := 0 } },
        .ok { kind := .endMarker, span := { offset := byteSize cs, len := 0, line := 1, column := cs.length } }] := by
  have hline : (Position.advance ⟨1, 0⟩ cs).line = 1 := by rw [line_advance, List.count_eq_zero_of_not_mem hfeed]
  have hcolumn : (Position.advance ⟨1, 0⟩ cs).column = cs.length := by
    have hlast := lastLine_append [] hfeed
    rw [column_advance, ← List.nil_append cs, hlast]
    rfl
  let l : Lexer := { dialect := d, rest := cs }
  have htoken := Lexer.next?_token (l := l) (List.append_nil cs).symm hne (by rwa [List.append_nil]) hmeans rfl
  have hdone : (l.advance cs.length).rest = [] := List.drop_length
  have hend := Lexer.next?_end (l := { l.advance cs.length with brackets := l.brackets.track k, lineStart := false })
    hdone rfl
  have hfuel : (String.ofList cs).toList.length < cs.length + 1 + 1 := by
    rw [String.toList_ofList]
    omega
  rw [← take_eq_lex d hfuel, Lexer.new, String.toList_ofList, Lexer.take_next htoken, Lexer.take_next hend,
    Lexer.take_finished rfl]
  simp only [l, Lexer.spanOf, Lexer.advance, List.take_length, List.take_zero, hline, hcolumn, Nat.zero_add, byteSize]

/-- However the characters of a string are written between its quotes, and as a constant is shown in particular, it
    is read as one token that stands for the whole text. -/
theorem lex_quotes (d : Dialect) (s : String) :
    Text.Quotes s.toList (Constant.string s).chars ∧ ∀ w, Text.Quotes s.toList w.toList →
      lex d w = [.ok { kind := .string s, span := { offset := 0, len := w.utf8ByteSize, line := 1, column := 0 } },
        .ok { kind := .endMarker, span := { offset := w.utf8ByteSize, len := 0, line := 1, column := w.length } }] := by
  refine ⟨Text.quotes_quoteChars s.toList, fun w hw => ?_⟩
  have hscan := Lexeme.scan?_quotes hw []
  have hne : w.toList ≠ [] := by
    obtain ⟨parts, -, hparts⟩ := hw
    simp [hparts]
  rw [List.append_nil, String.ofList_toList] at hscan
  have hlex := lex_lexeme (d := d) (k := .string s) hne hw.not_mem_feed hscan fun _ _ => rfl
  rw [← utf8ByteSize_ofList, String.ofList_toList, String.length_toList] at hlex
  exact hlex

/-- A letter, a quote, a joining mark, a line feed, a backslash and a zero, each written in another way. -/
def mixedQuotes : String := "\"\\u\x7b000061\x7d\\\"\\u\x7b301\x7d\\n\\\\\\0é\""

theorem lex_quotes_mixedQuotes : Text.Quotes "a\"\u0301\n\\\x00é".toList mixedQuotes.toList ∧
    lex .portuguese mixedQuotes =
      [.ok { kind := .string "a\"\u0301\n\\\x00é", span := { offset := 0, len := 29, line := 1, column := 0 } },
        .ok { kind := .endMarker, span := { offset := 29, len := 0, line := 1, column := 28 } }] := by
  have hquotes : Text.Quotes "a\"\u0301\n\\\x00é".toList mixedQuotes.toList := by
    refine ⟨["\\u\x7b000061\x7d".toList, ['\\', '"'], "\\u\x7b301\x7d".toList, ['\\', 'n'], ['\\', '\\'],
      ['\\', '0'], ['é']], ?_, by decide⟩
    have hletter := @Text.Shows.codePoint 'a' [0, 0, 0, 0, 6, 1] (by decide) (by decide) (by decide) rfl
    have hmark := @Text.Shows.codePoint '\u0301' [3, 0, 1] (by decide) (by decide) (by decide) rfl
    have hshort {c d : Char} (h : (c, d) ∈ Text.shortPairs) : Text.Shows c ['\\', d] := .short h
    exact .cons hletter (.cons (hshort (by decide)) (.cons hmark (.cons (hshort (by decide)) (.cons (hshort (by decide))
      (.cons (hshort (by decide)) (.cons (.bare (by decide) (by decide) (by decide)) .nil))))))
  exact ⟨hquotes, (lex_quotes .portuguese "a\"\u0301\n\\\x00é").2 mixedQuotes hquotes⟩

end Offside
