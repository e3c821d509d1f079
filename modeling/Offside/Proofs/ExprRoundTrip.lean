import Offside.Proofs.ExprReading
import Offside.Proofs.ExprText
import Offside.Proofs.Spelling

/-! # Expressions read back from their text

The text of an expression spells the expression's words, so the parser reads it as that expression unless its
parentheses are nested too deeply. This holds of expressions that a program can write: their names are words
without a meaning of their own, and their numbers have no sign and are within bounds. -/

namespace Offside

/-! ### Expressions with a text of their own -/

/-- A word that the English dialect does not reserve. -/
def isFreeWord (n : String) : Bool := Lexeme.isWord n.toList && (Dialect.english.keyword? n).isNone

/-- Integers of 63 bits, finite doubles without a sign, and all strings. -/
def Constant.isWritable : Constant → Bool
  | .integer i => 0 ≤ i && i < integerLimit
  | .float x => !x.isNegative && !x.isNaN && !x.isInfinite
  | .string _ => true

namespace Expr

mutual

/-- An expression of free words and literals that a program can write. -/
def isWritable : Expr → Bool
  | .name _ n => isFreeWord n
  | .constant _ v => v.isWritable
  | .attribute _ v a => v.isWritable && isFreeWord a
  | .binary _ _ l r | .bool _ _ l r | .compare _ _ l r => l.isWritable && r.isWritable
  | .unary _ _ e => e.isWritable
  | .call _ f as => f.isWritable && isWritableList as
  | .conditional _ t b o => t.isWritable && b.isWritable && o.isWritable
  | .list _ es | .tuple _ es => isWritableList es
  | .dict _ es => isWritableEntries es

def isWritableList : List Expr → Bool
  | [] => true
  | e :: es => e.isWritable && isWritableList es

def isWritableEntries : List (Expr × Expr) → Bool
  | [] => true
  | (k, v) :: es => k.isWritable && v.isWritable && isWritableEntries es

end

end Expr

/-! ### Single tokens -/

open Lexeme (EndsWord EndsSymbol isWord fractionRun)

/-- Neither a word nor a number nor a symbol goes on into the text. -/
structure Apart (rest : List Char) : Prop where
  word : EndsWord rest
  point : fractionRun rest = []
  symbol : EndsSymbol rest

theorem apart_nil : Apart [] := ⟨fun _ h => (nomatch h), rfl, fun _ h => (nomatch h)⟩

theorem endsSymbol_cons {c : Char} {cs : List Char} (hc : Lexeme.goesOn c = false) : EndsSymbol (c :: cs) := by
  intro d hd
  obtain rfl : c = d := by simpa using hd
  exact hc

theorem endsWord_cons {c : Char} {cs : List Char} (hc : isWordChar c = false) : EndsWord (c :: cs) := by
  intro d hd
  obtain rfl : c = d := by simpa using hd
  exact hc

/-- The characters of which no token consists but one of their own, the point apart. -/
def isMark (c : Char) : Bool := [' ', ',', ':', '(', ')', '[', ']', '\x7b', '\x7d'].contains c

theorem apart_mark {c : Char} (hc : isMark c = true) (cs : List Char) : Apart (c :: cs) := by
  have hmarks : [' ', ',', ':', '(', ')', '[', ']', '\x7b', '\x7d'].all
      (fun d => !isWordChar d && d != '.' && !Lexeme.goesOn d) = true := rfl
  have hmark := List.all_eq_true.mp hmarks c (List.contains_iff_mem.mp hc)
  simp only [Bool.and_eq_true, Bool.not_eq_true', bne_iff_ne] at hmark
  obtain ⟨⟨hword, hpoint⟩, hsymbol⟩ := hmark
  exact ⟨endsWord_cons hword, by simp [fractionRun, hpoint], endsSymbol_cons hsymbol⟩

/-- A point in front of a word belongs to no number. -/
theorem apart_point {c : Char} {cs : List Char} (hc : isWordStart c = true) : Apart ('.' :: c :: cs) := by
  have hdigit : c.isDigit = false := by
    refine Bool.eq_false_iff.mpr fun hd => ?_
    rw [Lexeme.not_isWordStart_of_isDigit hd] at hc
    cases hc
  exact ⟨endsWord_cons rfl, by simp [fractionRun, Lexeme.digitRun, hdigit], endsSymbol_cons rfl⟩

theorem isWord_spelling (dialect : Dialect) (k : Keyword) : isWord (dialect.spelling k).toList = true := by
  cases dialect <;> cases k <;> rfl

namespace Lexeme
variable {dialect : Dialect}

theorem means_name {n : String} (hn : dialect.keyword? n = none) : (Lexeme.word n).Means dialect (.name n) := by
  intro l hl
  simp only [Lexer.kindOf, hl, hn]

theorem means_keyword (dialect : Dialect) (k : Keyword) :
    (Lexeme.word (dialect.spelling k)).Means dialect (.keyword k) := by
  intro l hl
  simp only [Lexer.kindOf, hl, Dialect.keyword?_spelling]

theorem means_integer {n : Nat} (hn : n < integerLimit) : (Numeral.integer n).lexeme.Means dialect (.integer n) := by
  intro l _
  simp [Numeral.lexeme, Numeral.integer, Lexer.kindOf, digitsValue_decimalDigits, hn]

end Lexeme

theorem chars_integer (n : Nat) : (Numeral.integer n).chars = intChars n := by
  simp [intChars, Numeral.chars, Numeral.integer, pointedChars, exponentChars]

namespace Spells
variable {rest : List Char} {ks : List Kind}

theorem word {dialect : Dialect} {w : String} {k : Kind} (hw : isWord w.toList = true)
    (hk : (Lexeme.word w).Means dialect k) (hrest : EndsWord rest) (h : Spells dialect rest ks) :
    Spells dialect (w.toList ++ rest) (k :: ks) := by
  refine .token (Lexeme.scan?_word hw hrest) ?_ hk h
  intro hnil
  rw [hnil] at hw
  cases hw

theorem name {n : String} (hn : isFreeWord n = true) (hrest : EndsWord rest) (h : Spells .english rest ks) :
    Spells .english (n.toList ++ rest) (.name n :: ks) := by
  obtain ⟨hw, hfree⟩ := Bool.and_eq_true_iff.mp hn
  exact word hw (Lexeme.means_name (Option.isNone_iff_eq_none.mp hfree)) hrest h

theorem keyword {dialect : Dialect} (k : Keyword) (hrest : EndsWord rest) (h : Spells dialect rest ks) :
    Spells dialect ((dialect.spelling k).toList ++ rest) (.keyword k :: ks) :=
  word (isWord_spelling dialect k) (Lexeme.means_keyword dialect k) hrest h

theorem symbol {dialect : Dialect} (s : Symbol) (hrest : EndsSymbol rest) (h : Spells dialect rest ks) :
    Spells dialect (s.spelling.toList ++ rest) (.symbol s :: ks) := by
  refine .token (Lexeme.scan?_symbol s hrest) ?_ (fun _ _ => rfl) h
  cases s <;> nofun

theorem numeral {dialect : Dialect} {n : Numeral} {k : Kind} (hk : n.lexeme.Means dialect k) (hrest : Apart rest)
    (h : Spells dialect rest ks) : Spells dialect (n.chars ++ rest) (k :: ks) := by
  refine .token (Lexeme.scan?_numeral n hrest.word hrest.point) ?_ hk h
  intro hnil
  exact n.whole_ne_nil (List.append_eq_nil_iff.mp hnil).1

end Spells

/-! ### Operators -/

section
variable {rest : List Char} {ks : List Kind} (h : Spells .english rest ks)
include h

theorem Spells.spacedSymbol (s : Symbol) : Spells .english (s.spelling.toList ++ ' ' :: rest) (.symbol s :: ks) :=
  .symbol s (endsSymbol_cons rfl) h.space

theorem Spells.spacedKeyword (k : Keyword) :
    Spells .english ((Dialect.english.spelling k).toList ++ ' ' :: rest) (.keyword k :: ks) :=
  .keyword k (endsWord_cons rfl) h.space

theorem Spells.binaryOp (op : BinaryOp) : Spells .english (op.text.toList ++ ' ' :: rest) (.symbol op.symbol :: ks) := by
  have hspelling : op.text = op.symbol.spelling := by cases op <;> rfl
  rw [hspelling]
  exact h.spacedSymbol _

theorem Spells.boolOp (op : BoolOp) : Spells .english (op.text.toList ++ ' ' :: rest) (.keyword op.keyword :: ks) := by
  have hspelling : op.text = Dialect.english.spelling op.keyword := by cases op <;> rfl
  rw [hspelling]
  exact h.spacedKeyword _

theorem Spells.compareOp (op : CompareOp) : Spells .english (op.text.toList ++ ' ' :: rest) (op.kinds ++ ks) := by
  cases op with
  | equal => exact h.spacedSymbol .equal
  | notEqual => exact h.spacedSymbol .notEqual
  | less => exact h.spacedSymbol .less
  | lessEqual => exact h.spacedSymbol .lessEqual
  | greater => exact h.spacedSymbol .greater
  | greaterEqual => exact h.spacedSymbol .greaterEqual
  | is => exact h.spacedKeyword .isKw
  | isNot => exact (h.spacedKeyword .notKw).spacedKeyword .isKw
  | isIn => exact h.spacedKeyword .inKw
  | notIn => exact (h.spacedKeyword .inKw).spacedKeyword .notKw

end

/-! ### Pieces of a text -/

/-- Characters that spell words in front of every text that is apart from them. -/
def Fills (cs : List Char) (w : List Kind) : Prop :=
  ∀ ⦃rest : List Char⦄ ⦃ks : List Kind⦄, Apart rest → Spells .english rest ks →
    EndsSymbol (cs ++ rest) ∧ Spells .english (cs ++ rest) (w ++ ks)

/-- Such characters, at least one of them and no space first. -/
structure Renders (cs : List Char) (w : List Kind) : Prop where
  begins : ∃ c ds, cs = c :: ds ∧ c ≠ ' '
  fills : Fills cs w

theorem fills_nil : Fills [] [] := fun _ _ hrest h => ⟨hrest.symbol, h⟩

section
variable {cs ds : List Char} {w v : List Kind}

theorem Fills.mark (h : Fills cs w) {s : Symbol} {c : Char} (hs : s.spelling.toList = [c]) (hc : isMark c = true)
    (hv : Fills ds v) : Fills (cs ++ c :: ds) (w ++ .symbol s :: v) := by
  intro rest ks hrest hspells
  obtain ⟨hend, hbehind⟩ := hv hrest hspells
  have hmark : Spells .english (c :: (ds ++ rest)) (.symbol s :: (v ++ ks)) := by
    have hsymbol := Spells.symbol s hend hbehind
    rwa [hs] at hsymbol
  simpa using h (apart_mark hc _) hmark

theorem Fills.space (h : Fills cs w) (hv : Fills ds v) : Fills (cs ++ ' ' :: ds) (w ++ v) := by
  intro rest ks hrest hspells
  simpa using h (apart_mark rfl _) (hv hrest hspells).2.space

/-- Brackets around a piece. -/
theorem Fills.bracketed {l r : Symbol} {a b : Char} (h : Fills cs w) (hl : l.spelling.toList = [a])
    (hr : r.spelling.toList = [b]) (ha : isMark a = true ∧ a ≠ ' ') (hb : isMark b = true) :
    Renders (a :: (cs ++ [b])) (.symbol l :: (w ++ [.symbol r])) :=
  ⟨⟨a, _, rfl, ha.2⟩, fills_nil.mark hl ha.1 (h.mark hr hb fills_nil)⟩

theorem Fills.parenthesized (h : Fills cs w) : Renders ('(' :: (cs ++ [')'])) (Expr.parenthesized w) :=
  h.bracketed (l := .leftParen) (r := .rightParen) rfl rfl (by decide) rfl

theorem renders_infix (op : String) (ow : List Kind) (hl : Fills cs w) (hr : Fills ds v)
    (hop : ∀ {rest ks}, Spells .english rest ks → Spells .english (op.toList ++ ' ' :: rest) (ow ++ ks)) :
    Renders (infixChars cs op ds) (Expr.parenthesized (w ++ (ow ++ v))) := by
  have hfills : Fills (cs ++ ' ' :: (op.toList ++ ' ' :: ds)) (w ++ (ow ++ v)) := by
    intro rest ks hrest hspells
    have hbehind := hop (hr hrest hspells).2
    simpa using hl (apart_mark rfl _) hbehind.space
  simpa [infixChars] using hfills.parenthesized

end

/-! ### Words and literals -/

theorem goesOn_of_isWordChar {c : Char} (hc : isWordChar c = true) : Lexeme.goesOn c = false ∧ c ≠ ' ' := by
  have hnone : ['=', '*', '<', '>'].all (fun d => !isWordChar d) = true := rfl
  refine ⟨Bool.eq_false_iff.mpr fun hd => ?_, ?_⟩
  · have hno := List.all_eq_true.mp hnone c (List.contains_iff_mem.mp hd)
    rw [hc] at hno
    cases hno
  · rintro rfl
    cases hc

theorem isWordChar_of_isWordStart {c : Char} (hc : isWordStart c = true) : isWordChar c = true := by
  rcases Bool.or_eq_true_iff.mp hc with h | h
  · simp [isWordChar, Char.isAlphanum, h]
  · simp [isWordChar, h]

theorem isWordChar_of_isDigit {c : Char} (hc : c.isDigit = true) : isWordChar c = true := by
  simp [isWordChar, Char.isAlphanum, hc]

/-- Characters of which the first belongs to a word or a number. -/
theorem renders_of_word {c : Char} {cs : List Char} {w : List Kind} (hc : isWordChar c = true)
    (h : ∀ {rest ks}, Apart rest → Spells .english rest ks → Spells .english (c :: cs ++ rest) (w ++ ks)) :
    Renders (c :: cs) w :=
  ⟨⟨c, cs, rfl, (goesOn_of_isWordChar hc).2⟩,
    fun _ _ hrest hspells => ⟨endsSymbol_cons (goesOn_of_isWordChar hc).1, h hrest hspells⟩⟩

theorem exists_of_isWord {w : List Char} (hw : isWord w = true) : ∃ c cs, w = c :: cs ∧ isWordStart c = true := by
  cases w with
  | nil => cases hw
  | cons c cs => exact ⟨c, cs, rfl, (Bool.and_eq_true_iff.mp hw).1⟩

theorem renders_name {n : String} (hn : isFreeWord n = true) : Renders n.toList [.name n] := by
  obtain ⟨c, cs, hcons, hc⟩ := exists_of_isWord (Bool.and_eq_true_iff.mp hn).1
  have hspells : ∀ {rest ks}, Apart rest → Spells .english rest ks → Spells .english (n.toList ++ rest) ([.name n] ++ ks) :=
    fun hrest h => .name hn hrest.word h
  rw [hcons] at hspells ⊢
  exact renders_of_word (isWordChar_of_isWordStart hc) hspells

theorem renders_numeral {n : Numeral} {k : Kind} (hk : n.lexeme.Means .english k) : Renders n.chars [k] := by
  obtain ⟨c, cs, hcons⟩ := List.exists_cons_of_ne_nil n.whole_ne_nil
  have hc : c.isDigit = true := n.digits c (by rw [hcons]; exact List.mem_cons_self)
  have hspells : ∀ {rest ks}, Apart rest → Spells .english rest ks → Spells .english (n.chars ++ rest) ([k] ++ ks) :=
    fun hrest h => .numeral hk hrest h
  rw [Numeral.chars, hcons] at hspells ⊢
  exact renders_of_word (isWordChar_of_isDigit hc) hspells

theorem renders_constant {v : Constant} (hv : v.isWritable = true) : Renders v.chars [v.kind] := by
  cases v with
  | integer i =>
    simp only [Constant.isWritable, Bool.and_eq_true, decide_eq_true_eq] at hv
    obtain ⟨n, rfl⟩ := Int.eq_ofNat_of_zero_le hv.1
    have hlt : n < integerLimit := by omega
    rw [Constant.chars, ← chars_integer]
    exact renders_numeral (Lexeme.means_integer hlt)
  | float x =>
    simp only [Constant.isWritable, Bool.and_eq_true, Bool.not_eq_true'] at hv
    obtain ⟨n, hchars, d, hd, hx⟩ := Binary64.exists_numeral hv.1.1 hv.1.2 hv.2
    rw [Constant.chars, hchars]
    refine renders_numeral fun l _ => ?_
    rw [hd, Lexer.kindOf, hx, Constant.kind]
  | string s =>
    refine ⟨⟨'"', _, rfl, by decide⟩, fun rest ks _ h => ⟨endsSymbol_cons rfl, ?_⟩⟩
    refine .token (Lexeme.scan?_string s rest) (by simp [Constant.chars, Text.quoteChars]) (fun _ _ => rfl) h

/-! ### Expressions -/

section
variable {cs ds : List Char} {w v : List Kind}

theorem Renders.append {c : Char} (h : Renders cs w) (hc : isMark c = true) (hv : Fills (c :: ds) v) :
    Renders (cs ++ c :: ds) (w ++ v) := by
  obtain ⟨x, xs, rfl, hx⟩ := h.begins
  refine ⟨⟨x, xs ++ c :: ds, rfl, hx⟩, fun rest ks hrest hspells => ?_⟩
  have hbehind := h.fills (apart_mark hc (ds ++ rest)) (hv hrest hspells).2
  simpa using hbehind

theorem Renders.attribute (h : Renders cs w) {n : String} (hn : isFreeWord n = true) :
    Renders (cs ++ '.' :: n.toList) (w ++ [.symbol .dot, .name n]) := by
  obtain ⟨x, xs, rfl, hx⟩ := h.begins
  refine ⟨⟨x, xs ++ '.' :: n.toList, rfl, hx⟩, fun rest ks hrest hspells => ?_⟩
  obtain ⟨hend, hname⟩ := (renders_name hn).fills hrest hspells
  have hpoint : Spells .english ('.' :: (n.toList ++ rest)) (.symbol .dot :: .name n :: ks) := .symbol .dot hend hname
  have hapart : Apart ('.' :: (n.toList ++ rest)) := by
    obtain ⟨c, cs, hcons, hc⟩ := exists_of_isWord (Bool.and_eq_true_iff.mp hn).1
    rw [hcons]
    exact apart_point hc
  simpa using h.fills hapart hpoint

theorem fills_unary (op : UnaryOp) (h : Renders cs w) :
    Fills (op.text.toList ++ (if op = .not then [' '] else []) ++ cs) (op.kind :: w) := by
  intro rest ks hrest hspells
  obtain ⟨hend, hoperand⟩ := h.fills hrest hspells
  cases op with
  | plus => exact ⟨endsSymbol_cons rfl, .symbol .plus hend hoperand⟩
  | minus => exact ⟨endsSymbol_cons rfl, .symbol .minus hend hoperand⟩
  | invert => exact ⟨endsSymbol_cons rfl, .symbol .tilde hend hoperand⟩
  | not => exact ⟨endsSymbol_cons rfl, hoperand.spacedKeyword .notKw⟩

theorem fills_conditional {es : List Char} {u : List Kind} (hb : Fills cs w) (ht : Fills ds v) (ho : Fills es u) :
    Fills (cs ++ " if ".toList ++ ds ++ " else ".toList ++ es) (w ++ .keyword .ifKw :: (v ++ .keyword .elseKw :: u)) := by
  intro rest ks hrest hspells
  have helse := ((ho hrest hspells).2.spacedKeyword .elseKw).space
  have hif := ((ht (apart_mark rfl _) helse).2.spacedKeyword .ifKw).space
  simpa [Dialect.spelling, Dialect.englishSpelling] using hb (apart_mark rfl _) hif

theorem fills_commaSeparated {pieces : List (List Char × List Kind)} (h : ∀ p ∈ pieces, Fills p.1 p.2) :
    Fills (commaSeparated (pieces.map (·.1))) (Grammar.separated .comma false (pieces.map (·.2))) := by
  induction pieces with
  | nil => exact fills_nil
  | cons p pieces ih =>
    obtain ⟨hp, hpieces⟩ := List.forall_mem_cons.mp h
    cases pieces with
    | nil => simpa [commaSeparated, Grammar.separated, Grammar.followed] using hp
    | cons q pieces =>
      have hrest := ih hpieces
      have hchars : commaSeparated (((p :: q :: pieces).map (·.1))) =
          p.1 ++ ',' :: ([] ++ ' ' :: commaSeparated ((q :: pieces).map (·.1))) := by
        simp [commaSeparated, List.intercalate]
      rw [hchars]
      exact hp.mark (s := .comma) rfl rfl (fills_nil.space hrest)

end

namespace Expr

theorem charsList_eq_map (es : List Expr) : charsList es = es.map chars := by
  induction es with
  | nil => simp only [charsList, List.map_nil]
  | cons e es ih => simp only [charsList, List.map_cons, ih]

theorem charsEntries_eq_map (es : List (Expr × Expr)) :
    charsEntries es = es.map fun p => p.1.chars ++ ':' :: ' ' :: p.2.chars := by
  induction es with
  | nil => simp only [charsEntries, List.map_nil]
  | cons e es ih => simp only [charsEntries, List.map_cons, ih]

end Expr

section
variable {es : List Expr} (h : ∀ e ∈ es, Renders e.chars e.words)
include h

theorem fills_list : Fills (commaSeparated (es.map Expr.chars)) (Grammar.separated .comma false (es.map Expr.words)) := by
  have hpieces : ∀ p ∈ es.map fun e => (e.chars, e.words), Fills p.1 p.2 := by
    intro p hp
    obtain ⟨e, he, rfl⟩ := List.mem_map.mp hp
    exact (h e he).fills
  have hlist := fills_commaSeparated hpieces
  rwa [List.map_map, List.map_map] at hlist

theorem renders_tuple : Renders (tupleChars (es.map Expr.chars))
    (Expr.parenthesized (Grammar.separated .comma (es.length == 1) (es.map Expr.words))) := by
  match es with
  | [] => exact fills_nil.parenthesized
  | [e] =>
    have he := (h e List.mem_cons_self).fills
    have hcomma : Fills (e.chars ++ [',']) (e.words ++ [.symbol .comma]) := he.mark rfl rfl fills_nil
    simpa [tupleChars, Grammar.separated, Grammar.followed] using hcomma.parenthesized
  | e :: f :: es =>
    have hlist := (fills_list h).parenthesized
    simpa [tupleChars] using hlist

end

theorem fills_entries {es : List (Expr × Expr)} (h : ∀ p ∈ es, Renders p.1.chars p.1.words ∧ Renders p.2.chars p.2.words) :
    Fills (commaSeparated (es.map fun p => p.1.chars ++ ':' :: ' ' :: p.2.chars))
      (Grammar.separated .comma false (es.map fun p => p.1.words ++ .symbol .colon :: p.2.words)) := by
  have hpieces : ∀ x ∈ es.map fun p => (p.1.chars ++ ':' :: ' ' :: p.2.chars, p.1.words ++ .symbol .colon :: p.2.words),
      Fills x.1 x.2 := by
    intro x hx
    obtain ⟨p, hp, rfl⟩ := List.mem_map.mp hx
    obtain ⟨hk, hv⟩ := h p hp
    exact hk.fills.mark rfl rfl (fills_nil.space hv.fills)
  have hlist := fills_commaSeparated hpieces
  rwa [List.map_map, List.map_map] at hlist

mutual

/-- The text of an expression spells its words. -/
theorem renders_chars : (e : Expr) → e.isWritable = true → Renders e.chars e.words
  | .name _ n, h => by
    simp only [Expr.isWritable] at h
    simp only [Expr.chars, Expr.words]
    exact renders_name h
  | .constant _ v, h => by
    simp only [Expr.isWritable] at h
    simp only [Expr.chars, Expr.words]
    exact renders_constant h
  | .attribute _ v a, h => by
    simp only [Expr.isWritable, Bool.and_eq_true] at h
    simp only [Expr.chars, Expr.words]
    exact (renders_chars v h.1).attribute h.2
  | .binary _ op l r, h => by
    simp only [Expr.isWritable, Bool.and_eq_true] at h
    simp only [Expr.chars, Expr.words]
    exact renders_infix op.text [.symbol op.symbol] (renders_chars l h.1).fills (renders_chars r h.2).fills
      fun hrest => hrest.binaryOp op
  | .bool _ op l r, h => by
    simp only [Expr.isWritable, Bool.and_eq_true] at h
    simp only [Expr.chars, Expr.words]
    exact renders_infix op.text [.keyword op.keyword] (renders_chars l h.1).fills (renders_chars r h.2).fills
      fun hrest => hrest.boolOp op
  | .unary _ op e, h => by
    simp only [Expr.isWritable] at h
    simp only [Expr.chars, Expr.words]
    exact (fills_unary op (renders_chars e h)).parenthesized
  | .compare _ op l r, h => by
    simp only [Expr.isWritable, Bool.and_eq_true] at h
    simp only [Expr.chars, Expr.words]
    exact renders_infix op.text op.kinds (renders_chars l h.1).fills (renders_chars r h.2).fills
      fun hrest => hrest.compareOp op
  | .call _ f as, h => by
    simp only [Expr.isWritable, Bool.and_eq_true] at h
    simp only [Expr.chars, Expr.words, Expr.charsList_eq_map, Expr.wordsList_eq_map]
    exact (renders_chars f h.1).append rfl (fills_list (renders_list as h.2)).parenthesized.fills
  | .conditional _ t b o, h => by
    simp only [Expr.isWritable, Bool.and_eq_true] at h
    simp only [Expr.chars, Expr.words]
    exact (fills_conditional (renders_chars b h.1.2).fills (renders_chars t h.1.1).fills
      (renders_chars o h.2).fills).parenthesized
  | .list _ es, h => by
    simp only [Expr.isWritable] at h
    simp only [Expr.chars, Expr.words, Expr.charsList_eq_map, Expr.wordsList_eq_map]
    exact (fills_list (renders_list es h)).bracketed rfl rfl (by decide) rfl
  | .tuple _ es, h => by
    simp only [Expr.isWritable] at h
    simp only [Expr.chars, Expr.words, Expr.charsList_eq_map, Expr.wordsList_eq_map]
    exact renders_tuple (renders_list es h)
  | .dict _ es, h => by
    simp only [Expr.isWritable] at h
    simp only [Expr.chars, Expr.words, Expr.charsEntries_eq_map, Expr.wordsEntries_eq_map]
    exact (fills_entries (renders_entries es h)).bracketed rfl rfl (by decide) rfl

theorem renders_list : (es : List Expr) → Expr.isWritableList es = true → ∀ e ∈ es, Renders e.chars e.words
  | [], _ => fun _ h => nomatch h
  | e :: es, h => by
    simp only [Expr.isWritableList, Bool.and_eq_true] at h
    exact List.forall_mem_cons.mpr ⟨renders_chars e h.1, renders_list es h.2⟩

theorem renders_entries : (es : List (Expr × Expr)) → Expr.isWritableEntries es = true →
    ∀ p ∈ es, Renders p.1.chars p.1.words ∧ Renders p.2.chars p.2.words
  | [], _ => fun _ h => nomatch h
  | (k, v) :: es, h => by
    simp only [Expr.isWritableEntries, Bool.and_eq_true] at h
    exact List.forall_mem_cons.mpr ⟨⟨renders_chars k h.1.1, renders_chars v h.1.2⟩, renders_entries es h.2⟩

end

/-! ### Reading the text -/

theorem words_ne_nil (e : Expr) : e.words ≠ [] := by
  intro hnil
  obtain ⟨w, v, o, hw, ho, -⟩ := Grammar.primary_words e
  obtain ⟨k, u, rfl, -⟩ := ho.begins nofun
  rw [hnil] at hw
  cases hw

/-- The parser reads the text of an expression as that expression and stops at the line break behind it, unless
    more productions than allowed are open at once: those of the expression, a list of tests and a test. -/
theorem testlist_text (e : Expr) (h : e.isWritable = true) :
    ∃ (w : List Token) (marker : Token), marker.kind = .endMarker ∧
      tokenStream .english e.text = (w ++ [Layout.synthetic .newline marker, marker]).map .ok ∧
      ((∃ a d, Parse.testlist { input := tokenStream .english e.text } = .ok a d ∧
          d.Faces [Layout.synthetic .newline marker, marker] ∧ a.bare = e.bare) ∨
        nestingLimit < e.openings + 2 ∧ ∃ err d, Parse.testlist { input := tokenStream .english e.text } = .error err d ∧
          err.fault = .tooDeeplyNested nestingLimit) := by
  obtain ⟨⟨c, cs, hcons, hc⟩, hfills⟩ := renders_chars e h
  have hspells : Spells .english e.chars e.words := by simpa using (hfills apart_nil .nil).2
  have hstart : e.chars.head? ≠ some ' ' := by simpa [hcons] using hc
  obtain ⟨w, marker, hkinds, hmarker, hstream⟩ := tokenStream_of_spells hspells (words_ne_nil e) hstart
  have hstop : Parse.Stops (Parse.listMore Parse.testMore) ([Layout.synthetic .newline marker, marker].map (·.kind)) :=
    Parse.stops_cons rfl
  have hderives : Grammar.Derives .testlist (e.openings + 2) (w.map (·.kind)) e.bare := by
    rw [hkinds]
    exact .only (Grammar.primary_words e).test
  have hstream : tokenStream .english e.text = (w ++ [Layout.synthetic .newline marker, marker]).map .ok := hstream
  refine ⟨w, marker, hmarker, hstream, ?_⟩
  rw [hstream]
  by_cases hdeep : ∃ depth ≤ nestingLimit, Grammar.Derives .testlist depth (w.map (·.kind)) e.bare
  · exact .inl ((Parse.Parses.ok_iff (fun _ => Parse.parses_testlist) hstop fun hm h => h.mono hm).mpr hdeep)
  · refine .inr ⟨Nat.lt_of_not_le fun hle => hdeep ⟨_, hle, hderives⟩, ?_⟩
    exact Parse.Parses.error_of_too_deep (fun _ => Parse.parses_testlist) hstop hderives hdeep

/-- A call on a literal, a tuple of one, a two-word comparison, signs, and a string with marks of its own. -/
def wideExpr : Expr :=
  .conditional {} (.compare {} .isNot (.name {} "x") (.unary {} .not (.name {} "y")))
    (.call {} (.attribute {} (.constant {} (.integer 1)) "real")
      [.tuple {} [.unary {} .minus (.unary {} .minus (.constant {} (.float ⟨0x3FF8000000000000⟩)))],
        .dict {} [(.constant {} (.string "a\"b\\\n\t\x00é\u200b"), .list {} [])]])
    (.binary {} .pow (.tuple {} []) (.constant {} (.float ⟨0x0000000000000001⟩)))

theorem testlist_text_wideExpr : wideExpr.isWritable = true ∧
    ∃ a d marker, Parse.testlist { input := tokenStream .english wideExpr.text } = .ok a d ∧
      d.Faces [Layout.synthetic .newline marker, marker] ∧ a.bare = wideExpr.bare := by
  have h : wideExpr.isWritable = true := by decide
  refine ⟨h, ?_⟩
  obtain ⟨w, marker, -, -, ⟨a, d, hread⟩ | ⟨hdeep, -⟩⟩ := testlist_text wideExpr h
  · exact ⟨a, d, marker, hread⟩
  · exact absurd hdeep (by decide)

end Offside
