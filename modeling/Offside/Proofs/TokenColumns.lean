import Mathlib.Data.List.DropRight
import Offside.Proofs.BlockBalance
import Offside.Proofs.Spelling

/-! # Where tokens stand

A token comes first on its line when only spaces stand before it there. The stream of a text keeps to the
columns of the text: the first token of a line stands at the width of the innermost open block, a block
opens at a larger column than the blocks around it, and no token behind a colon or a semicolon outside
brackets comes first on its line. -/

namespace Offside

/-! ### Places in a text -/

/-- The characters that take the first `n` bytes of a text. -/
def charsBefore : (n : Nat) → List Char → List Char
  | _, [] => []
  | n, c :: cs => if n = 0 then [] else c :: charsBefore (n - c.utf8Size) cs

/-- The characters behind the last line break. -/
def lastLine (cs : List Char) : List Char := cs.rtakeWhile (· != '\n')

/-- Whether only spaces stand on a line before the byte at an offset. -/
def isFirstOnLine (source : String) (offset : Nat) : Bool :=
  (lastLine (charsBefore offset source.toList)).all (· == ' ')

theorem charsBefore_byteSize (cs ds : List Char) : charsBefore (byteSize cs) (cs ++ ds) = cs := by
  induction cs with
  | nil => cases ds <;> rfl
  | cons c cs ih =>
    have hpos : c.utf8Size + byteSize cs ≠ 0 := by
      have := c.utf8Size_pos
      omega
    rw [byteSize, List.cons_append, charsBefore, if_neg hpos, Nat.add_sub_cancel_left, ih]

theorem lastLine_concat (cs : List Char) (c : Char) :
    lastLine (cs ++ [c]) = if c = '\n' then [] else lastLine cs ++ [c] := by
  by_cases hc : c = '\n' <;> simp [lastLine, hc]

theorem lastLine_append {ds : List Char} (cs : List Char) (h : '\n' ∉ ds) :
    lastLine (cs ++ ds) = lastLine cs ++ ds := by
  induction ds using List.reverseRecOn with
  | nil => simp
  | append_singleton ds d ih =>
    rw [List.mem_append, List.mem_singleton, not_or] at h
    rw [← List.append_assoc, lastLine_concat, if_neg (Ne.symm h.2), ih h.1, List.append_assoc]

theorem column_advance (cs : List Char) : (Position.advance ⟨1, 0⟩ cs).column = (lastLine cs).length := by
  induction cs using List.reverseRecOn with
  | nil => rfl
  | append_singleton cs c ih =>
    rw [Position.advance_append, lastLine_concat]
    by_cases hc : c = '\n' <;> simp [Position.advance, hc]
    exact ih

/-! ### Gaps -/

theorem take_spaceRun (cs : List Char) :
    cs.take (spaceRun cs).length = List.replicate (spaceRun cs).length ' ' ∧
      (cs.drop (spaceRun cs).length).head? ≠ some ' ' := by
  induction cs with
  | nil => exact ⟨rfl, by simp⟩
  | cons c cs ih =>
    by_cases hc : c = ' '
    · simpa [spaceRun, hc, List.replicate_succ] using ih
    · simp [spaceRun, hc]

theorem eq_zero_of_take_spaces {cs : List Char} {n : Nat} (h : cs.take n = List.replicate n ' ')
    (hhead : cs.head? ≠ some ' ') : n = 0 := by
  cases n with
  | zero => rfl
  | succ n =>
    cases cs with
    | nil => simp [List.replicate_succ] at h
    | cons c cs => simp_all [List.replicate_succ]

theorem head?_comment (cs : List Char) :
    ∀ c ∈ (cs.drop (gapRun false true cs).length).head?, c = '\n' ∨ c = '\r' := by
  generalize hcomment : true = comment
  fun_induction gapRun false comment cs <;> simp_all

theorem gapRun_eq_nil {c : Char} (cs : List Char) (hspace : c ≠ ' ') (hcomment : c ≠ '#') :
    gapRun false false (c :: cs) = [] := by
  unfold gapRun
  split <;> simp_all

/-- A gap in front of a token on the same line is made of spaces: a comment goes on to the end of its line. -/
theorem gapRun_eq_spaceRun {cs : List Char} {c : Char}
    (hc : (cs.drop (gapRun false false cs).length).head? = some c) (hline : c ≠ '\n' ∧ c ≠ '\r') :
    gapRun false false cs = spaceRun cs := by
  induction cs with
  | nil => rfl
  | cons d cs ih =>
    by_cases hspace : d = ' '
    · subst hspace
      have hgap : gapRun false false (' ' :: cs) = ' ' :: gapRun false false cs := by simp [gapRun]
      rw [hgap] at hc ⊢
      rw [ih hc]
      rfl
    by_cases hcomment : d = '#'
    · subst hcomment
      have hgap : gapRun false false ('#' :: cs) = '#' :: gapRun false true cs := by simp [gapRun]
      rw [hgap] at hc
      rcases head?_comment cs c hc with rfl | rfl
      · exact absurd rfl hline.1
      · exact absurd rfl hline.2
    · rw [gapRun_eq_nil cs hspace hcomment]
      simp [spaceRun, hspace]

/-- Inside brackets no gap ends before a line break. -/
theorem lineBreakRun_gap (comment : Bool) (cs : List Char) :
    lineBreakRun (cs.drop (gapRun true comment cs).length) = [] := by
  fun_induction gapRun true comment cs <;> simp_all [lineBreakRun]

theorem exists_lineBreakRun {cs : List Char} (h : 0 < (lineBreakRun cs).length) : ∃ ds, lineBreakRun cs = ds ++ ['\n'] := by
  fun_induction lineBreakRun cs with
  | case1 rest ih =>
    by_cases hmore : 0 < (lineBreakRun rest).length
    · obtain ⟨ds, hds⟩ := ih hmore
      exact ⟨'\n' :: ds, by rw [hds]; rfl⟩
    · have hnone : lineBreakRun rest = [] := List.length_eq_zero_iff.mp (by omega)
      exact ⟨[], by rw [hnone]; rfl⟩
  | case2 rest ih =>
    by_cases hmore : 0 < (lineBreakRun rest).length
    · obtain ⟨ds, hds⟩ := ih hmore
      exact ⟨'\r' :: '\n' :: ds, by rw [hds]; rfl⟩
    · have hnone : lineBreakRun rest = [] := List.length_eq_zero_iff.mp (by omega)
      exact ⟨['\r'], by rw [hnone]; rfl⟩
  | case3 => simp at h

/-- A symbol takes the characters of its spelling. -/
theorem Lexeme.take_of_scan? {cs : List Char} {s : Symbol} {n : Nat} (h : scan? cs = some (.symbol s, n)) :
    cs.take n = s.spelling.toList := by
  have hword : word? cs ≠ some (.symbol s, n) := by
    simp only [word?]
    split <;> simp
  have hnumber : number? cs ≠ some (.symbol s, n) := by
    simp only [number?]
    split
    · simp
    · split <;> simp
  have hstring : string? cs ≠ some (.symbol s, n) := by
    unfold string?
    split <;> simp
  have hsymbol : symbol? cs = some (.symbol s, n) := by
    simp [scan?, hword, hnumber, hstring] at h
    exact h.2.2.2
  obtain ⟨t, ht, hst, rfl⟩ := symbol?_eq_some_iff.mp hsymbol
  obtain rfl := Lexeme.symbol.inj hst
  exact (List.prefix_iff_eq_take.mp ht.pre).symm

/-! ### The lexer in its text -/

namespace Lexer
variable {l l' : Lexer} {source : String} {read : List Char}

/-- The lexer has read the characters `read` of a text and stands behind them. -/
structure Follows (l : Lexer) (source : String) (read : List Char) : Prop where
  text : source.toList = read ++ l.rest
  offset : l.offset = byteSize read
  position : l.position = Position.advance ⟨1, 0⟩ read

theorem follows_new (dialect : Dialect) (source : String) : (new dialect source).Follows source [] := ⟨rfl, rfl, rfl⟩

theorem Follows.advance (h : l.Follows source read) (n : Nat) : (l.advance n).Follows source (read ++ l.rest.take n) where
  text := by rw [List.append_assoc, Lexer.advance, List.take_append_drop, h.text]
  offset := by rw [byteSize_append, ← h.offset]; rfl
  position := by rw [Position.advance_append, ← h.position]; rfl

theorem Follows.column (h : l.Follows source read) (n : Nat) : (l.spanOf n).column = (lastLine read).length := by
  rw [← column_advance, ← h.position]
  rfl

theorem Follows.isFirstOnLine (h : l.Follows source read) (n : Nat) :
    isFirstOnLine source (l.spanOf n).offset = (lastLine read).all (· == ' ') := by
  rw [Offside.isFirstOnLine, h.text, spanOf, h.offset, charsBefore_byteSize]

/-- What the lexer takes for its next item, with where it stands before and after. -/
inductive Takes (l l' : Lexer) : Item → Prop
  | fault (fault : Fault) : Takes l l' (.error fault)
  | marker (n : Nat) : l'.finished = true → Takes l l' (.ok { kind := .endMarker, span := (l.advance n).spanOf 0 })
  | spaces {w : Nat} : l.lineStart = true → l.brackets.nested = false → l.rest.take w = List.replicate w ' ' →
    (l.rest.drop w).head? ≠ some ' ' → l' = { l.advance w with lineStart := false } →
    Takes l l' (.ok { kind := .whitespace w, span := l.spanOf w })
  | lineBreak {m n : Nat} {cs : List Char} : l.brackets.nested = false → (l.advance m).rest.take n = cs ++ ['\n'] →
    l' = { (l.advance m).advance n with lineStart := true } →
    Takes l l' (.ok { kind := .newline, span := (l.advance m).spanOf n })
  | text {m n : Nat} {x : Lexeme} {k : Kind} : (l.brackets.nested = false → l.rest.take m = List.replicate m ' ') →
    (l.brackets.nested = false → l.lineStart = true → m = 0) → Lexeme.scan? (l.advance m).rest = some (x, n) →
    l.kindOf x = .ok k → l' = { (l.advance m).advance n with brackets := l.brackets.track k, lineStart := false } →
    Takes l l' (.ok { kind := k, span := (l.advance m).spanOf n })

theorem takes_of_indentation? {item : Item} (h : l.indentation? = some (item, l')) : l.Takes l' item := by
  simp only [indentation?] at h
  split at h
  · next hcond =>
    obtain ⟨hstart, hflat, -⟩ := hcond
    obtain ⟨rfl, rfl⟩ := Prod.mk.inj (Option.some.inj h)
    obtain ⟨htake, hspace⟩ := take_spaceRun l.rest
    exact .spaces hstart hflat htake hspace rfl
  · cases h

theorem kindOf_advance (l : Lexer) (n : Nat) {x : Lexeme} {k : Kind} (h : (l.advance n).kindOf x = .ok k) :
    l.kindOf x = .ok k := by
  cases x with
  | integer ds =>
    simp only [kindOf] at h ⊢
    split at h
    · next hlt => rw [if_pos hlt]; exact h
    · cases h
  | _ => exact h

theorem takes_lexeme {item : Item} {c : Char} {cs : List Char} (hindent : l.indentation? = none)
    (hrest : l.skipGap.rest = c :: cs) (h : l.skipGap.lexeme c = (item, l')) : l.Takes l' item := by
  unfold lexeme at h
  cases hscan : Lexeme.scan? l.skipGap.rest with
  | none =>
    simp only [hscan, fail, Prod.mk.injEq] at h
    exact h.1 ▸ .fault _
  | some r =>
    obtain ⟨x, n⟩ := r
    simp only [hscan] at h
    cases hkind : l.skipGap.kindOf x with
    | error fault =>
      simp only [hkind, fail, Prod.mk.injEq] at h
      exact h.1 ▸ .fault _
    | ok k =>
      simp only [hkind, Prod.mk.injEq] at h
      obtain ⟨rfl, rfl⟩ := h
      have hgap : ¬(c = ' ' ∨ c = '#' ∨ c = '\n' ∨ c = '\r') := by
        intro hc
        rw [hrest, Lexeme.scan?_gap hc] at hscan
        cases hscan
      simp only [not_or] at hgap
      have hhead : (l.rest.drop (gapRun l.brackets.nested false l.rest).length).head? = some c := congrArg List.head? hrest
      have hspaces : l.brackets.nested = false → gapRun l.brackets.nested false l.rest = spaceRun l.rest := by
        intro hflat
        rw [hflat] at hhead ⊢
        exact gapRun_eq_spaceRun hhead hgap.2.2
      refine .text (fun hflat => ?_) (fun hflat hstart => ?_) hscan (kindOf_advance l _ hkind) rfl
      · rw [hspaces hflat]
        exact (take_spaceRun l.rest).1
      · -- Spaces before the first token of a line would have been taken as its indentation.
        rw [hspaces hflat]
        by_contra hne
        rw [hspaces hflat] at hhead
        simp [indentation?, hstart, hflat, hhead, hgap.2.1] at hindent
        exact hne (by rw [hindent]; rfl)

theorem takes_significant {item : Item} (hindent : l.indentation? = none) (h : l.skipGap.significant = (item, l')) :
    l.Takes l' item := by
  unfold significant at h
  cases hrest : l.skipGap.rest with
  | nil =>
    simp only [hrest, Prod.mk.injEq] at h
    obtain ⟨rfl, rfl⟩ := h
    exact .marker _ rfl
  | cons c cs =>
    simp only [hrest] at h
    by_cases hb : 0 < (lineBreakRun (c :: cs)).length
    · simp only [hb, if_true, Prod.mk.injEq] at h
      obtain ⟨rfl, rfl⟩ := h
      obtain ⟨ds, hds⟩ := exists_lineBreakRun hb
      have hflat : l.brackets.nested = false := by
        by_contra hnested
        have hnone := lineBreakRun_gap false l.rest
        rw [← Bool.eq_true_of_not_eq_false hnested] at hnone
        rw [show l.rest.drop (gapRun l.brackets.nested false l.rest).length = c :: cs from hrest] at hnone
        simp [hnone] at hb
      have hpre : lineBreakRun (c :: cs) <+: c :: cs := ⟨_, lineBreakRun_append_drop _⟩
      have htake : l.skipGap.rest.take (lineBreakRun (c :: cs)).length = ds ++ ['\n'] := by
        rw [hrest, ← hds]
        exact (List.prefix_iff_eq_take.mp hpre).symm
      exact .lineBreak hflat htake rfl
    · simp only [hb, if_false] at h
      exact takes_lexeme hindent hrest h

theorem takes_of_next? {item : Item} (h : l.next? = some (item, l')) : l.Takes l' item := by
  unfold next? at h
  by_cases hf : l.finished = true
  · simp [hf] at h
  simp only [hf, Bool.false_eq_true, if_false] at h
  cases hi : l.indentation? with
  | none =>
    rw [hi] at h
    exact takes_significant hi (Option.some.inj h)
  | some r =>
    rw [hi] at h
    obtain rfl := Option.some.inj h
    exact takes_of_indentation? hi

end Lexer

/-! ### Marked tokens in their text -/

theorem Brackets.eq_of_not_nested {b : Brackets} (h : b.nested = false) : b = {} := by
  obtain ⟨round, square, curly⟩ := b
  simp only [nested, Bool.or_eq_false_iff, decide_eq_false_iff_not, Nat.not_lt, Nat.le_zero] at h
  obtain ⟨⟨rfl, rfl⟩, rfl⟩ := h
  rfl

@[simp] theorem Marking.span_mark (g : Marking) (t : Token) : (g.mark t).span = t.span := by
  unfold mark
  split <;> rfl

/-- Whether another statement of the line may follow. -/
def Kind.endsClause : Kind → Bool
  | .symbol .colon | .symbol .semicolon => true
  | _ => false

theorem Kind.exists_of_endsClause {k : Kind} (h : k.endsClause = true) :
    ∃ (s : Symbol) (c : Char), k = .symbol s ∧ s.spelling.toList = [c] ∧ c ≠ '\n' ∧ c ≠ ' ' := by
  unfold endsClause at h
  split at h
  · exact ⟨.colon, ':', rfl, rfl, by decide, by decide⟩
  · exact ⟨.semicolon, ';', rfl, rfl, by decide, by decide⟩
  · cases h

/-- A place between two tokens of a text: before the first token of a line, with the width of the spaces
    so far, or behind a token, with the brackets that are open there. -/
inductive Spot where
  | margin (width : Nat)
  | behind (brackets : Brackets) (last : Kind)

/-- Marked tokens as they follow a spot in a text, all of them from an offset on. -/
inductive Measured (source : String) : Nat → Spot → List Item → Prop
  | nil {lo : Nat} {p : Spot} : Measured source lo p []
  | fault {lo : Nat} {p : Spot} {items : List Item} (fault : Fault) : Measured source lo p (.error fault :: items)
  | marker {lo : Nat} {p : Spot} {t : Token} {items : List Item} : t.kind = .endMarker →
    Measured source lo p (.ok t :: items)
  | spaces {lo w : Nat} {t : Token} {items : List Item} : t.kind = .whitespace w →
    Measured source lo (.margin w) items → Measured source lo (.margin 0) (.ok t :: items)
  | blank {lo w : Nat} {t : Token} {items : List Item} : t.kind = .newline → t.atLineStart = true →
    Measured source lo (.margin 0) items → Measured source lo (.margin w) (.ok t :: items)
  | lineBreak {lo : Nat} {b : Brackets} {k : Kind} {t : Token} {items : List Item} : t.kind = .newline →
    t.atLineStart = false → Measured source lo (.margin 0) items → Measured source lo (.behind b k) (.ok t :: items)
  | first {lo w : Nat} {t : Token} {items : List Item} : t.kind.isText = true → t.atLineStart = true →
    lo ≤ t.span.offset → t.span.column = w → isFirstOnLine source t.span.offset = true →
    Measured source t.span.offset (.behind (({} : Brackets).track t.kind) t.kind) items →
    Measured source lo (.margin w) (.ok t :: items)
  | later {lo : Nat} {b : Brackets} {k : Kind} {t : Token} {items : List Item} : t.kind.isText = true →
    t.atLineStart = false → t.mustIndent = false → lo ≤ t.span.offset →
    (b.nested = false → k.endsClause = true → isFirstOnLine source t.span.offset = false) →
    Measured source t.span.offset (.behind (b.track t.kind) t.kind) items →
    Measured source lo (.behind b k) (.ok t :: items)

/-- The lexer and the marking are at a spot of the text. -/
inductive Stands (source : String) (lo : Nat) (l : Lexer) (g : Marking) : Spot → Prop
  | margin {read : List Char} {w : Nat} : l.Follows source read → lo ≤ l.offset → l.brackets = {} →
    lastLine read = List.replicate w ' ' → (l.lineStart = true → w = 0) →
    (l.lineStart = false → l.rest.head? ≠ some ' ') → g.atLineStart = true → Stands source lo l g (.margin w)
  | behind {read : List Char} {k : Kind} : l.Follows source read → lo ≤ l.offset → l.lineStart = false →
    (k.endsClause = true → ∃ c ∈ lastLine read, c ≠ ' ') → g.atLineStart = false → g.expectation ≠ .block →
    Stands source lo l g (.behind l.brackets k)

theorem stands_new (dialect : Dialect) (source : String) : Stands source 0 (Lexer.new dialect source) {} (.margin 0) :=
  .margin (Lexer.follows_new dialect source) (Nat.zero_le _) rfl rfl (fun _ => rfl) (by simp [Lexer.new]) rfl

section
variable {source : String} {lo : Nat} {l l' : Lexer} {g : Marking} {p : Spot}

theorem Stands.offset (h : Stands source lo l g p) : lo ≤ l.offset := by
  cases h <;> assumption

theorem Stands.follows (h : Stands source lo l g p) : ∃ read, l.Follows source read := by
  cases h <;> exact ⟨_, ‹_›⟩

/-- Behind a line break the margin begins again. -/
theorem stands_lineBreak {read cs : List Char} {m n : Nat} (hf : l.Follows source read) (hflat : l.brackets.nested = false)
    (htake : (l.advance m).rest.take n = cs ++ ['\n']) (hlo : lo ≤ l.offset) (hg : g.atLineStart = true) :
    Stands source lo { (l.advance m).advance n with lineStart := true } g (.margin 0) := by
  have hfollows := (hf.advance m).advance n
  rw [htake, ← List.append_assoc] at hfollows
  have hlo' : lo ≤ ((l.advance m).advance n).offset := by
    rw [Lexer.advance_advance]
    exact Nat.le_trans hlo (Nat.le_add_right _ _)
  refine .margin ⟨hfollows.text, hfollows.offset, hfollows.position⟩ hlo' (Brackets.eq_of_not_nested hflat) ?_
    (fun _ => rfl) (by simp) hg
  rw [lastLine_concat, if_pos rfl]
  rfl

/-- Behind a token the characters of the token stand on the line. -/
theorem stands_text {read : List Char} {m n : Nat} {x : Lexeme} {k : Kind} (hf : l.Follows source read)
    (hscan : Lexeme.scan? (l.advance m).rest = some (x, n)) (hkind : l.kindOf x = .ok k) :
    Stands source (l.advance m).offset { (l.advance m).advance n with brackets := l.brackets.track k, lineStart := false }
      (g.after k) (.behind (l.brackets.track k) k) := by
  have hfollows := (hf.advance m).advance n
  obtain ⟨hstart, hexp⟩ := g.after_text (Lexer.isText_of_kindOf hkind)
  refine .behind (l := { (l.advance m).advance n with brackets := l.brackets.track k, lineStart := false })
    ⟨hfollows.text, hfollows.offset, hfollows.position⟩ (Nat.le_add_right _ _) rfl (fun hk => ?_) hstart hexp
  obtain ⟨s, c, rfl, hspelling, hc⟩ := Kind.exists_of_endsClause hk
  cases Lexer.becomes_of_kindOf hkind
  rw [Lexeme.take_of_scan? hscan, hspelling, lastLine_concat, if_neg hc.1]
  exact ⟨c, by simp, hc.2⟩

/-- Behind the spaces of a line start the margin is as wide as they are. -/
theorem stands_spaces {read : List Char} {w : Nat} (hf : l.Follows source read) (hlo : lo ≤ l.offset) (hb : l.brackets = {})
    (hline : lastLine read = []) (htake : l.rest.take w = List.replicate w ' ')
    (hspace : (l.rest.drop w).head? ≠ some ' ') (hg : g.atLineStart = true) :
    Stands source lo { l.advance w with lineStart := false } g (.margin w) := by
  have hfollows := hf.advance w
  rw [htake] at hfollows
  refine .margin ⟨hfollows.text, hfollows.offset, hfollows.position⟩ (Nat.le_trans hlo (Nat.le_add_right _ _)) hb ?_
    (by simp) (fun _ => hspace) hg
  rw [lastLine_append _ (by simp), hline]
  rfl

/-- A token at the margin is the first of its line. Behind another token it is not, if only spaces stand
    between it and the end of a clause. -/
theorem Stands.measured_text (h : Stands source lo l g p) {m n : Nat} {x : Lexeme} {k : Kind}
    (hgap : l.brackets.nested = false → l.rest.take m = List.replicate m ' ')
    (hfirst : l.brackets.nested = false → l.lineStart = true → m = 0)
    (hscan : Lexeme.scan? (l.advance m).rest = some (x, n)) (hkind : l.kindOf x = .ok k) {items : List Item}
    (hrest : Measured source (l.advance m).offset (.behind (l.brackets.track k) k) items) :
    Measured source lo p (.ok (g.mark { kind := k, span := (l.advance m).spanOf n }) :: items) := by
  have hoff : lo ≤ (l.advance m).offset := Nat.le_trans h.offset (Nat.le_add_right _ _)
  have htext : (g.mark { kind := k, span := (l.advance m).spanOf n }).kind.isText = true := by
    simpa using Lexer.isText_of_kindOf hkind
  cases h with
  | @margin read w hf _ hb hline _ hhead hg =>
    have hflat : l.brackets.nested = false := by rw [hb]; rfl
    obtain rfl : m = 0 := by
      cases hs : l.lineStart with
      | true => exact hfirst hflat hs
      | false => exact eq_zero_of_take_spaces (hgap hflat) (hhead hs)
    have hf : (l.advance 0).Follows source read := hf
    refine .first htext (by simpa using hg) (by rw [Marking.span_mark]; exact hoff) ?_ ?_ ?_
    · simp [hf.column, hline]
    · simp [hf.isFirstOnLine, hline]
    · rw [Marking.span_mark, Marking.kind_mark, ← hb]
      exact hrest
  | @behind read _ hf _ _ hend hg hexp =>
    refine .later htext (by simpa using hg) (Marking.mustIndent_mark hexp rfl) (by rw [Marking.span_mark]; exact hoff) ?_ ?_
    · intro hflat hk
      obtain ⟨c, hmem, hc⟩ := hend hk
      have hline := hf.advance m
      rw [hgap hflat] at hline
      rw [Marking.span_mark, hline.isFirstOnLine, lastLine_append _ (by simp), List.all_eq_false]
      exact ⟨c, List.mem_append_left _ hmem, by simpa using hc⟩
    · rw [Marking.span_mark, Marking.kind_mark]
      exact hrest

theorem measured_take (fuel : Nat) (h : Stands source lo l g p) : Measured source lo p (g.markAll (l.take fuel)) := by
  induction fuel generalizing lo l g p with
  | zero => exact .nil
  | succ fuel ih =>
    cases hnext : l.next? with
    | none =>
      simp only [Lexer.take, hnext]
      exact .nil
    | some r =>
      obtain ⟨item, l'⟩ := r
      simp only [Lexer.take, hnext]
      obtain ⟨read, hf⟩ := h.follows
      cases Lexer.takes_of_next? hnext with
      | fault => exact .fault _
      | marker n => exact .marker (by simp)
      | spaces hstart _ htake hspace hl' =>
        subst hl'
        cases h with
        | margin hf hlo hb hline hzero =>
          obtain rfl := hzero hstart
          exact .spaces (by simp) (ih (stands_spaces hf hlo hb hline htake hspace rfl))
        | behind _ _ hnot => simp [hstart] at hnot
      | lineBreak hflat htake hl' =>
        subst hl'
        have hrest := ih (stands_lineBreak (g := g.after .newline) hf hflat htake h.offset rfl)
        cases h with
        | margin _ _ _ _ _ _ hg => exact .blank (by simp) (by simpa using hg) hrest
        | behind _ _ _ _ hg => exact .lineBreak (by simp) (by simpa using hg) hrest
      | text hgap hfirst hscan hkind hl' =>
        subst hl'
        exact h.measured_text hgap hfirst hscan hkind (ih (stands_text hf hscan hkind))

end

/-! ### The stream in its text -/

/-- What a reader of the stream knows behind some of its tokens: the columns of the open blocks, innermost
    first, the open brackets, the last token of the line and the offset so far. -/
structure Site where
  levels : List Nat := []
  brackets : Brackets := {}
  last : Option Kind := none
  offset : Nat := 0

namespace Site

/-- The place behind one more token. -/
def after (p : Site) (t : Token) : Site :=
  match t.kind with
  | .blockStart => { p with levels := t.span.column :: p.levels }
  | .blockEnd => { p with levels := p.levels.tail }
  | .newline => { p with brackets := {}, last := none }
  | .endMarker | .whitespace _ => p
  | k => { p with brackets := p.brackets.track k, last := some k, offset := t.span.offset }

/-- The column of a token agrees with the blocks and the line in which it stands. -/
structure Fits (source : String) (p : Site) (t : Token) : Prop where
  opens : t.kind = .blockStart → p.levels.headD 0 < t.span.column
  order : t.kind.isText = true → p.offset ≤ t.span.offset
  first : t.kind.isText = true → p.last = none →
    t.span.column = p.levels.headD 0 ∧ isFirstOnLine source t.span.offset = true
  later : t.kind.isText = true → p.brackets.nested = false → ∀ k ∈ p.last, k.endsClause = true →
    isFirstOnLine source t.span.offset = false

variable {p : Site} {t : Token}

theorem after_text (ht : t.kind.isText = true) : p.after t =
    { p with brackets := p.brackets.track t.kind, last := some t.kind, offset := t.span.offset } := by
  cases hk : t.kind <;> simp_all [after, Kind.isText]

theorem after_blockEnd (ht : t.kind = .blockEnd) : p.after t = { p with levels := p.levels.tail } := by
  simp [after, ht]

theorem after_blockStart (ht : t.kind = .blockStart) : p.after t = { p with levels := t.span.column :: p.levels } := by
  simp [after, ht]

theorem after_newline (ht : t.kind = .newline) : p.after t = { p with brackets := {}, last := none } := by
  simp [after, ht]

/-- Tokens that stand for no characters within a line fit everywhere, but for block starts. -/
theorem fits_of_not_text {source : String} (ht : t.kind.isText = false) (hs : t.kind ≠ .blockStart) : p.Fits source t :=
  ⟨fun h => absurd h hs, fun h => by simp [ht] at h, fun h => by simp [ht] at h, fun h => by simp [ht] at h⟩

end Site

/-- Tokens that all fit where they stand. -/
def Laid (source : String) : Site → List Token → Prop
  | _, [] => True
  | p, t :: ts => p.Fits source t ∧ Laid source (p.after t) ts

namespace Layout

/-- The pass agrees with a place on a spot of the text. -/
inductive Agrees (s : Layout) (p : Site) : Spot → Prop
  | margin {w : Nat} : s.depth = w → p.brackets = {} → p.last = none → Agrees s p (.margin w)
  | behind {k : Kind} : s.afterSpaces = false → p.last = some k → Agrees s p (.behind p.brackets k)

/-- A token begins a line at a place, and the items follow it. -/
structure Begins (source : String) (p : Site) (t : Token) (items : List Item) : Prop where
  text : t.kind.isText = true
  brackets : p.brackets = {}
  last : p.last = none
  order : p.offset ≤ t.span.offset
  first : isFirstOnLine source t.span.offset = true
  rest : Measured source t.span.offset (.behind (({} : Brackets).track t.kind) t.kind) items

/-- What the pass may still answer fits a place. -/
inductive Reaches (source : String) (s : Layout) (p : Site) : Prop
  | reading {lo : Nat} {q : Spot} : s.held = none → s.levels.widths = p.levels → s.Agrees p q → p.offset ≤ lo →
    Measured source lo q s.input → Reaches source s p
  | holding {h : Held} : s.held = some h → s.levels.widths = p.levels.drop h.ends → s.afterSpaces = false →
    h.token.span.column = s.levels.top → Begins source p h.token s.input → Reaches source s p
  | closing {h : Held} : s.held = some h → h.token.kind = .endMarker → s.finished = true → Reaches source s p
  | done : s.held = none → s.finished = true → Reaches source s p

/-- An answered token fits, and so does what may follow. -/
def Advances (source : String) (p : Site) (r : Item × Layout) : Prop :=
  ∀ t, r.1 = .ok t → p.Fits source t ∧ r.2.Reaches source (p.after t)

variable {source : String} {s : Layout} {p : Site} {t : Token}

theorem Begins.fits {items : List Item} (h : Begins source p t items) (hcol : t.span.column = p.levels.headD 0) :
    p.Fits source t where
  opens hk := by
    have := h.text
    rw [hk] at this
    cases this
  order _ := h.order
  first _ _ := ⟨hcol, h.first⟩
  later _ _ k hk := by
    rw [h.last] at hk
    cases hk

theorem advances_fail (fault : Fault) : Advances source p (s.fail fault) := by
  intro t h
  cases h

/-- The first token of a line is answered where its column is the innermost one. -/
theorem advances_forward (hh : s.held = none) (hl : s.levels.widths = p.levels) (hspaces : s.afterSpaces = false)
    (hcol : t.span.column = s.levels.top) (hb : Begins source p t s.input) : Advances source p (s.forward t) := by
  intro u hu
  rw [forward_text hb.text] at hu ⊢
  obtain rfl := Except.ok.inj hu
  rw [Levels.top, hl] at hcol
  refine ⟨hb.fits hcol, ?_⟩
  rw [Site.after_text hb.text, hb.brackets]
  exact .reading hh hl (.behind hspaces rfl) (Nat.le_refl _) hb.rest

theorem Reaches.close {h : Held} (hr : s.Reaches source p) (hh : s.held = some h) :
    Advances source p (s.close h.token h.ends) := by
  obtain ⟨ends, t⟩ := h
  cases hr with
  | reading hnone => simp [hnone] at hh
  | @holding h' hsome hl hspaces hcol hb =>
    obtain rfl : h' = ⟨ends, t⟩ := Option.some.inj (hsome.symm.trans hh)
    cases ends with
    | zero => exact advances_forward rfl hl hspaces hcol hb
    | succ ends =>
      intro u hu
      obtain rfl := Except.ok.inj hu
      refine ⟨Site.fits_of_not_text rfl (by simp [synthetic]), ?_⟩
      rw [Site.after_blockEnd rfl]
      exact .holding rfl (hl.trans List.drop_tail.symm) hspaces hcol
        ⟨hb.text, hb.brackets, hb.last, hb.order, hb.first, hb.rest⟩
  | @closing h' hsome hmark hfin =>
    obtain rfl : h' = ⟨ends, t⟩ := Option.some.inj (hsome.symm.trans hh)
    intro u hu
    cases ends with
    | zero =>
      have hmark : t.kind = .endMarker := hmark
      simp only [Layout.close, forward_marker hmark] at hu ⊢
      obtain rfl := Except.ok.inj hu
      exact ⟨Site.fits_of_not_text (by rw [hmark]; rfl) (by simp [hmark]), .done rfl hfin⟩
    | succ ends =>
      obtain rfl := Except.ok.inj hu
      exact ⟨Site.fits_of_not_text rfl (by simp [synthetic]), .closing rfl hmark hfin⟩
  | done hnone => simp [hnone] at hh

theorem advances_finish (hm : t.kind = .endMarker) : Advances source p (s.finish t) := by
  unfold Layout.finish
  split
  · exact advances_fail _
  · dsimp only
    split
    · intro u hu
      obtain rfl := Except.ok.inj hu
      exact ⟨Site.fits_of_not_text rfl (by simp [synthetic]), .closing rfl hm rfl⟩
    · let held : Held := ⟨s.levels.widths.length, t⟩
      have hreaches : Reaches source { s with levels := {}, finished := true, held := some held } p := .closing rfl hm rfl
      have hclose := hreaches.close rfl
      rw [close_held { s with levels := {}, finished := true }] at hclose
      exact hclose

/-- Closing blocks down to a width leaves the block of that width innermost. -/
theorem top_of_closeTo? {l l' : Levels} {w ends : Nat} (h : l.closeTo? w = some (ends, l')) : l'.top = w := by
  obtain ⟨widths⟩ := l
  induction widths generalizing ends l' with
  | nil =>
    rw [Levels.closeTo?_nil] at h
    split at h
    · next hw =>
      obtain ⟨-, rfl⟩ := Prod.mk.inj (Option.some.inj h)
      exact hw.symm
    · cases h
  | cons v widths ih =>
    rw [Levels.closeTo?_cons] at h
    split at h
    · next hv =>
      obtain ⟨-, rfl⟩ := Prod.mk.inj (Option.some.inj h)
      exact hv
    · obtain ⟨⟨n, l''⟩, hr, heq⟩ := Option.map_eq_some_iff.mp h
      obtain ⟨-, rfl⟩ := Prod.mk.inj heq
      exact ih hr

theorem advances_place (hh : s.held = none) (hl : s.levels.widths = p.levels) (hspaces : s.afterSpaces = false)
    (hcol : t.span.column = s.depth) (hstart : t.atLineStart = true) (hb : Begins source p t s.input) :
    Advances source p (s.place t) := by
  simp only [Layout.place, hstart]
  split
  · split
    · exact advances_fail _
    · next hdeep =>
      intro u hu
      obtain rfl := Except.ok.inj hu
      have htop : s.levels.top = p.levels.headD 0 := by rw [Levels.top, hl]
      refine ⟨⟨fun _ => ?_, by simp [synthetic, Kind.isText], by simp [synthetic, Kind.isText], by simp [synthetic, Kind.isText]⟩, ?_⟩
      · show p.levels.headD 0 < t.span.column
        omega
      · rw [Site.after_blockStart rfl]
        exact .holding rfl (by rw [← hcol, ← hl]; rfl) hspaces hcol ⟨hb.text, hb.brackets, hb.last, hb.order, hb.first, hb.rest⟩
  · split
    · next heq =>
      have heq : s.depth = s.levels.top := by simpa using heq
      exact advances_forward hh hl hspaces (hcol.trans heq) hb
    · split
      · exact advances_fail _
      · split
        · exact advances_fail _
        · next ends levels hclose =>
          have hreaches : Reaches source { s with levels, held := some ⟨ends, t⟩ } p := by
            refine .holding rfl ?_ hspaces ?_ hb
            · rw [← hl]
              exact (Levels.of_closeTo? hclose).1
            · exact hcol.trans (top_of_closeTo? hclose).symm
          have hheld := hreaches.close rfl
          rwa [close_held { s with levels }] at hheld

theorem advances_pull {lo : Nat} {q : Spot} {items : List Item} (hh : s.held = none)
    (hl : s.levels.widths = p.levels) (hs : s.Agrees p q) (hlo : p.offset ≤ lo) (hm : Measured source lo q items) :
    Advances source p (s.pull items) := by
  induction hm generalizing s p with
  | nil => exact advances_finish rfl
  | fault fault => exact advances_fail fault
  | marker hk =>
    rw [pull_marker hk]
    exact advances_finish hk
  | spaces hk _ ih =>
    rw [pull_spaces hk]
    cases hs with
    | margin _ hb hlast => exact ih hh hl (.margin rfl hb hlast) hlo
  | blank hk hstart _ ih =>
    rw [pull_blank hk hstart]
    cases hs with
    | margin _ hb hlast => exact ih hh hl (.margin rfl hb hlast) hlo
  | lineBreak hk hstart hm _ =>
    cases hs with
    | behind hspaces hlast =>
      rw [pull_break hk hstart hspaces]
      intro u hu
      obtain rfl := Except.ok.inj hu
      refine ⟨Site.fits_of_not_text (by rw [hk]; rfl) (by simp [hk]), ?_⟩
      rw [Site.after_newline hk]
      exact .reading hh hl (.margin rfl rfl rfl) hlo hm
  | first ht hstart hlo' hcol hfirst hm _ =>
    cases hs with
    | margin hd hb hlast =>
      rw [pull_text ht]
      exact advances_place hh hl rfl (hcol.trans hd.symm) hstart ⟨ht, hb, hlast, Nat.le_trans hlo hlo', hfirst, hm⟩
  | later ht hstart hmust hlo' hline hm _ =>
    cases hs with
    | behind hspaces hlast =>
      rw [pull_text ht, place_later ht hstart hmust]
      intro u hu
      obtain rfl := Except.ok.inj hu
      refine ⟨⟨?_, fun _ => Nat.le_trans hlo hlo', ?_, ?_⟩, ?_⟩
      · intro hk
        rw [hk] at ht
        cases ht
      · intro _ hnone
        simp [hlast] at hnone
      · intro _ hflat k hk
        obtain rfl := Option.some.inj (hlast.symm.trans hk)
        exact hline hflat
      · rw [Site.after_text ht]
        exact .reading hh hl (.behind rfl rfl) (Nat.le_refl _) hm

theorem Reaches.next {s' : Layout} (hr : s.Reaches source p) (h : s.next? = some (.ok t, s')) :
    p.Fits source t ∧ s'.Reaches source (p.after t) := by
  unfold next? at h
  cases hh : s.held with
  | some held =>
    simp only [hh, Option.some.injEq] at h
    have := hr.close hh t (by rw [h])
    rwa [h] at this
  | none =>
    simp only [hh] at h
    split at h
    · cases h
    · next hf =>
      rw [Option.some.injEq] at h
      cases hr with
      | reading _ hl hs hlo hm =>
        have := advances_pull hh hl hs hlo hm t (by rw [h])
        rwa [h] at this
      | holding hsome => simp [hh] at hsome
      | closing hsome => simp [hh] at hsome
      | done _ hfin => exact absurd hfin hf

theorem Reaches.laid (hr : s.Reaches source p) (fuel : Nat) : Laid source p (soundOf (s.take fuel)) := by
  induction fuel generalizing s p with
  | zero => trivial
  | succ fuel ih =>
    cases hnext : s.next? with
    | none =>
      simp only [take, hnext]
      trivial
    | some r =>
      obtain ⟨item, s'⟩ := r
      simp only [take, hnext]
      cases item with
      | error fault => trivial
      | ok t =>
        obtain ⟨hfits, hr'⟩ := hr.next hnext
        exact ⟨hfits, ih hr'⟩

end Layout

/-- The tokens of a stream stand at the columns that the blocks around them have in the text. -/
theorem laid_tokenStream (dialect : Dialect) (source : String) : Laid source {} (soundOf (tokenStream dialect source)) := by
  have hmeasured : Measured source 0 (.margin 0) (markLines (lex dialect source)) :=
    measured_take _ (stands_new dialect source)
  exact Layout.Reaches.laid (.reading rfl rfl (.margin rfl rfl rfl) (Nat.le_refl _) hmeasured) _

end Offside
