import Offside.Proofs.LayoutByLines
import Offside.Proofs.NumberText
import Offside.Proofs.QuotedText
import Offside.Proofs.SymbolTags

/-! # Texts that spell tokens

A text that writes tokens one behind the other, with spaces between some of them, is cut into just these
tokens: each is recognized whole in front of the text behind it. On one line the layout adds a line break
and the end marker and nothing else. -/

namespace Offside

namespace Lexeme

/-! ### Words and symbols -/

/-- Letters, digits and underscores, of which a digit does not come first. -/
def isWord : List Char → Bool
  | [] => false
  | c :: cs => isWordStart c && cs.all isWordChar

theorem wordRun_append {w rest : List Char} (hw : isWord w = true) (hrest : EndsWord rest) : wordRun (w ++ rest) = w := by
  cases w with
  | nil => cases hw
  | cons c cs =>
    simp only [isWord, Bool.and_eq_true, List.all_eq_true] at hw
    have hnone : rest.takeWhile isWordChar = [] := by
      cases rest with
      | nil => rfl
      | cons d ds => simp [hrest d rfl]
    rw [List.cons_append, wordRun, if_pos hw.1, List.takeWhile_append_of_pos hw.2, hnone, List.append_nil]

theorem scan?_word {w : String} {rest : List Char} (hw : isWord w.toList = true) (hrest : EndsWord rest) :
    scan? (w.toList ++ rest) = some (.word w, w.toList.length) := by
  have hne : w.toList.isEmpty = false := by
    cases hl : w.toList with
    | nil => rw [hl] at hw; cases hw
    | cons c cs => rfl
  simp [scan?, word?, wordRun_append hw hrest, hne]

theorem word?_eq_none {c : Char} (hc : isWordStart c = false) (cs : List Char) : word? (c :: cs) = none := by
  simp [word?, wordRun, hc]

theorem number?_eq_none {c : Char} (hc : c.isDigit = false) (cs : List Char) : number? (c :: cs) = none := by
  simp [number?, digitRun, hc]

theorem not_isWordStart_of_isDigit {c : Char} (hc : c.isDigit = true) : isWordStart c = false := by
  simp only [Char.isDigit, Bool.and_eq_true, decide_eq_true_eq, UInt32.le_iff_toNat_le] at hc
  have hnine : '9'.val.toNat < 'A'.val.toNat ∧ '9'.val.toNat < 'a'.val.toNat := by decide
  have hupper : c.isUpper = false := by
    refine decide_eq_false fun h => ?_
    have hle : 'A'.val.toNat ≤ c.val.toNat := UInt32.le_iff_toNat_le.mp h.1
    omega
  have hlower : c.isLower = false := by
    refine Bool.and_eq_false_imp.mpr fun h => ?_
    have hle : 'a'.val.toNat ≤ c.val.toNat := UInt32.le_iff_toNat_le.mp (of_decide_eq_true h)
    omega
  have hscore : c ≠ '_' := by
    rintro rfl
    exact absurd hc (by decide)
  have halpha : c.isAlpha = false := Bool.or_eq_false_iff.mpr ⟨hupper, hlower⟩
  simp [isWordStart, halpha, hscore]

theorem scan?_numeral (n : Numeral) {rest : List Char} (hword : EndsWord rest) (hpoint : fractionRun rest = []) :
    scan? (n.chars ++ rest) = some (n.lexeme, n.chars.length) := by
  obtain ⟨c, cs, hcons⟩ := List.exists_cons_of_ne_nil n.whole_ne_nil
  have hc : c.isDigit = true := n.digits c (by rw [hcons]; exact List.mem_cons_self)
  have hnone : word? (n.chars ++ rest) = none := by
    rw [Numeral.chars, hcons]
    exact word?_eq_none (not_isWordStart_of_isDigit hc) _
  rw [scan?, hnone, number?_chars n hword hpoint]
  rfl

theorem scan?_quotes {cs w : List Char} (h : Text.Quotes cs w) (rest : List Char) :
    scan? (w ++ rest) = some (.string (String.ofList cs), w.length) := by
  have hstring := string?_quotes h rest
  obtain ⟨parts, -, rfl⟩ := h
  rw [scan?, hstring]
  rfl

theorem scan?_string (s : String) (rest : List Char) :
    scan? (Text.quoteChars s.toList ++ rest) = some (.string s, (Text.quoteChars s.toList).length) := by
  rw [scan?_quotes (Text.quotes_quoteChars s.toList), String.ofList_toList]

/-- The characters with which a symbol may go on into another one. -/
def goesOn (c : Char) : Bool := ['=', '*', '<', '>'].contains c

theorem goesOn_of_spelling : ∀ s ∈ Symbol.all, ∀ t ∈ Symbol.all, s.spelling.toList <+: t.spelling.toList →
    (t.spelling.toList.drop s.spelling.toList.length).head?.all goesOn = true := by
  decide +kernel

/-- No symbol begins as a word, a number or a string does. -/
theorem spelling_eq_cons (s : Symbol) :
    ∃ c cs, s.spelling.toList = c :: cs ∧ isWordStart c = false ∧ c.isDigit = false ∧ c ≠ '"' := by
  cases s <;> exact ⟨_, _, rfl, by decide, by decide, by decide⟩

/-- No symbol begins with a symbol and the text behind it. -/
def EndsSymbol (rest : List Char) : Prop := ∀ c ∈ rest.head?, goesOn c = false

/-- A beginning of two texts joined is one of the first, or goes on with the head of the second. -/
theorem prefix_append_cases {ws cs rest : List Char} (h : ws <+: cs ++ rest) :
    ws <+: cs ∨ ∃ c more, rest.head? = some c ∧ ws = cs ++ c :: more := by
  rcases List.prefix_or_prefix_of_prefix h (List.prefix_append cs rest) with hws | ⟨more, rfl⟩
  · exact .inl hws
  · cases more with
    | nil =>
      rw [List.append_nil]
      exact .inl (List.prefix_refl cs)
    | cons c more =>
      obtain ⟨behind, rfl⟩ := (List.prefix_append_right_inj cs).mp h
      exact .inr ⟨c, more, rfl, rfl⟩

theorem EndsSymbol.prefix_append_iff {rest : List Char} (hrest : EndsSymbol rest) (s t : Symbol) :
    t.spelling.toList <+: s.spelling.toList ++ rest ↔ t.spelling.toList <+: s.spelling.toList := by
  refine ⟨fun h => ?_, fun h => h.trans (List.prefix_append _ _)⟩
  rcases prefix_append_cases h with hpre | ⟨c, more, hhead, heq⟩
  · exact hpre
  · have hpre : s.spelling.toList <+: t.spelling.toList := ⟨c :: more, heq.symm⟩
    have hgoes := goesOn_of_spelling s s.mem_all t t.mem_all hpre
    rw [heq, List.drop_left] at hgoes
    exact absurd ((hrest c hhead).symm.trans hgoes) Bool.false_ne_true

theorem symbol?_spelling (s : Symbol) {rest : List Char} (hrest : EndsSymbol rest) :
    symbol? (s.spelling.toList ++ rest) = some (.symbol s, s.spelling.toList.length) := by
  rw [symbol?_congr (hrest.prefix_append_iff s)]
  exact symbol?_eq_some_iff.mpr ⟨s, ⟨List.prefix_refl _, fun _ ht => ht.length_le⟩, rfl, rfl⟩

theorem scan?_symbol (s : Symbol) {rest : List Char} (hrest : EndsSymbol rest) :
    scan? (s.spelling.toList ++ rest) = some (.symbol s, s.spelling.toList.length) := by
  obtain ⟨c, cs, hcons, hstart, hdigit, hquote⟩ := spelling_eq_cons s
  have hstring : string? (c :: (cs ++ rest)) = none := by
    simp [string?, hquote]
  rw [scan?, symbol?_spelling s hrest, hcons, List.cons_append, word?_eq_none hstart, number?_eq_none hdigit, hstring]
  rfl

/-- What stands between tokens begins none of them. -/
theorem scan?_gap {c : Char} (hc : c = ' ' ∨ c = '#' ∨ c = '\n' ∨ c = '\r') (cs : List Char) : scan? (c :: cs) = none := by
  rcases hc with rfl | rfl | rfl | rfl
  · rfl
  · rfl
  · rfl
  · rfl

end Lexeme

/-! ### Spelled tokens -/

/-- The kind that a lexeme stands for in a dialect. -/
def Lexeme.Means (dialect : Dialect) (lexeme : Lexeme) (k : Kind) : Prop :=
  ∀ l : Lexer, l.dialect = dialect → l.kindOf lexeme = .ok k

/-- A text spells tokens of the given kinds, with nothing but spaces between them. -/
inductive Spells (dialect : Dialect) : List Char → List Kind → Prop
  | nil : Spells dialect [] []
  | space {cs : List Char} {ks : List Kind} : Spells dialect cs ks → Spells dialect (' ' :: cs) ks
  | token {cs rest : List Char} {lexeme : Lexeme} {k : Kind} {ks : List Kind} :
    Lexeme.scan? (cs ++ rest) = some (lexeme, cs.length) → cs ≠ [] → lexeme.Means dialect k → Spells dialect rest ks →
    Spells dialect (cs ++ rest) (k :: ks)

namespace Lexer
variable {l : Lexer}

theorem advance_advance (m n : Nat) : (l.advance m).advance n = l.advance (m + n) := by
  have htake : l.rest.take (m + n) = l.rest.take m ++ (l.rest.drop m).take n := List.take_add
  simp only [advance, htake, byteSize_append, Position.advance_append, List.drop_drop, Nat.add_assoc]

theorem advance_zero : l.advance 0 = l := rfl

/-- A space in front of a token is a gap like any other. -/
theorem skipGap_space {cs : List Char} (h : l.rest = ' ' :: cs) : l.skipGap = (l.advance 1).skipGap := by
  have hrest : (l.advance 1).rest = cs := by simp [advance, h]
  have hgap : gapRun l.brackets.nested false (' ' :: cs) = ' ' :: gapRun l.brackets.nested false cs := by
    simp [gapRun]
  unfold skipGap
  rw [hrest, advance_advance, h, hgap, List.length_cons, Nat.add_comm 1]
  rfl

theorem next?_space {cs : List Char} (h : l.rest = ' ' :: cs) (hs : l.lineStart = false) :
    l.next? = (l.advance 1).next? := by
  have hnone : ∀ k : Lexer, k.lineStart = false → k.indentation? = none := by
    intro k hk
    simp [indentation?, hk]
  have hadvance : (l.advance 1).indentation? = none := hnone _ hs
  unfold next?
  rw [hnone l hs, hadvance, skipGap_space h]
  rfl

theorem indentation?_eq_none (h : l.rest.head? ≠ some ' ') : l.indentation? = none := by
  have hwidth : (spaceRun l.rest).length = 0 := by
    cases hrest : l.rest with
    | nil => rfl
    | cons c cs =>
      rw [hrest] at h
      have hc : c ≠ ' ' := by simpa using h
      simp [spaceRun, hc]
  simp [indentation?, hwidth]

theorem next?_token {cs rest : List Char} {x : Lexeme} {k : Kind} (hrest : l.rest = cs ++ rest) (hne : cs ≠ [])
    (hscan : Lexeme.scan? (cs ++ rest) = some (x, cs.length)) (hmeans : x.Means l.dialect k) (hf : l.finished = false) :
    l.next? = some (.ok { kind := k, span := l.spanOf cs.length },
      { l.advance cs.length with brackets := l.brackets.track k, lineStart := false }) := by
  obtain ⟨c, ds, rfl⟩ := List.exists_cons_of_ne_nil hne
  rw [List.cons_append] at hrest hscan
  have hgap : ¬(c = ' ' ∨ c = '#' ∨ c = '\n' ∨ c = '\r') := by
    intro hc
    rw [Lexeme.scan?_gap hc] at hscan
    cases hscan
  simp only [not_or] at hgap
  obtain ⟨hspace, hcomment, hfeed, hreturn⟩ := hgap
  have hrun : gapRun l.brackets.nested false (c :: (ds ++ rest)) = [] := by
    simp [gapRun, hspace, hcomment, hfeed, hreturn]
  have hskip : l.skipGap = l := by
    rw [skipGap, hrest, hrun, List.length_nil, advance_zero]
  have hbreak : lineBreakRun (c :: (ds ++ rest)) = [] := by
    simp [lineBreakRun, hfeed, hreturn]
  have hindent : l.indentation? = none := indentation?_eq_none (by simp [hrest, hspace])
  have hsignificant : l.significant = l.lexeme c := by
    simp [significant, hrest, hbreak]
  simp [next?, hf, hindent, hskip, hsignificant, lexeme, hrest, hscan, hmeans l rfl]

theorem next?_end (hrest : l.rest = []) (hf : l.finished = false) :
    l.next? = some (.ok { kind := .endMarker, span := l.spanOf 0 }, { l with finished := true }) := by
  have hskip : l.skipGap = l := by
    rw [skipGap, hrest]
    exact advance_zero
  have hindent : l.indentation? = none := indentation?_eq_none (by simp [hrest])
  simp [next?, hf, hindent, hskip, significant, hrest]

/-- The lexer answers a text that spells tokens with these tokens and the end marker. -/
theorem take_of_spells {dialect : Dialect} {cs : List Char} {ks : List Kind} (h : Spells dialect cs ks)
    (hd : l.dialect = dialect) (hrest : l.rest = cs) (hs : l.lineStart = false ∨ cs.head? ≠ some ' ')
    (hf : l.finished = false) {fuel : Nat} (hfuel : cs.length < fuel) :
    ∃ ts : List Token, l.take fuel = ts.map .ok ∧ ts.map (·.kind) = ks ++ [.endMarker] ∧ ∀ t ∈ ts, t.mustIndent = false := by
  induction h generalizing l fuel with
  | nil =>
    obtain ⟨fuel, rfl⟩ := Nat.exists_eq_add_of_lt hfuel
    refine ⟨[{ kind := .endMarker, span := l.spanOf 0 }], ?_, rfl, by simp⟩
    have hdone : ∀ n, take n { l with finished := true } = [] := by
      intro n
      cases n <;> simp [take, next?]
    simp only [List.length_nil, Nat.zero_add, take, next?_end hrest hf, hdone]
    rfl
  | @space cs ks h ih =>
    have hstart : l.lineStart = false := hs.resolve_right (by simp)
    have hadvance : (l.advance 1).rest = cs := by simp [advance, hrest]
    obtain ⟨fuel, rfl⟩ : ∃ n, fuel = n + 1 := ⟨fuel - 1, by omega⟩
    have htake : l.take (fuel + 1) = (l.advance 1).take (fuel + 1) := by
      simp only [take, next?_space hrest hstart]
    rw [htake]
    refine ih (l := l.advance 1) hd hadvance (.inl hstart) hf ?_
    simp only [List.length_cons] at hfuel
    omega
  | @token cs rest x k ks hscan hne hmeans h ih =>
    obtain ⟨fuel, rfl⟩ : ∃ n, fuel = n + 1 := ⟨fuel - 1, by omega⟩
    subst hd
    have hpos := List.length_pos_iff.mpr hne
    rw [List.length_append] at hfuel
    have hadvance : (l.advance cs.length).rest = rest := by simp [advance, hrest]
    have hless : rest.length < fuel := by omega
    obtain ⟨ts, hts, hkinds, hmust⟩ :=
      ih (l := { l.advance cs.length with brackets := l.brackets.track k, lineStart := false }) rfl hadvance (.inl rfl) hf hless
    refine ⟨{ kind := k, span := l.spanOf cs.length } :: ts, ?_, ?_, ?_⟩
    · simp only [take, next?_token hrest hne hscan hmeans hf, hts]
      rfl
    · rw [List.map_cons, hkinds]
      rfl
    · exact List.forall_mem_cons.mpr ⟨rfl, hmust⟩

end Lexer

/-! ### One line -/

theorem Spells.isText {dialect : Dialect} {cs : List Char} {ks : List Kind} (h : Spells dialect cs ks) :
    ∀ k ∈ ks, k.isText = true := by
  induction h with
  | nil => exact fun _ h => nomatch h
  | space _ ih => exact ih
  | token _ _ hmeans _ ih =>
    refine List.forall_mem_cons.mpr ⟨?_, ih⟩
    exact Lexer.isText_of_kindOf (hmeans { dialect, rest := [] } rfl)

/-- Without line breaks no token has to open a block. -/
theorem Marking.markAll_line {ts : List Token} {g : Marking} (hg : g.expectation ≠ .block)
    (hts : ∀ t ∈ ts, t.kind ≠ .newline) (hm : ∀ t ∈ ts, t.mustIndent = false) :
    ∃ us : List Token, g.markAll (ts.map .ok) = us.map .ok ∧ us.map (·.kind) = ts.map (·.kind) ∧
      ∀ u ∈ us, u.mustIndent = false := by
  induction ts generalizing g with
  | nil => exact ⟨[], rfl, rfl, hm⟩
  | cons t ts ih =>
    obtain ⟨ht, hts⟩ := List.forall_mem_cons.mp hts
    obtain ⟨hmt, hm⟩ := List.forall_mem_cons.mp hm
    have hafter : (g.after t.kind).expectation ≠ .block := by
      unfold after
      split
      · simp
      · next hk => exact absurd hk ht
      · exact hg
      · simp
    obtain ⟨us, hus, hkinds, hmust⟩ := ih hafter hts hm
    refine ⟨g.mark t :: us, ?_, ?_, ?_⟩
    · simp only [List.map_cons, markAll, hus]
    · simp only [List.map_cons, kind_mark, hkinds]
    · exact List.forall_mem_cons.mpr ⟨mustIndent_mark hg hmt, hmust⟩

theorem bodyOf_line {ts : List Token} (hts : ∀ t ∈ ts, t.kind.isText = true) {marker : Token}
    (hm : marker.kind = .endMarker) :
    bodyOf ((ts ++ [marker]).map .ok) = ts ∧ endingOf ((ts ++ [marker]).map .ok) = .ok marker := by
  induction ts with
  | nil => simp [bodyOf, endingOf, hm]
  | cons t ts ih =>
    obtain ⟨ht, hts⟩ := List.forall_mem_cons.mp hts
    have hne : t.kind ≠ .endMarker := by
      intro he
      rw [he] at ht
      cases ht
    simpa [bodyOf, endingOf, hne] using ih hts

theorem linesOf_line {t : Token} {ts : List Token} (hts : ∀ u ∈ t :: ts, u.kind.isText = true) :
    linesOf (t :: ts) = [⟨t :: ts, none⟩] := by
  induction ts generalizing t with
  | nil => rw [linesOf_cons (ne_newline_of_isText (hts t List.mem_cons_self))]; rfl
  | cons u ts ih =>
    obtain ⟨ht, hts⟩ := List.forall_mem_cons.mp hts
    rw [linesOf_cons (ne_newline_of_isText ht), ih hts]
    rfl

/-- The layout of one line at the left margin is its tokens, a line break and the end marker. -/
theorem layByLines_line {ts : List Token} (hne : ts ≠ []) (hts : ∀ t ∈ ts, t.kind.isText = true) {marker : Token}
    (hm : marker.kind = .endMarker) (hmust : ∀ t ∈ ts ++ [marker], t.mustIndent = false) :
    layByLines ((ts ++ [marker]).map .ok) = (ts ++ [Layout.synthetic .newline marker, marker]).map .ok := by
  obtain ⟨t, ts, rfl⟩ := List.exists_cons_of_ne_nil hne
  obtain ⟨hbody, hending⟩ := bodyOf_line hts hm
  have htext : (Line.mk (t :: ts) none).text = t :: ts := by
    refine List.filter_eq_self.mpr fun u hu => ?_
    rw [not_isSpaces_of_isText (hts u hu)]
    rfl
  have hwidth : (Line.mk (t :: ts) none).width = 0 := by
    have ht := hts t List.mem_cons_self
    cases hk : t.kind <;> simp_all [Line.width, Kind.width, Kind.isText]
  have hfirst : t.mustIndent = false := hmust t (by simp)
  have hlast : marker.mustIndent = false := hmust marker (by simp)
  rw [layByLines, hbody, hending, linesOf_line hts]
  simp [layLines, htext, hwidth, turn, hfirst, hlast, marksAt, Line.handed, closing]

/-- The stream of a text that spells tokens on one line. -/
theorem tokenStream_of_spells {dialect : Dialect} {cs : List Char} {ks : List Kind} (h : Spells dialect cs ks)
    (hne : ks ≠ []) (hs : cs.head? ≠ some ' ') :
    ∃ (ts : List Token) (marker : Token), ts.map (·.kind) = ks ∧ marker.kind = .endMarker ∧
      tokenStream dialect (String.ofList cs) = (ts ++ [Layout.synthetic .newline marker, marker]).map .ok := by
  have hrest : (Lexer.new dialect (String.ofList cs)).rest = cs := by simp [Lexer.new]
  obtain ⟨ts, hts, hkinds, hmust⟩ := Lexer.take_of_spells h rfl hrest (.inr hs) rfl (Nat.lt_succ_self _)
  have hlex : lex dialect (String.ofList cs) = ts.map .ok := by
    rw [lex, Lexer.items, hrest]
    exact hts
  have hbreaks : ∀ t ∈ ts, t.kind ≠ .newline := by
    intro t ht
    have hk : t.kind ∈ ks ++ [.endMarker] := hkinds ▸ List.mem_map_of_mem ht
    rcases List.mem_append.mp hk with hk | hk
    · exact ne_newline_of_isText (h.isText _ hk)
    · rw [List.mem_singleton.mp hk]
      nofun
  obtain ⟨us, hus, hmarked, hmust⟩ := Marking.markAll_line (g := {}) nofun hbreaks hmust
  rw [hkinds] at hmarked
  obtain ⟨vs, ms, rfl, hvs, hms⟩ := List.map_eq_append_iff.mp hmarked
  obtain ⟨marker, rfl, hmarker⟩ := List.map_eq_singleton_iff.mp hms
  have htext : ∀ t ∈ vs, t.kind.isText = true := fun t ht => h.isText _ (hvs ▸ List.mem_map_of_mem ht)
  have hmarks : markLines (lex dialect (String.ofList cs)) = (vs ++ [marker]).map .ok := by
    rw [hlex]
    exact hus
  have hlines := layOut_eq_layByLines (ruled_markLines dialect (String.ofList cs))
  refine ⟨vs, marker, hvs, hmarker, ?_⟩
  have hvne : vs ≠ [] := by
    rintro rfl
    exact hne hvs.symm
  rw [tokenStream, hlines, hmarks, layByLines_line hvne htext hmarker hmust]

end Offside
