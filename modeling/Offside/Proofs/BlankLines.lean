import Offside.Proofs.CommonBeginning

/-! # Blank lines

A line without text can be put in before any line that starts outside of brackets: it may hold spaces and a comment,
and the token stream of the text stays the same but for its places. The lexer answers spaces and a line break for it,
or nothing at all where the line break joins others, and the layout passes over both. -/

namespace Offside

/-! ### Blank lines among tokens -/

/-- The kinds of a line without text, or nothing. -/
inductive BlankLine : List Kind → Prop
  | nothing : BlankLine []
  | broken {spaces : List Kind} : (∀ k ∈ spaces, k.isSpaces = true) → BlankLine (spaces ++ [.newline])

/-- The kinds of whole lines. -/
structure WholeLines (ks : List Kind) : Prop where
  kinds : ∀ k ∈ ks, k ≠ .endMarker
  last : ∀ k ∈ ks.getLast?, k = .newline

theorem BlankLine.ne_endMarker {ks : List Kind} (h : BlankLine ks) : ∀ k ∈ ks, k ≠ .endMarker := by
  cases h with
  | nothing => exact List.forall_mem_nil _
  | broken hspaces =>
    rintro k hk rfl
    rcases List.mem_append.mp hk with hk | hk
    · cases hspaces _ hk
    · cases List.mem_singleton.mp hk

namespace Marking

/-- Nothing of a line has been marked, and no colon waits for its line to end. -/
structure Rests (g : Marking) : Prop where
  atLineStart : g.atLineStart = true
  expectation : g.expectation ≠ .maybeBlock

/-- What is remembered after tokens of some kinds. -/
def afterAll (g : Marking) (ks : List Kind) : Marking := ks.foldl after g

variable {g : Marking} {ks : List Kind}

theorem rests_newline (g : Marking) : (g.after .newline).Rests := by
  refine ⟨rfl, ?_⟩
  simp only [after]
  split
  · nofun
  · assumption

theorem Rests.afterAll (hg : g.Rests) (h : WholeLines ks) : (g.afterAll ks).Rests := by
  obtain rfl | ⟨before, k, rfl⟩ := List.eq_nil_or_concat' ks
  · exact hg
  · obtain rfl : k = .newline := h.last k List.getLast?_concat
    rw [Marking.afterAll, List.foldl_append]
    exact rests_newline _

/-- A blank line is not remembered. -/
theorem Rests.afterAll_blank (hg : g.Rests) (h : BlankLine ks) : g.afterAll ks = g := by
  have hspace {k : Kind} (hk : k.isSpaces = true) : g.after k = g := by
    cases k <;> cases hk
    rw [after, ← hg.atLineStart]
  have hbreak : g.after .newline = g := by rw [after, if_neg hg.expectation, ← hg.atLineStart]
  cases h with
  | nothing => rfl
  | @broken spaces hspaces =>
    have hall : spaces.foldl after g = g := by
      induction spaces with
      | nil => rfl
      | cons k spaces ih =>
        obtain ⟨hk, hspaces⟩ := List.forall_mem_cons.mp hspaces
        rw [List.foldl_cons, hspace hk, ih hspaces]
    rw [Marking.afterAll, List.foldl_append, hall]
    exact hbreak

/-- Marks change no kinds, and what follows tokens is marked with what is remembered of them. -/
theorem exists_markAll (g : Marking) (ts : List Token) : ∃ us : List Token, us.map Token.kind = ts.map Token.kind ∧
    ∀ items, g.markAll (ts.map .ok ++ items) = us.map .ok ++ (g.afterAll (ts.map Token.kind)).markAll items := by
  induction ts generalizing g with
  | nil => exact ⟨[], rfl, fun _ => rfl⟩
  | cons t ts ih =>
    obtain ⟨us, hkinds, hitems⟩ := ih (g.after t.kind)
    refine ⟨g.mark t :: us, ?_, fun items => ?_⟩
    · rw [List.map_cons, List.map_cons, g.kind_mark, hkinds]
    · rw [List.map_cons, List.cons_append, markAll, hitems]
      rfl

end Marking

section
variable {ts us : List Token} {items : List Item} {lines more : List Line}

theorem bodyOf_append (h : ∀ k ∈ ts.map Token.kind, k ≠ .endMarker) (items : List Item) :
    bodyOf (ts.map .ok ++ items) = ts ++ bodyOf items ∧ endingOf (ts.map .ok ++ items) = endingOf items := by
  induction ts with
  | nil => exact ⟨rfl, rfl⟩
  | cons t ts ih =>
    obtain ⟨ht, hts⟩ := List.forall_mem_cons.mp h
    obtain ⟨hbody, hending⟩ := ih hts
    simp only [List.map_cons, List.cons_append, bodyOf, endingOf, ht, if_false, hbody, hending, and_self]

theorem lead_append (hne : lines ≠ []) (ts : List Token) (more : List Line) :
    lead ts (lines ++ more) = lead ts lines ++ more := by
  obtain ⟨l, lines, rfl⟩ := List.exists_cons_of_ne_nil hne
  rfl

theorem linesOf_ne_nil (h : ts ≠ []) : linesOf ts ≠ [] := by
  obtain ⟨t, ts, rfl⟩ := List.exists_cons_of_ne_nil h
  by_cases ht : t.kind = .newline
  · rw [linesOf_break ht]
    exact List.cons_ne_nil _ _
  · rw [linesOf_cons ht]
    cases linesOf ts <;> exact List.cons_ne_nil _ _

/-- Behind whole lines a new line begins. -/
theorem linesOf_append (h : ∀ t ∈ ts.getLast?, t.kind = .newline) (us : List Token) :
    linesOf (ts ++ us) = linesOf ts ++ linesOf us := by
  induction ts with
  | nil => rfl
  | cons t ts ih =>
    by_cases hts : ts = []
    · subst hts
      have ht := h t rfl
      rw [List.cons_append, linesOf_break ht, linesOf_break ht]
      rfl
    · have htail : linesOf (ts ++ us) = linesOf ts ++ linesOf us := by
        obtain ⟨u, ts, rfl⟩ := List.exists_cons_of_ne_nil hts
        rw [List.getLast?_cons_cons] at h
        exact ih h
      by_cases ht : t.kind = .newline
      · rw [List.cons_append, linesOf_break ht, linesOf_break ht, htail]
        rfl
      · rw [List.cons_append, linesOf_cons ht, linesOf_cons ht, htail, lead_append (linesOf_ne_nil hts)]

/-- A blank line anywhere among others changes nothing. -/
theorem layLines_append_blank (ending : Item) (stack : List Nat) (unended : Bool) {spaces : List Token}
    (hspaces : ∀ u ∈ spaces, u.kind.isSpaces = true) (br : Option Token) (lines more : List Line) :
    layLines ending stack unended (lines ++ ⟨spaces, br⟩ :: more) = layLines ending stack unended (lines ++ more) := by
  induction lines generalizing stack unended with
  | nil => exact layLines_blank hspaces br
  | cons line lines ih =>
    simp only [List.cons_append, layLines, ih]

theorem layLines_append_blankLine (ending : Item) (stack : List Nat) (unended : Bool) (h : BlankLine (us.map Token.kind))
    (lines : List Line) (ts : List Token) : layLines ending stack unended (lines ++ linesOf (us ++ ts)) =
      layLines ending stack unended (lines ++ linesOf ts) := by
  generalize hkinds : us.map Token.kind = ks at h
  cases h with
  | nothing => rw [List.map_eq_nil_iff.mp hkinds, List.nil_append]
  | @broken spaces hspaces =>
    obtain ⟨vs, ws, rfl, rfl, hws⟩ := List.map_eq_append_iff.mp hkinds
    obtain ⟨t, rfl, ht⟩ := List.map_eq_singleton_iff.mp hws
    have hvs : ∀ u ∈ vs, u.kind.isSpaces = true := List.forall_mem_map.mp hspaces
    have hbreak : ∀ u ∈ vs, u.kind ≠ .newline := fun u hu => ne_newline_of_isSpaces (hvs u hu)
    rw [List.append_assoc, List.singleton_append, linesOf_append_break hbreak ht, layLines_append_blank _ _ _ hvs]

/-- A blank line behind whole lines changes nothing in the layout. -/
theorem layByLines_blank (hts : WholeLines (ts.map Token.kind)) (hus : BlankLine (us.map Token.kind)) (items : List Item) :
    layByLines (markLines (ts.map .ok ++ (us.map .ok ++ items))) = layByLines (markLines (ts.map .ok ++ items)) := by
  obtain ⟨vs, hvs, hmark⟩ := Marking.exists_markAll {} ts
  obtain ⟨ws, hws, hmark'⟩ := Marking.exists_markAll (Marking.afterAll {} (ts.map Token.kind)) us
  have hrests : (Marking.afterAll {} (ts.map Token.kind)).Rests := Marking.Rests.afterAll ⟨rfl, nofun⟩ hts
  rw [markLines, markLines, hmark, hmark, hmark', hrests.afterAll_blank hus]
  rw [← hvs] at hts
  rw [← hws] at hus
  have hlast : ∀ t ∈ vs.getLast?, t.kind = .newline := by
    intro t ht
    refine hts.last t.kind ?_
    rw [List.getLast?_map, ht]
    rfl
  generalize Marking.markAll _ items = marked
  obtain ⟨hbody, hending⟩ := bodyOf_append hts.kinds marked
  obtain ⟨hbody', hending'⟩ := bodyOf_append hts.kinds (ws.map .ok ++ marked)
  obtain ⟨hbody'', hending''⟩ := bodyOf_append hus.ne_endMarker marked
  rw [layByLines, layByLines, hbody, hbody', hbody'', hending, hending', hending'', linesOf_append hlast,
    linesOf_append hlast, layLines_append_blankLine _ _ _ hus]

end

/-! ### Streams without places -/

section
variable (r : Relocation)

theorem bodyOf_relocated (items : List Item) :
    bodyOf (items.map (Item.relocated r)) = (bodyOf items).map (Token.relocated r) := by
  induction items with
  | nil => rfl
  | cons item items ih =>
    cases item with
    | error fault => rfl
    | ok t =>
      simp only [List.map_cons, Item.relocated_ok, bodyOf, Token.kind_relocated, ih]
      split <;> rfl

theorem Ruled.relocated {p : LinePlace} {ts : List Token} (h : Ruled p ts) : Ruled p (ts.map (Token.relocated r)) := by
  induction h with
  | nil p => exact .nil p
  | spaces hk _ ih => exact .spaces hk ih
  | blank hp hk hstart _ ih => exact .blank hp hk hstart ih
  | lineBreak hk hstart _ ih => exact .lineBreak hk hstart ih
  | first hp hk hstart _ ih => exact .first hp hk hstart ih
  | later hk hstart hm _ ih => exact .later hk hstart hm ih

/-- Items at other places are laid out by lines as well. -/
theorem tokenStream_relocated (dialect : Dialect) (source : String) : (tokenStream dialect source).map (Item.relocated r) =
    layByLines (markLines ((lex dialect source).map (Item.relocated r))) := by
  have hmarks : markLines ((lex dialect source).map (Item.relocated r)) =
      (markLines (lex dialect source)).map (Item.relocated r) := Marking.markAll_relocated r {} _
  have hruled : Ruled .start (bodyOf (markLines ((lex dialect source).map (Item.relocated r)))) := by
    rw [hmarks, bodyOf_relocated]
    exact (ruled_markLines dialect source).relocated r
  rw [← layOut_eq_layByLines hruled, hmarks, layOut_relocated]
  rfl

end

/-! ### A line break in the lexer -/

/-- What stands behind the line breaks at the start of a text. -/
def behindBreaks (cs : List Char) : List Char := cs.drop (lineBreakRun cs).length

theorem behindBreaks_lineFeed (cs : List Char) : behindBreaks ('\n' :: cs) = behindBreaks cs := by
  simp [behindBreaks, lineBreakRun]

/-- Outside of brackets there is no line feed in a gap. -/
theorem lineFeed_not_mem_gapRun {nested : Bool} (hflat : nested = false) (comment : Bool) (cs : List Char) :
    '\n' ∉ gapRun nested comment cs := by
  fun_induction gapRun nested comment cs with
  | case1 comment cs hn | case3 comment cs hn => exact absurd hn (by simp [hflat])
  | case6 c cs _ hfeed _ ih => exact List.not_mem_cons_of_ne_of_not_mem (Ne.symm hfeed) ih
  | case7 comment cs _ _ _ _ ih | case8 comment cs _ _ _ _ _ ih =>
    exact List.not_mem_cons_of_ne_of_not_mem (by decide) ih
  | case2 | case4 | case5 | case9 | case10 => exact List.not_mem_nil

/-- Outside of brackets a gap ends on its line, whatever stands behind. -/
theorem gapRun_line {cs : List Char} (hclean : cs.getLast? ≠ some '\r') (hmem : '\n' ∈ cs) (rest : List Char) :
    gapRun false false (cs ++ rest) = gapRun false false cs := by
  cases gapAcross false false hclean with
  | through comment hall =>
    have hself := hall []
    rw [List.append_nil] at hself
    refine absurd ?_ (lineFeed_not_mem_gapRun rfl false cs)
    rw [hself]
    exact List.mem_append_left _ hmem
  | within _ hall => exact hall rest

namespace Lexer
variable {l : Lexer}

/-- A lexer at the start of characters. -/
def fresh (dialect : Dialect) (rest : List Char) : Lexer := { dialect, rest }

/-- A line break that stands nowhere. -/
def breakToken : Token := { kind := .newline, span := {} }

/-- Behind a line break the lexer starts afresh. -/
theorem leads_lineBreak {g rest : List Char} (hfin : l.finished = false) (hflat : l.brackets.nested = false)
    (hi : l.indentation? = none) (hrest : l.rest = g ++ rest) (hgap : gapRun false false (g ++ rest) = g)
    (hbreak : lineBreakRun rest ≠ []) :
    l.Leads [breakToken] (fresh l.dialect (behindBreaks rest)) := by
  have hskip : l.skipGap.rest = rest := by
    rw [skipGap, hflat, hrest, hgap, advance, hrest]
    exact List.drop_left
  have hnext := next?_significant hfin hi
  rw [significant_break (by rwa [hskip])] at hnext
  refine (leads_of_next? hnext).trans (Displaced.leads (.of_eq rfl ?_ (Brackets.eq_of_not_nested hflat) rfl hfin))
  rw [hskip]
  exact congrArg (List.drop _) hskip

end Lexer

/-! ### Blank lines of a text -/

/-- A line without text: spaces, perhaps a comment, and a line feed. -/
inductive BlankText : List Char → Prop
  | spaces (n : Nat) : BlankText (List.replicate n ' ' ++ ['\n'])
  | comment (n : Nat) {body : List Char} : (∀ c ∈ body, c ≠ '\n' ∧ c ≠ '\r') →
    BlankText (List.replicate n ' ' ++ '#' :: (body ++ ['\n']))

theorem spaceRun_replicate (n : Nat) {cs : List Char} (h : cs.head? ≠ some ' ') :
    spaceRun (List.replicate n ' ' ++ cs) = List.replicate n ' ' := by
  have hnone : ∀ c ∈ cs.head?, (c == ' ') = false := by
    intro c hc
    rw [beq_eq_false_iff_ne]
    rintro rfl
    exact h hc
  rw [spaceRun, takeWhile_append_of_head hnone, List.takeWhile_replicate]
  rfl

namespace Lexer
variable {l : Lexer}

theorem next?_indentation {r : Item × Lexer} (hfin : l.finished = false) (hi : l.indentation? = some r) :
    l.next? = some r := by
  simp [next?, hfin, hi]

/-- Spaces that stand nowhere. -/
def spacesToken (width : Nat) : Token := { kind := .whitespace width, span := {} }

/-- Spaces at the start of a line are a token, unless a comment follows. -/
theorem leads_spaces (dialect : Dialect) (n : Nat) {rest : List Char} (hspace : rest.head? ≠ some ' ')
    (hcomment : rest.head? ≠ some '#') : (fresh dialect (List.replicate (n + 1) ' ' ++ rest)).Leads [spacesToken (n + 1)]
      { fresh dialect rest with lineStart := false } := by
  generalize hcs : List.replicate (n + 1) ' ' ++ rest = cs
  have hrun : spaceRun cs = List.replicate (n + 1) ' ' := hcs ▸ spaceRun_replicate (n + 1) hspace
  have hdrop : cs.drop (n + 1) = rest := by simp [← hcs]
  have hi : (fresh dialect cs).indentation? =
      some (.ok { kind := .whitespace (n + 1), span := (fresh dialect cs).spanOf (n + 1) },
        { (fresh dialect cs).advance (n + 1) with lineStart := false }) := by
    simp [indentation?, fresh, hrun, hdrop, Brackets.nested, hcomment]
  exact (leads_of_next? (next?_indentation rfl hi)).trans (Displaced.leads (.of_eq rfl hdrop rfl rfl rfl))

/-- A comment is no token, and neither are the spaces before it. -/
theorem leads_comment (dialect : Dialect) (n : Nat) {body : List Char} (hbody : ∀ c ∈ body, c ≠ '\n' ∧ c ≠ '\r')
    (cs : List Char) : (fresh dialect (List.replicate n ' ' ++ '#' :: body ++ '\n' :: cs)).Leads [breakToken]
      (fresh dialect (behindBreaks ('\n' :: cs))) := by
  have hself : spaceRun (List.replicate n ' ') = List.replicate n ' ' := by
    simpa using @spaceRun_replicate n [] nofun
  have hgap : gapRun false false (List.replicate n ' ' ++ '#' :: body ++ '\n' :: cs) =
      List.replicate n ' ' ++ '#' :: body := by
    rw [List.append_assoc, gapRun_spaces false hself, List.cons_append, gapRun_cons (by decide) (by decide)]
    simp [gapRun_body false hbody, gapRun_lineFeed]
  have hi : (fresh dialect (List.replicate n ' ' ++ '#' :: body ++ '\n' :: cs)).indentation? = none := by
    have hrun : spaceRun (List.replicate n ' ' ++ '#' :: (body ++ '\n' :: cs)) = List.replicate n ' ' :=
      spaceRun_replicate _ nofun
    simp [indentation?, fresh, hrun]
  exact leads_lineBreak rfl rfl hi rfl hgap (by simp [lineBreakRun])

/-- Before `cs` the lexer answers a blank line or nothing, and then what it answers before `cs'`. -/
def BlankBefore (dialect : Dialect) (cs cs' : List Char) : Prop :=
  ∃ ts : List Token, BlankLine (ts.map Token.kind) ∧ (fresh dialect cs).Leads ts (fresh dialect cs')

theorem blankBefore_breaks (dialect : Dialect) (cs : List Char) : BlankBefore dialect cs (behindBreaks cs) := by
  by_cases hbreak : lineBreakRun cs = []
  · refine ⟨[], .nothing, ?_⟩
    rw [behindBreaks, hbreak]
    exact Leads.refl _
  · obtain ⟨c, cs, rfl⟩ : ∃ c ds, cs = c :: ds := by
      refine List.exists_cons_of_ne_nil ?_
      rintro rfl
      exact hbreak rfl
    have hspace : c ≠ ' ' := by
      rintro rfl
      exact hbreak (by simp [lineBreakRun])
    have hcomment : c ≠ '#' := by
      rintro rfl
      exact hbreak (by simp [lineBreakRun])
    have hi : (fresh dialect (c :: cs)).indentation? = none := by simp [indentation?, fresh, spaceRun, hspace]
    exact ⟨[breakToken], @BlankLine.broken [] (List.forall_mem_nil _),
      leads_lineBreak rfl rfl hi (List.nil_append _).symm (gapRun_eq_nil cs hspace hcomment) hbreak⟩

theorem blankBefore_text (dialect : Dialect) {b : List Char} (hb : BlankText b) (cs : List Char) :
    BlankBefore dialect (b ++ cs) (behindBreaks cs) := by
  rw [← behindBreaks_lineFeed]
  cases hb with
  | spaces n =>
    rw [List.append_assoc, List.singleton_append]
    cases n with
    | zero => exact blankBefore_breaks dialect _
    | succ n =>
      have hi : ({ fresh dialect ('\n' :: cs) with lineStart := false } : Lexer).indentation? = none := by
        simp [indentation?]
      have hgap : gapRun false false ([] ++ '\n' :: cs) = [] := gapRun_eq_nil cs (by decide) (by decide)
      have hbreak := leads_lineBreak rfl rfl hi (List.nil_append _).symm hgap (by simp [fresh, lineBreakRun])
      exact ⟨[spacesToken (n + 1), breakToken], @BlankLine.broken [.whitespace (n + 1)] (by simp [Kind.isSpaces]),
        (leads_spaces dialect n (by simp) (by simp)).trans hbreak⟩
  | @comment n body hbody =>
    have hassoc : List.replicate n ' ' ++ '#' :: (body ++ ['\n']) ++ cs =
        List.replicate n ' ' ++ '#' :: body ++ '\n' :: cs := by simp
    rw [hassoc]
    exact ⟨[breakToken], @BlankLine.broken [] (List.forall_mem_nil _), leads_comment dialect n hbody cs⟩

/-- Behind line breaks, a blank line is one as well, or its line break joins them. -/
theorem blankBefore_behindBreaks (dialect : Dialect) {b : List Char} (hb : BlankText b) (cs : List Char) :
    BlankBefore dialect (behindBreaks (b ++ cs)) (behindBreaks cs) := by
  have hkept (h : lineBreakRun (b ++ cs) = []) : behindBreaks (b ++ cs) = b ++ cs := by rw [behindBreaks, h]; rfl
  cases hb with
  | spaces n =>
    cases n with
    | zero =>
      have hjoined : behindBreaks (List.replicate 0 ' ' ++ ['\n'] ++ cs) = behindBreaks cs := behindBreaks_lineFeed cs
      rw [hjoined]
      exact ⟨[], .nothing, Leads.refl _⟩
    | succ n =>
      rw [hkept (by simp [List.replicate_succ, lineBreakRun])]
      exact blankBefore_text dialect (.spaces (n + 1)) cs
  | comment n hbody =>
    rw [hkept (by cases n <;> simp [List.replicate_succ, lineBreakRun])]
    exact blankBefore_text dialect (.comment n hbody) cs

end Lexer

/-! ### Whole lines of a text -/

/-- The lexemes of whole lines do not change with what stands behind them. -/
theorem Lexeme.swaps_line {q : List Char} (h : q.getLast? = some '\n') (cs : List Char) : Swaps q [] cs := by
  intro a x n ha hscan hn
  rw [List.append_nil] at hscan
  have hne : a ≠ [] := by
    rintro rfl
    cases hscan
  obtain ⟨line, rfl⟩ := List.getLast?_eq_some_iff.mp (Lexer.getLast?_of_suffix h ha hne)
  rw [Lexeme.scan?_line (.lineFeed [])] at hscan
  rw [List.append_assoc, List.singleton_append, Lexeme.scan?_line (.lineFeed cs), hscan]

namespace Lexer
variable {l l' : Lexer} {dialect : Dialect} {t : Token} {n : Nat} {ts : List Token}

/-- A gap outside of brackets does not go over a line feed. -/
theorem skipGap_ne_nil (hflat : l.brackets.nested = false) (hmem : '\n' ∈ l.rest) : l.skipGap.rest ≠ [] := by
  intro hnil
  rw [← gapRun_of_skipGap hnil] at hmem
  exact lineFeed_not_mem_gapRun hflat _ _ hmem

theorem length_spaceRun_lt {cs : List Char} (hmem : '\n' ∈ cs) : (spaceRun cs).length < cs.length := by
  have hpre : spaceRun cs <+: cs := List.takeWhile_prefix _
  refine Nat.lt_of_le_of_ne hpre.length_le fun hall => ?_
  rw [← hpre.eq_of_length hall] at hmem
  cases List.mem_takeWhile_imp hmem

/-- The lexer stands before the line breaks at the end of its text. -/
structure AtLastBreaks (l : Lexer) : Prop where
  finished : l.finished = false
  flat : l.brackets.nested = false
  indentation : l.indentation? = none
  last : l.rest.getLast? = some '\n'
  breaks : lineBreakRun l.skipGap.rest = l.skipGap.rest

/-- A token that ends the text with a line feed is a line break. -/
theorem atLastBreaks_of_next? (h : l.next? = some (.ok t, l')) (ht : t.kind ≠ .endMarker)
    (hlast : l.rest.getLast? = some '\n') (hnil : l'.rest = []) (hflat : l'.brackets.nested = false) : l.AtLastBreaks := by
  have hmem : '\n' ∈ l.rest := List.mem_of_getLast? hlast
  have hfin := finished_of_next? h
  rcases indentation?_or_finds h with hi | ⟨hi, hfinds⟩
  · have heq := eq_of_indentation? hi
    simp only [Prod.mk.injEq, Except.ok.injEq] at heq
    have hdrop : l.rest.drop (spaceRun l.rest).length = [] := by rw [← hnil, heq.2]; rfl
    exact absurd (List.drop_eq_nil_iff.mp hdrop) (Nat.not_le_of_lt (length_spaceRun_lt hmem))
  · cases hfinds with
    | marker => exact absurd rfl ht
    | lineBreak _ hl' =>
      rw [hl'] at hnil hflat
      have hdrop : l.skipGap.rest.drop (lineBreakRun l.skipGap.rest).length = [] := hnil
      refine ⟨hfin, hflat, hi, hlast, ?_⟩
      have hsplit := lineBreakRun_append_drop l.skipGap.rest
      rwa [hdrop, List.append_nil] at hsplit
    | @text x n k _ hscan _ hl' =>
      have hsuffix : l.skipGap.rest <:+ l.rest := List.drop_suffix _ _
      have hne : l.skipGap.rest ≠ [] := by
        intro hnone
        rw [hnone] at hscan
        cases hscan
      rw [hl'] at hnil
      have hdrop : l.skipGap.rest.drop n = [] := hnil
      have hfeed := List.mem_of_getLast? (getLast?_of_suffix hlast hsuffix hne)
      rw [← List.take_append_drop n l.skipGap.rest, hdrop, List.append_nil] at hfeed
      exact absurd hfeed (lineFeed_not_mem_scan hscan)

/-- The lexer comes to the end of whole lines over the line breaks there. -/
theorem exists_lastBreaks {p : String} (hp : p.toList.getLast? = some '\n') (h : (new dialect p).pulls n = (ts.map .ok, l))
    (hend : l.next? = none) (hflat : l.brackets.nested = false) : ∃ (us : List Token) (k : Lexer),
      (∀ t ∈ us, t.kind ≠ .endMarker) ∧ (new dialect p).pulls us.length = (us.map .ok, k) ∧ k.AtLastBreaks := by
  have hfin : l.finished = true := by
    by_contra hopen
    obtain ⟨item, l', hnext⟩ := exists_next? (Bool.eq_false_iff.mpr hopen)
    rw [hend] at hnext
    cases hnext
  rcases nil_or_last_of_pulls h with rfl | ⟨us, m, k, -, hus, hk, hnext⟩
  · cases hfin
  -- Only the end marker brings the lexer to its end, and outside of brackets no gap stands before it.
  have hopen := finished_of_next? hnext
  have hm : m.kind = .endMarker := by
    cases cuts_of_next? hnext with
    | token _ _ _ _ hl =>
      rw [hl] at hfin
      exact absurd hfin (Bool.eq_false_iff.mp hopen)
    | ended => rfl
  obtain ⟨hnil, -, hl⟩ := next?_endMarker hnext hm
  have hkflat : k.brackets.nested = false := by rw [hl] at hflat; exact hflat
  have hknil : k.rest = [] := by
    by_contra hne
    have hlast := getLast?_of_suffix hp (shorter_of_pulls hk hus).1 hne
    exact skipGap_ne_nil hkflat (List.mem_of_getLast? hlast) hnil
  rcases nil_or_last_of_pulls hk with rfl | ⟨vs, u, j, hu, hvs, hj, hbefore⟩
  · have hnone : p.toList = [] := hknil
    rw [hnone] at hp
    cases hp
  have hlt := (shorter_of_next? hbefore (hus u hu)).2
  have hne : j.rest ≠ [] := List.ne_nil_of_length_pos (Nat.lt_of_le_of_lt (Nat.zero_le _) hlt)
  have hlast := getLast?_of_suffix hp (shorter_of_pulls hj hvs).1 hne
  exact ⟨vs, j, hvs, hj, atLastBreaks_of_next? hbefore (hus u hu) hlast hknil hkflat⟩

/-- The line breaks at the end of a text go on behind it, and then the lexer starts afresh. -/
theorem AtLastBreaks.leads (h : l.AtLastBreaks) (cs : List Char) :
    (l.facing (l.rest ++ cs)).Leads [breakToken] (fresh l.dialect (behindBreaks cs)) := by
  have hmem : '\n' ∈ l.rest := List.mem_of_getLast? h.last
  have hclean : l.rest.getLast? ≠ some '\r' := by rw [h.last]; nofun
  have hflat := h.flat
  have hi : (l.facing (l.rest ++ cs)).indentation? = none := by
    rw [indentation?_facing (List.append_nil l.rest).symm (length_spaceRun_lt hmem), h.indentation]
    rfl
  have hgap : gapRun false false (l.rest ++ cs) = gapRun false false l.rest := gapRun_line hclean hmem cs
  have hskip : l.skipGap.rest = l.rest.drop (gapRun false false l.rest).length := by rw [skipGap, hflat]; rfl
  have hsplit : l.rest ++ cs = gapRun false false l.rest ++ (l.skipGap.rest ++ cs) := by
    rw [hskip, ← List.append_assoc, gapRun_append_drop]
  have hne := skipGap_ne_nil hflat hmem
  have hlast : l.skipGap.rest.getLast? ≠ some '\r' := getLast?_ne_of_suffix hclean (List.drop_suffix _ _)
  have hrun : lineBreakRun (l.skipGap.rest ++ cs) = l.skipGap.rest ++ lineBreakRun cs := by
    rw [lineBreakRun_append hlast, if_pos h.breaks]
  have hbehind : behindBreaks (l.skipGap.rest ++ cs) = behindBreaks cs := by
    rw [behindBreaks, hrun, List.length_append, List.drop_length_add_append]
    rfl
  rw [← hbehind]
  refine leads_lineBreak h.finished hflat hi hsplit (hsplit ▸ hgap) ?_
  rw [hrun]
  exact List.append_ne_nil_of_left_ne_nil hne _

/-- What stands behind whole lines does not change their tokens. -/
theorem leads_wholeLines {p : String} (hp : p.toList.getLast? = some '\n') (h : (new dialect p).pulls n = (ts.map .ok, l))
    (hend : l.next? = none) (hflat : l.brackets.nested = false) : ∃ us : List Token, WholeLines (us.map Token.kind) ∧
      ∀ cs, (fresh dialect (p.toList ++ cs)).Leads us (fresh dialect (behindBreaks cs)) := by
  obtain ⟨us, k, hus, hpulls, hk⟩ := exists_lastBreaks hp h hend hflat
  have hkinds : (us.map (Token.relocated .unplaced) ++ [breakToken]).map Token.kind = us.map Token.kind ++ [.newline] := by
    rw [List.map_append, List.map_map]
    rfl
  refine ⟨us.map (Token.relocated .unplaced) ++ [breakToken], ?_, fun cs => ?_⟩
  · rw [hkinds]
    refine ⟨fun k hk => ?_, fun k hk => ?_⟩
    · rcases List.mem_append.mp hk with hk | hk
      · obtain ⟨t, ht, rfl⟩ := List.mem_map.mp hk
        exact hus t ht
      · rw [List.mem_singleton.mp hk]
        nofun
    · rw [List.getLast?_concat] at hk
      exact (Option.some.inj hk).symm
  · have hclean : p.toList.getLast? ≠ some '\r' := by rw [hp]; nofun
    have hne : k.rest ≠ [] := List.ne_nil_of_mem (List.mem_of_getLast? hk.last)
    have hmany := pulls_facing (List.append_nil p.toList).symm hclean hpulls hus (List.append_nil k.rest).symm (.inl hne)
      (Lexeme.swaps_line hp cs)
    have hleads := hk.leads cs
    rw [dialect_of_pulls hpulls hus] at hleads
    exact (leads_of_pulls hmany).trans hleads

end Lexer

/-- Texts with the same whole lines at their start and the same characters behind a blank line. -/
theorem content_tokenStream_of_leads {dialect : Dialect} {source source' : String} {ts us us' : List Token} {l : Lexer}
    (hts : WholeLines (ts.map Token.kind)) (hus : BlankLine (us.map Token.kind)) (hus' : BlankLine (us'.map Token.kind))
    (h : (Lexer.new dialect source).Leads (ts ++ us) l) (h' : (Lexer.new dialect source').Leads (ts ++ us') l) :
    (tokenStream dialect source).map Item.content = (tokenStream dialect source').map Item.content := by
  have hlex := h.lex (n := source.toList.length + source'.toList.length + 1) (by omega)
  have hlex' := h'.lex (n := source.toList.length + source'.toList.length + 1) (by omega)
  refine content_of_relocated .unplaced ?_
  rw [tokenStream_relocated, tokenStream_relocated, hlex, hlex', List.map_append, List.map_append, List.append_assoc,
    List.append_assoc, layByLines_blank hts hus, layByLines_blank hts hus']

/-- A blank line before a line that starts outside of brackets changes no kind of a token and no fault. -/
theorem content_tokenStream_blank (dialect : Dialect) {p b s : String} (hp : p = "" ∨ p.toList.getLast? = some '\n')
    {n : Nat} {ts : List Token} {l : Lexer} (hpulls : (Lexer.new dialect p).pulls n = (ts.map .ok, l))
    (hend : l.next? = none) (hflat : l.brackets.nested = false) (hb : BlankText b.toList) :
    (tokenStream dialect (p ++ b ++ s)).map Item.content = (tokenStream dialect (p ++ s)).map Item.content := by
  have hnew (source : String) : Lexer.new dialect source = Lexer.fresh dialect source.toList := rfl
  rcases hp with rfl | hp
  · obtain ⟨us, hus, hleads⟩ := Lexer.blankBefore_text dialect hb s.toList
    obtain ⟨us', hus', hleads'⟩ := Lexer.blankBefore_breaks dialect s.toList
    have hvs : WholeLines (([] : List Token).map Token.kind) := ⟨nofun, nofun⟩
    refine content_tokenStream_of_leads hvs hus hus' (l := Lexer.fresh dialect (behindBreaks s.toList)) ?_ ?_
    · rwa [hnew, String.empty_append, String.toList_append]
    · rwa [hnew, String.empty_append]
  · obtain ⟨vs, hvs, hwhole⟩ := Lexer.leads_wholeLines hp hpulls hend hflat
    obtain ⟨us, hus, hleads⟩ := Lexer.blankBefore_behindBreaks dialect hb s.toList
    have hnone : BlankLine (([] : List Token).map Token.kind) := .nothing
    refine content_tokenStream_of_leads hvs hus hnone (l := Lexer.fresh dialect (behindBreaks s.toList)) ?_ ?_
    · rw [hnew, String.toList_append, String.toList_append, List.append_assoc]
      exact (hwhole _).trans hleads
    · rw [hnew, String.toList_append, List.append_nil]
      exact hwhole _

/-- The head of a block and a blank line. -/
def openedBlock : String := "if a:\n\n"

theorem content_tokenStream_blank_openedBlock : openedBlock.toList.getLast? = some '\n' ∧
    BlankText "    # note\n".toList ∧
    ∃ (ts : List Token) (l : Lexer), (Lexer.new .english openedBlock).pulls 5 = (ts.map .ok, l) ∧
      l.next? = none ∧ l.brackets.nested = false ∧
      (tokenStream .english (openedBlock ++ "    # note\n" ++ "\n  b\n c")).map Item.content =
        (tokenStream .english (openedBlock ++ "\n  b\n c")).map Item.content := by
  have hlast : openedBlock.toList.getLast? = some '\n' := by decide
  have hblank : BlankText "    # note\n".toList := @BlankText.comment 4 " note".toList (by simp)
  have hpulls : (Lexer.new .english openedBlock).pulls 5 =
      ([⟨.keyword .ifKw, ⟨0, 2, 1, 0⟩, false, false⟩, ⟨.name "a", ⟨3, 1, 1, 3⟩, false, false⟩,
        ⟨.symbol .colon, ⟨4, 1, 1, 4⟩, false, false⟩, ⟨.newline, ⟨5, 2, 1, 5⟩, false, false⟩,
        ⟨.endMarker, ⟨7, 0, 3, 0⟩, false, false⟩].map .ok,
        { dialect := .english, rest := [], offset := 7, position := ⟨3, 0⟩, finished := true }) := by decide +kernel
  exact ⟨hlast, hblank, _, _, hpulls, rfl, rfl, content_tokenStream_blank .english (.inr hlast) hpulls rfl rfl hblank⟩

end Offside
