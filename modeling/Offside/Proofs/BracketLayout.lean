import Offside.Proofs.CommonBeginning

/-! # Layout inside brackets

While a bracket is open, spaces, line breaks and comments say nothing: behind a token they can be put in and left out,
and the lexer answers the same tokens at other places, up to the same end or the same fault. -/

namespace Offside

/-! ### Filler -/

/-- Spaces, line breaks, and comments that each stand right before a line break. -/
inductive Filler : List Char → Prop
  | nil : Filler []
  | space {w : List Char} : Filler w → Filler (' ' :: w)
  | lineFeed {w : List Char} : Filler w → Filler ('\n' :: w)
  | lineBreak {w : List Char} : Filler w → Filler ('\r' :: '\n' :: w)
  | comment {body w : List Char} : (∀ c ∈ body, c ≠ '\n' ∧ c ≠ '\r') → (∃ c ∈ w.head?, c = '\n' ∨ c = '\r') → Filler w →
    Filler ('#' :: (body ++ w))

section
variable {body w g rest : List Char} {nested : Bool}

/-- A line break ends a comment. -/
theorem gapRun_break (h : ∃ c ∈ w.head?, c = '\n' ∨ c = '\r') (nested : Bool) :
    gapRun nested true w = gapRun nested false w := by
  obtain ⟨c, hc, hbreak⟩ := h
  obtain ⟨cs, rfl⟩ := List.head?_eq_some_iff.mp hc
  rcases hbreak with rfl | rfl
  · rw [gapRun_lineFeed, gapRun_lineFeed]
  · cases cs with
    | nil => rfl
    | cons d cs =>
      by_cases hd : d = '\n'
      · rw [hd, gapRun, gapRun]
      · rw [gapRun_return hd, gapRun_return hd]

/-- A gap goes on behind filler. -/
theorem Filler.gapRun_append (h : Filler w) (rest : List Char) :
    gapRun true false (w ++ rest) = w ++ gapRun true false rest := by
  induction h with
  | nil => rfl
  | space _ ih => simp [gapRun_cons, ih]
  | lineFeed _ ih => simp [gapRun_lineFeed, ih]
  | lineBreak _ ih => simp [gapRun, ih]
  | @comment body w hbody hbreak _ ih =>
    have hbreak' : ∃ c ∈ (w ++ rest).head?, c = '\n' ∨ c = '\r' := by
      obtain ⟨c, hc, hcbreak⟩ := hbreak
      obtain ⟨cs, rfl⟩ := List.head?_eq_some_iff.mp hc
      exact ⟨c, rfl, hcbreak⟩
    rw [List.cons_append, List.append_assoc, gapRun_cons (by decide) (by decide)]
    simp [gapRun_body true hbody, gapRun_break hbreak', ih]

/-- A gap takes filler whole, and so does a comment with a gap behind it. -/
theorem Filler.gapRun_eq (h : Filler w) (comment : Bool) : gapRun true comment w = w := by
  induction h generalizing comment with
  | nil => rfl
  | space _ ih => cases comment <;> simp [gapRun_cons, ih]
  | lineFeed _ ih => simp [gapRun_lineFeed, ih]
  | lineBreak _ ih => simp [gapRun, ih]
  | comment hbody _ _ ih => cases comment <;> simp [gapRun_cons, gapRun_body true hbody, ih]

/-- What is all gap goes on with filler. -/
theorem Filler.gapRun_behind (h : Filler w) (hlast : g.getLast? ≠ some '\r') (hg : gapRun true false g = g) :
    gapRun true false (g ++ w) = g ++ w := by
  cases gapAcross true false hlast with
  | through comment hall => rw [hall, h.gapRun_eq]
  | within hne => exact absurd hg hne

theorem getLast?_cons_ne {c d : Char} (hc : c ≠ d) (h : w.getLast? ≠ some d) : (c :: w).getLast? ≠ some d := by
  rw [List.getLast?_cons]
  cases hlast : w.getLast? with
  | none => simpa using hc
  | some e =>
    rw [hlast] at h
    exact h

/-- A carriage return is in a gap only before a line feed. -/
theorem getLast?_gapRun (nested comment : Bool) (cs : List Char) : (gapRun nested comment cs).getLast? ≠ some '\r' := by
  fun_induction gapRun nested comment cs with
  | case1 comment cs _ ih =>
    rw [List.getLast?_cons_cons]
    exact getLast?_cons_ne (by decide) ih
  | case3 comment cs _ _ ih => exact getLast?_cons_ne (by decide) ih
  | case6 c cs _ _ hreturn ih => exact getLast?_cons_ne hreturn ih
  | case7 comment cs _ _ _ _ ih => exact getLast?_cons_ne (by decide) ih
  | case8 comment cs _ _ _ _ _ ih => exact getLast?_cons_ne (by decide) ih
  | case2 | case4 | case5 | case9 | case10 => simp

/-- What is all gap divides. -/
theorem divides_of_gapRun (h : gapRun nested false g = g) : Divides g := by
  intro c hc
  obtain ⟨cs, rfl⟩ := List.head?_eq_some_iff.mp hc
  by_contra hdivider
  simp only [dividers, List.mem_cons, List.not_mem_nil, or_false, not_or] at hdivider
  obtain ⟨hspace, hcomment, hfeed, hreturn, -⟩ := hdivider
  rw [gapRun_cons hfeed hreturn, if_neg Bool.false_ne_true, if_neg hspace, if_neg hcomment] at h
  cases h

theorem Filler.divides (h : Filler w) (hne : w ≠ []) (rest : List Char) : Divides (w ++ rest) := by
  intro c hc
  rw [List.head?_append_of_ne_nil _ hne] at hc
  exact divides_of_gapRun (h.gapRun_eq false) c hc

end

/-! ### The lexer behind a token -/

namespace Lexer
variable {l l' : Lexer} {source : String} {read : List Char} {t : Token}

/-- A lexer in the middle of a line answers the same from two texts that are the same behind their gaps. -/
theorem leads_facing (hstart : l.lineStart = false) {z : List Char}
    (hgap : z.drop (gapRun l.brackets.nested false z).length = l.skipGap.rest) : (l.facing z).Leads [] l := by
  have hplace : l.skipGap.Displaced (l.facing z).skipGap := .of_eq rfl hgap rfl rfl rfl
  intro fuel
  rw [List.length_nil, Nat.zero_add, List.map_nil, List.nil_append]
  cases fuel with
  | zero => rfl
  | succ fuel =>
    cases hfin : l.finished with
    | true =>
      have hfin' : (l.facing z).finished = true := hfin
      rw [take_finished hfin, take_finished hfin']
    | false =>
      have hfin' : (l.facing z).finished = false := hfin
      have hi : l.indentation? = none := by simp [indentation?, hstart]
      have hi' : (l.facing z).indentation? = none := by simp [indentation?, facing, hstart]
      have hnext : l.next? = some (l.skipGap.significant.1, l.skipGap.significant.2) := next?_significant hfin hi
      have hnext' : (l.facing z).next? = some ((l.facing z).skipGap.significant.1, (l.facing z).skipGap.significant.2) :=
        next?_significant hfin' hi'
      obtain ⟨hitem, hbehind⟩ := hplace.significant
      rw [take_next hnext, take_next hnext', List.map_cons, List.map_cons, hitem, hbehind.take]

/-- While a bracket is open, a token is text or the end marker. -/
theorem isText_of_nested (h : l.next? = some (.ok t, l')) (hn : l'.brackets.nested = true) (ht : t.kind ≠ .endMarker) :
    t.kind.isText = true := by
  cases takes_of_next? h with
  | marker => exact absurd rfl ht
  | spaces _ hflat _ _ hl' =>
    rw [hl'] at hn
    exact absurd hn (by simpa [advance] using hflat)
  | lineBreak hflat _ hl' =>
    rw [hl'] at hn
    exact absurd hn (by simpa [advance] using hflat)
  | text _ _ _ hkind => exact isText_of_kindOf hkind

/-- A token of text is a lexeme behind a gap. -/
theorem next?_text (h : l.next? = some (.ok t, l')) (ht : t.kind.isText = true) : ∃ (x : Lexeme) (n : Nat) (b : Brackets),
    Lexeme.scan? l.skipGap.rest = some (x, n) ∧ t.span = l.skipGap.spanOf n ∧
      l' = { l.skipGap.advance n with brackets := b, lineStart := false } := by
  rcases indentation?_or_finds h with hi | ⟨-, hfinds⟩
  · have heq := eq_of_indentation? hi
    simp only [Prod.mk.injEq, Except.ok.injEq] at heq
    rw [heq.1] at ht
    cases ht
  · cases hfinds with
    | marker => cases ht
    | lineBreak => cases ht
    | text _ hscan _ hl' => exact ⟨_, _, _, hscan, rfl, hl'⟩

theorem Follows.skipGap (h : l.Follows source read) :
    l.skipGap.Follows source (read ++ l.rest.take (gapRun l.brackets.nested false l.rest).length) :=
  h.advance _

/-- What has been read behind a token of text ends where the token does, and not in a carriage return. -/
theorem Follows.next?_text (h : l.Follows source read) (hnext : l.next? = some (.ok t, l')) (ht : t.kind.isText = true) :
    ∃ read', l'.Follows source read' ∧ t.span.stop = byteSize read' ∧ read'.getLast? ≠ some '\r' := by
  obtain ⟨x, n, b, hscan, hspan, rfl⟩ := Lexer.next?_text hnext ht
  have hbehind := h.skipGap.advance n
  refine ⟨_, ⟨hbehind.text, hbehind.offset, hbehind.position⟩, ?_, ?_⟩
  · rw [hspan, ← hbehind.offset]
    rfl
  · have hne : l.skipGap.rest.take n ≠ [] := by
      rw [Ne, List.take_eq_nil_iff, not_or]
      refine ⟨Nat.ne_of_gt (Lexeme.pos_of_scan? hscan), ?_⟩
      intro hnil
      rw [hnil] at hscan
      cases hscan
    have hlast := Lexeme.getLast?_of_scan? hscan
    rw [List.getLast?_append_of_ne_nil _ hne]
    exact hlast

/-- What has been read behind tokens. -/
theorem Follows.pulls {ts : List Token} {n : Nat} (h : l.Follows source read) (hpulls : l.pulls n = (ts.map .ok, l'))
    (hts : ∀ t ∈ ts, t.kind ≠ .endMarker) : ∃ read', l'.Follows source read' := by
  refine invariant_of_pulls (P := fun k => ∃ read, k.Follows source read) hpulls hts
    (fun {k k' t} hnext ht hk => ?_) ⟨read, h⟩
  obtain ⟨read, hk⟩ := hk
  cases cuts_of_next? hnext with
  | token _ _ _ _ hk' => exact ⟨_, hk' ▸ hk.cut _ _ _ _⟩
  | ended => exact absurd rfl ht

/-- Only the beginning of a text has as many bytes as the characters that have been read of it. -/
theorem Follows.beginning {p s : String} (h : l.Follows (p ++ s) read) (hsize : byteSize read = p.utf8ByteSize) :
    p.toList = read ∧ s.toList = l.rest := by
  have hsplit : p.toList ++ s.toList = read ++ l.rest := by rw [← h.text, String.toList_append]
  have hbytes : byteSize p.toList = byteSize read := by rw [hsize, ← utf8ByteSize_ofList, String.ofList_toList]
  have hread : p.toList = read := by
    rw [← charsBefore_byteSize p.toList s.toList, hbytes, hsplit, charsBefore_byteSize]
  rw [hread] at hsplit
  exact ⟨hread, List.append_cancel_left hsplit⟩

end Lexer

/-- What stands behind a token of text can be changed to what divides and is the same behind its gap. -/
theorem content_lex_of_gap {dialect : Dialect} {source source' : String} {read z : List Char} {ts : List Token} {u : Token}
    {k l : Lexer} (hts : ∀ t ∈ ts, t.kind ≠ .endMarker)
    (hpulls : (Lexer.new dialect source).pulls ts.length = (ts.map .ok, k)) (hnext : k.next? = some (.ok u, l))
    (hu : u.kind.isText = true) (hsource : source.toList = read ++ l.rest) (hsource' : source'.toList = read ++ z)
    (hdivides : Divides z) (hgap : z.drop (gapRun l.brackets.nested false z).length = l.skipGap.rest) :
    (lex dialect source').map Item.content = (lex dialect source).map Item.content := by
  have hall : ∀ t ∈ ts ++ [u], t.kind ≠ .endMarker := by
    simp only [List.mem_append, List.mem_singleton]
    rintro t (ht | rfl)
    · exact hts t ht
    · exact ne_endMarker_of_isText hu
  have hlast : ∀ t ∈ (ts ++ [u]).getLast?, t.kind.isText = true := by
    rw [List.getLast?_concat]
    rintro _ ⟨rfl⟩
    exact hu
  have hmany := Lexer.pulls_append hpulls hnext
  obtain ⟨before, hbefore⟩ := (Lexer.follows_new dialect source).pulls hpulls hts
  obtain ⟨read', hread', -, hclean⟩ := hbefore.next?_text hnext hu
  obtain rfl : read = read' := List.append_cancel_right (hsource.symm.trans hread'.text)
  have hstart : l.lineStart = false := by
    obtain ⟨x, n, b, -, -, rfl⟩ := Lexer.next?_text hnext hu
    rfl
  have hnew : (Lexer.new dialect source).facing (read ++ z) = Lexer.new dialect source' := by
    rw [Lexer.new, Lexer.new, hsource']
    rfl
  have hmany' := Lexer.pulls_facing hsource hclean hmany hall (List.nil_append l.rest).symm (.inr hlast)
    fun a x n _ hscan hn => Lexeme.scan?_of_append hscan hn hdivides
  rw [hnew] at hmany'
  -- Both lexers answer the tokens up to here, and then the same but for the places.
  have hleads := Lexer.leads_of_pulls hmany
  have hleads' := (Lexer.leads_of_pulls hmany').trans (Lexer.leads_facing hstart hgap)
  rw [List.append_nil] at hleads'
  have hlex' := hleads'.lex (n := source.toList.length + source'.toList.length + 1) (by omega)
  exact content_of_relocated .unplaced (hlex'.trans (hleads.lex (by omega)).symm)

section
variable {dialect : Dialect} {p w s : String} {ts : List Token} {t : Token} {k l : Lexer}

theorem toList_between (p w s : String) : (p ++ w ++ s).toList = p.toList ++ w.toList ++ s.toList := by
  rw [String.toList_append, String.toList_append]

/-- Filler behind a token of text. -/
theorem content_lex_filler_behind (hw : Filler w.toList) (hts : ∀ t ∈ ts, t.kind ≠ .endMarker)
    (hk : (Lexer.new dialect (p ++ s)).pulls ts.length = (ts.map .ok, k)) (hnext : k.next? = some (.ok t, l))
    (ht : t.kind.isText = true) (hstop : t.span.stop = p.utf8ByteSize) (hnested : l.brackets.nested = true) :
    (lex dialect (p ++ w ++ s)).map Item.content = (lex dialect (p ++ s)).map Item.content := by
  obtain ⟨read, hread⟩ := (Lexer.follows_new dialect (p ++ s)).pulls hk hts
  obtain ⟨read', hread', hsize, -⟩ := hread.next?_text hnext ht
  obtain ⟨rfl, hs⟩ := hread'.beginning (hsize.symm.trans hstop)
  by_cases hempty : w.toList = []
  · rw [String.toList_eq_nil_iff.mp hempty, String.append_empty]
  · refine content_lex_of_gap hts hk hnext ht hread'.text (z := w.toList ++ s.toList) ?_ (hw.divides hempty _) ?_
    · rw [toList_between, List.append_assoc]
    · rw [hnested, hw.gapRun_append, List.length_append, List.drop_length_add_append, hs, ← hnested]
      rfl

/-- Filler at the end of a text. The last token of text stands before a gap there, which goes on with the filler. -/
theorem content_lex_filler_atEnd (hw : Filler w.toList) (hts : ∀ t ∈ ts, t.kind ≠ .endMarker)
    (hk : (Lexer.new dialect (p ++ s)).pulls ts.length = (ts.map .ok, k)) (hnext : k.next? = some (.ok t, l))
    (ht : t.kind = .endMarker) (hstop : t.span.stop = p.utf8ByteSize) (hnested : l.brackets.nested = true) :
    (lex dialect (p ++ w ++ s)).map Item.content = (lex dialect (p ++ s)).map Item.content := by
  obtain ⟨hnil, hspan, rfl⟩ := Lexer.next?_endMarker hnext ht
  have hopen : k.brackets.nested = true := hnested
  have hall : gapRun true false k.rest = k.rest := hopen ▸ Lexer.gapRun_of_skipGap hnil
  have hboth : gapRun true false (k.rest ++ w.toList) = k.rest ++ w.toList :=
    hw.gapRun_behind (hall ▸ getLast?_gapRun true false k.rest) hall
  obtain ⟨read, hread⟩ := (Lexer.follows_new dialect (p ++ s)).pulls hk hts
  have hsize : t.span.stop = k.skipGap.offset := by rw [hspan]; rfl
  obtain ⟨hp, hs⟩ := hread.skipGap.beginning (hread.skipGap.offset.symm.trans (hsize.symm.trans hstop))
  rw [hopen, hall, List.take_length] at hp
  rcases Lexer.nil_or_last_of_pulls hk with rfl | ⟨us, u, j, hu, hus, hj, hlast⟩
  · cases hopen
  · have htext := Lexer.isText_of_nested hlast hopen (hts u hu)
    refine content_lex_of_gap hus hj hlast htext hread.text (z := k.rest ++ w.toList) ?_ (divides_of_gapRun hboth) ?_
    · rw [toList_between, hp, hs, hnil, List.append_nil, List.append_assoc]
    · rw [hopen, hboth, List.drop_length, hnil]

end

/-- Behind a token, while a bracket is open, filler changes no kind of a token and no fault. -/
theorem content_lex_filler (dialect : Dialect) {p w s : String} (hw : Filler w.toList) {n : Nat} {items : List Item}
    {t : Token} {l : Lexer} (hpulls : (Lexer.new dialect (p ++ s)).pulls n = (items ++ [.ok t], l))
    (hstop : t.span.stop = p.utf8ByteSize) (hnested : l.brackets.nested = true) :
    (lex dialect (p ++ w ++ s)).map Item.content = (lex dialect (p ++ s)).map Item.content := by
  obtain ⟨ts, k, -, hts, hk, hnext⟩ := Lexer.pulls_concat hpulls
  by_cases ht : t.kind = .endMarker
  · exact content_lex_filler_atEnd hw hts hk hnext ht hstop hnested
  · exact content_lex_filler_behind hw hts hk hnext (Lexer.isText_of_nested hnext hnested ht) hstop hnested

/-- A call whose brackets do not match, up to the bracket that closes nothing. -/
def crowdedCall : String := "f(a]"

/-- A comment and the start of the next line but one. -/
def pause : String := " # one\r\n\n  "

theorem content_lex_filler_crowdedCall : Filler pause.toList ∧
    ∃ items t l, (Lexer.new .english (crowdedCall ++ ", b\n) $")).pulls 4 = (items ++ [.ok t], l) ∧
      t.span.stop = crowdedCall.utf8ByteSize ∧ l.brackets.nested = true ∧
      (lex .english (crowdedCall ++ pause ++ ", b\n) $")).map Item.content =
        (lex .english (crowdedCall ++ ", b\n) $")).map Item.content := by
  have hpause : Filler pause.toList := .space (@Filler.comment " one".toList _ (by simp) ⟨'\r', rfl, .inr rfl⟩
    (.lineBreak (.lineFeed (.space (.space .nil)))))
  have hpulls : (Lexer.new .english (crowdedCall ++ ", b\n) $")).pulls 4 =
      ([.ok ⟨.name "f", ⟨0, 1, 1, 0⟩, false, false⟩, .ok ⟨.symbol .leftParen, ⟨1, 1, 1, 1⟩, false, false⟩,
        .ok ⟨.name "a", ⟨2, 1, 1, 2⟩, false, false⟩] ++ [.ok ⟨.symbol .rightBracket, ⟨3, 1, 1, 3⟩, false, false⟩],
        { dialect := .english, rest := ", b\n) $".toList, offset := 4, position := ⟨1, 4⟩, brackets := { round := 1 },
          lineStart := false }) := by decide +kernel
  exact ⟨hpause, _, _, _, hpulls, rfl, rfl, content_lex_filler .english hpause hpulls rfl rfl⟩

end Offside
