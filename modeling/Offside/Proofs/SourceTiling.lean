import Offside.Proofs.TokenColumns

/-! # Tokens tile the text

The lexer cuts a text into gaps and tokens that follow each other without anything left out. A gap is made of
spaces and comments, and of line breaks too while a bracket is open. The last item stands for no characters: it
is the end marker, or the fault at the first character that is neither. All places in lines and columns are
those of the characters before. -/

namespace Offside

/-! ### Gaps -/

/-- Characters between two items, in front of the rest of a text. A comment ends where its line does. -/
inductive Gap (nested : Bool) : List Char → List Char → Prop
  | nil {rest : List Char} : Gap nested [] rest
  | space {cs rest : List Char} : Gap nested cs rest → Gap nested (' ' :: cs) rest
  | comment {body cs rest : List Char} : (∀ c ∈ body, c ≠ '\n' ∧ c ≠ '\r') →
    (∀ c ∈ (cs ++ rest).head?, c = '\n' ∨ c = '\r') → Gap nested cs rest → Gap nested ('#' :: (body ++ cs)) rest
  | lineFeed {cs rest : List Char} : nested = true → Gap nested cs rest → Gap nested ('\n' :: cs) rest
  | lineBreak {cs rest : List Char} : nested = true → Gap nested cs rest → Gap nested ('\r' :: '\n' :: cs) rest

/-- What may follow behind the first character of a comment: the rest of it and a gap. -/
structure Trails (nested : Bool) (cs rest : List Char) : Prop where
  split : ∃ body gap, cs = body ++ gap ∧ (∀ c ∈ body, c ≠ '\n' ∧ c ≠ '\r') ∧
    (∀ c ∈ (gap ++ rest).head?, c = '\n' ∨ c = '\r') ∧ Gap nested gap rest

section
variable {nested : Bool} {cs rest : List Char}

theorem Trails.of_gap (h : Gap nested cs rest) (hline : ∀ c ∈ (cs ++ rest).head?, c = '\n' ∨ c = '\r') :
    Trails nested cs rest :=
  ⟨[], cs, rfl, nofun, hline, h⟩

theorem Trails.cons {c : Char} (h : Trails nested cs rest) (hc : c ≠ '\n' ∧ c ≠ '\r') : Trails nested (c :: cs) rest := by
  obtain ⟨body, gap, rfl, hbody, hline, hgap⟩ := h
  exact ⟨c :: body, gap, rfl, List.forall_mem_cons.mpr ⟨hc, hbody⟩, hline, hgap⟩

theorem Trails.gap (h : Trails nested cs rest) : Gap nested ('#' :: cs) rest := by
  obtain ⟨body, gap, rfl, hbody, hline, hgap⟩ := h
  exact .comment hbody hline hgap

end

/-- What the lexer skips is a gap, and inside a comment the rest of it and a gap. -/
theorem gap_gapRun (nested comment : Bool) (cs : List Char) :
    (comment = false → Gap nested (gapRun nested comment cs) (cs.drop (gapRun nested comment cs).length)) ∧
      (comment = true → Trails nested (gapRun nested comment cs) (cs.drop (gapRun nested comment cs).length)) := by
  -- A line break ends a comment, so there both are the same.
  have both : ∀ {comment : Bool} {cs rest : List Char}, Gap nested cs rest →
      (∀ c ∈ (cs ++ rest).head?, c = '\n' ∨ c = '\r') →
      (comment = false → Gap nested cs rest) ∧ (comment = true → Trails nested cs rest) :=
    fun h hline => ⟨fun _ => h, fun _ => .of_gap h hline⟩
  fun_induction gapRun nested comment cs with
  | case1 comment rest hn ih => exact both (.lineBreak hn (ih.1 rfl)) (by simp)
  | case2 comment rest hn => exact both .nil (by simp)
  | case3 comment rest hn _ ih => exact both (.lineFeed hn (ih.1 rfl)) (by simp)
  | case4 comment rest hn => exact both .nil (by simp)
  | case5 comment rest => exact both .nil (by simp)
  | case6 c rest _ hn hr ih => exact ⟨by simp, fun _ => (ih.2 rfl).cons ⟨hn, hr⟩⟩
  | case7 comment rest hc _ _ _ ih => exact ⟨fun _ => .space (ih.1 rfl), fun h => absurd h hc⟩
  | case8 comment rest hc _ _ _ _ ih => exact ⟨fun _ => (ih.2 rfl).gap, fun h => absurd h hc⟩
  | case9 comment c rest _ _ _ hc => exact ⟨fun _ => .nil, fun h => absurd h hc⟩
  | case10 comment => exact both .nil (by simp)

/-- A gap goes on as far as it can. -/
theorem head?_gapRun (nested comment : Bool) (cs : List Char) :
    ∀ c ∈ (cs.drop (gapRun nested comment cs).length).head?, c ≠ ' ' ∧ c ≠ '#' := by
  fun_induction gapRun nested comment cs <;> simp_all

/-! ### Lexemes have characters -/

namespace Lexeme
variable {cs : List Char} {x : Lexeme} {n : Nat}

theorem pos_of_word? (h : word? cs = some (x, n)) : 0 < n := by
  simp only [word?] at h
  split at h
  · cases h
  · next hne =>
    obtain ⟨-, rfl⟩ := Prod.mk.inj (Option.some.inj h)
    exact List.length_pos_iff.mpr (by simpa using hne)

theorem pos_of_number? (h : number? cs = some (x, n)) : 0 < n := by
  simp only [number?] at h
  split at h
  · cases h
  · next hne =>
    have hpos : 0 < (digitRun cs).length := List.length_pos_iff.mpr (by simpa using hne)
    split at h <;> (obtain ⟨-, rfl⟩ := Prod.mk.inj (Option.some.inj h); omega)

theorem pos_of_string? (h : string? cs = some (x, n)) : 0 < n := by
  unfold string? at h
  split at h
  · obtain ⟨_, -, heq⟩ := Option.map_eq_some_iff.mp h
    obtain ⟨-, rfl⟩ := Prod.mk.inj heq
    exact Nat.succ_pos _
  · cases h

theorem pos_of_symbol? (h : symbol? cs = some (x, n)) : 0 < n := by
  obtain ⟨s, -, -, rfl⟩ := symbol?_eq_some_iff.mp h
  obtain ⟨c, cs, hcons, -⟩ := spelling_eq_cons s
  rw [hcons]
  exact Nat.succ_pos _

theorem pos_of_scan? (h : scan? cs = some (x, n)) : 0 < n := by
  simp only [scan?, Option.orElse_eq_some] at h
  rcases h with h | ⟨-, h | ⟨-, h | ⟨-, h⟩⟩⟩
  · exact pos_of_word? h
  · exact pos_of_number? h
  · exact pos_of_string? h
  · exact pos_of_symbol? h

end Lexeme

/-! ### Tilings -/

/-- The place behind characters at the start of a text. -/
def placeBehind (cs : List Char) : Position := ⟨1 + cs.count '\n', (lastLine cs).length⟩

/-- The span of characters behind others. -/
def spanBehind (before text : List Char) : Span :=
  { offset := byteSize before, len := byteSize text, line := (placeBehind before).line,
    column := (placeBehind before).column }

/-- `Tiled before b rest items`: behind the characters `before`, with the brackets `b` open, the items are the
    tokens of the characters `rest` with nothing but gaps between them, up to the end or to a fault. -/
inductive Tiled : List Char → Brackets → List Char → List Item → Prop
  | token {before gap text rest : List Char} {b : Brackets} {t : Token} {items : List Item} :
    Gap b.nested gap (text ++ rest) → text ≠ [] → t.kind ≠ .endMarker → t.span = spanBehind (before ++ gap) text →
    Tiled (before ++ gap ++ text) (b.track t.kind) rest items → Tiled before b (gap ++ (text ++ rest)) (.ok t :: items)
  | ended {before gap : List Char} {b : Brackets} {t : Token} : Gap b.nested gap [] → t.kind = .endMarker →
    t.span = spanBehind (before ++ gap) [] → Tiled before b gap [.ok t]
  | stopped {before gap rest : List Char} {b : Brackets} {c : Char} {fault : Fault} : Gap b.nested gap (c :: rest) →
    c ≠ ' ' → c ≠ '#' → lineBreakRun (c :: rest) = [] → fault.position = placeBehind (before ++ gap) →
    Tiled before b (gap ++ c :: rest) [.error fault]

theorem line_advance (cs : List Char) : (Position.advance ⟨1, 0⟩ cs).line = 1 + cs.count '\n' := by
  induction cs using List.reverseRecOn with
  | nil => rfl
  | append_singleton cs c ih =>
    rw [Position.advance_append, List.count_append, ← Nat.add_assoc, ← ih]
    by_cases hc : c = '\n' <;> simp [Position.advance, hc]

theorem advance_eq_placeBehind (cs : List Char) : Position.advance ⟨1, 0⟩ cs = placeBehind cs := by
  rw [placeBehind, ← line_advance, ← column_advance]

namespace Lexer
variable {l l' : Lexer} {source : String} {read : List Char} {item : Item}

theorem Follows.place (h : l.Follows source read) : l.position = placeBehind read := by
  rw [h.position, advance_eq_placeBehind]

theorem Follows.span (h : l.Follows source read) (n : Nat) : l.spanOf n = spanBehind read (l.rest.take n) := by
  rw [spanOf, h.offset, h.place]
  rfl

/-! ### One item -/

/-- What the lexer cuts off for its next item: a gap of `m` characters, and `n` characters for a token. -/
inductive Cuts (l l' : Lexer) : Item → Prop
  | token {m n : Nat} {k : Kind} {lineStart : Bool} : Gap l.brackets.nested (l.rest.take m) (l.rest.drop m) → 0 < n →
    l.rest.drop m ≠ [] → k ≠ .endMarker →
    l' = { (l.advance m).advance n with brackets := l.brackets.track k, lineStart := lineStart } →
    Cuts l l' (.ok { kind := k, span := (l.advance m).spanOf n })
  | ended {m : Nat} : Gap l.brackets.nested (l.rest.take m) (l.rest.drop m) → l.rest.drop m = [] → l'.finished = true →
    Cuts l l' (.ok { kind := .endMarker, span := (l.advance m).spanOf 0 })
  | stopped {m : Nat} {c : Char} {cs : List Char} {fault : Fault} :
    Gap l.brackets.nested (l.rest.take m) (l.rest.drop m) → l.rest.drop m = c :: cs → c ≠ ' ' → c ≠ '#' →
    lineBreakRun (c :: cs) = [] → fault.position = (l.advance m).position → l'.finished = true → Cuts l l' (.error fault)

theorem position_of_kindOf {x : Lexeme} {fault : Fault} (h : l.kindOf x = .error fault) : fault.position = l.position := by
  cases x with
  | integer ds =>
    simp only [kindOf] at h
    split at h
    · cases h
    · cases h
      rfl
  | _ => cases h

/-- The gap that is skipped. -/
theorem gap_skipGap (l : Lexer) : Gap l.brackets.nested (l.rest.take (gapRun l.brackets.nested false l.rest).length)
    (l.rest.drop (gapRun l.brackets.nested false l.rest).length) := by
  have hpre : gapRun l.brackets.nested false l.rest <+: l.rest := ⟨_, gapRun_append_drop ..⟩
  rw [← List.prefix_iff_eq_take.mp hpre]
  exact (gap_gapRun l.brackets.nested false l.rest).1 rfl

theorem cuts_of_indentation? (h : l.indentation? = some (item, l')) : l.Cuts l' item := by
  simp only [indentation?] at h
  split at h
  · next hcond =>
    obtain ⟨-, -, hpos, -⟩ := hcond
    obtain ⟨rfl, rfl⟩ := Prod.mk.inj (Option.some.inj h)
    refine .token (m := 0) .nil hpos ?_ (by simp) rfl
    rintro hnil
    rw [List.drop_zero] at hnil
    simp [hnil, spaceRun] at hpos
  · cases h

theorem cuts_lexeme {c : Char} {cs : List Char} (hrest : l.skipGap.rest = c :: cs) (hbreak : lineBreakRun (c :: cs) = [])
    (h : l.skipGap.lexeme c = (item, l')) : l.Cuts l' item := by
  have hc : c ≠ ' ' ∧ c ≠ '#' := head?_gapRun l.brackets.nested false l.rest c (congrArg List.head? hrest)
  unfold lexeme at h
  cases hscan : Lexeme.scan? l.skipGap.rest with
  | none =>
    simp only [hscan, fail, Prod.mk.injEq] at h
    obtain ⟨rfl, rfl⟩ := h
    exact .stopped l.gap_skipGap hrest hc.1 hc.2 hbreak rfl rfl
  | some r =>
    obtain ⟨x, n⟩ := r
    simp only [hscan] at h
    cases hkind : l.skipGap.kindOf x with
    | error fault =>
      simp only [hkind, fail, Prod.mk.injEq] at h
      obtain ⟨rfl, rfl⟩ := h
      exact .stopped l.gap_skipGap hrest hc.1 hc.2 hbreak (position_of_kindOf hkind) rfl
    | ok k =>
      simp only [hkind, Prod.mk.injEq] at h
      obtain ⟨rfl, rfl⟩ := h
      have hdrop : l.rest.drop (gapRun l.brackets.nested false l.rest).length = c :: cs := hrest
      have hmarker : k ≠ .endMarker := by
        rintro rfl
        cases isText_of_kindOf hkind
      exact .token l.gap_skipGap (Lexeme.pos_of_scan? hscan) (by rw [hdrop]; exact List.cons_ne_nil c cs) hmarker rfl

theorem cuts_significant (h : l.skipGap.significant = (item, l')) : l.Cuts l' item := by
  unfold significant at h
  cases hrest : l.skipGap.rest with
  | nil =>
    simp only [hrest, Prod.mk.injEq] at h
    obtain ⟨rfl, rfl⟩ := h
    exact .ended l.gap_skipGap hrest rfl
  | cons c cs =>
    simp only [hrest] at h
    have hdrop : l.rest.drop (gapRun l.brackets.nested false l.rest).length = c :: cs := hrest
    by_cases hb : 0 < (lineBreakRun (c :: cs)).length
    · simp only [hb, if_true, Prod.mk.injEq] at h
      obtain ⟨rfl, rfl⟩ := h
      exact .token l.gap_skipGap hb (by rw [hdrop]; exact List.cons_ne_nil c cs) nofun rfl
    · simp only [hb, if_false] at h
      exact cuts_lexeme hrest (List.length_eq_zero_iff.mp (Nat.eq_zero_of_not_pos hb)) h

theorem cuts_of_next? (h : l.next? = some (item, l')) : l.Cuts l' item := by
  unfold next? at h
  split at h
  · cases h
  · cases hi : l.indentation? with
    | none =>
      rw [hi] at h
      exact cuts_significant (Option.some.inj h)
    | some r =>
      rw [hi] at h
      obtain rfl := Option.some.inj h
      exact cuts_of_indentation? hi

/-! ### All items -/

/-- The next `n` items, and the lexer behind them. -/
def pulls : (n : Nat) → Lexer → List Item × Lexer
  | 0, l => ([], l)
  | n + 1, l =>
    match l.next? with
    | none => ([], l)
    | some (item, l') => (item :: (pulls n l').1, (pulls n l').2)

theorem fst_pulls (n : Nat) (l : Lexer) : (l.pulls n).1 = l.take n := by
  induction n generalizing l with
  | zero => rfl
  | succ n ih =>
    cases h : l.next? with
    | none => simp [pulls, take, h]
    | some r => simp [pulls, take, h, ih]

theorem pulls_succ (h : l.next? = some (item, l')) (n : Nat) :
    l.pulls (n + 1) = (item :: (l'.pulls n).1, (l'.pulls n).2) := by
  rw [pulls, h]

theorem pulls_finished (h : l.finished = true) (n : Nat) : l.pulls n = ([], l) := by
  cases n with
  | zero => rfl
  | succ n => simp [pulls, next?, h]

theorem exists_next? (h : l.finished = false) : ∃ item l', l.next? = some (item, l') := by
  unfold next?
  rw [h, if_neg Bool.false_ne_true]
  cases l.indentation? with
  | none => exact ⟨_, _, rfl⟩
  | some r => exact ⟨_, _, rfl⟩

/-- The lexer behind a gap and a token. -/
theorem Follows.cut (h : l.Follows source read) (m n : Nat) (b : Brackets) (lineStart : Bool) :
    Follows { (l.advance m).advance n with brackets := b, lineStart := lineStart } source
      (read ++ l.rest.take m ++ (l.rest.drop m).take n) := by
  have hbehind := (h.advance m).advance n
  exact ⟨hbehind.text, hbehind.offset, hbehind.position⟩

/-- With one pull more than there are characters, the lexer comes to its end. -/
theorem tiled_pulls (hf : l.Follows source read) (hfin : l.finished = false) {n : Nat} (hn : l.rest.length < n) :
    Tiled read l.brackets l.rest (l.pulls n).1 ∧ (l.pulls n).2.next? = none := by
  -- Each token takes a character, so the pulls left stay more than the characters left.
  induction n generalizing l read with
  | zero => cases hn
  | succ n ih =>
    obtain ⟨item, l', hnext⟩ := exists_next? hfin
    rw [pulls_succ hnext]
    have hover : l'.finished = true → l'.next? = none := fun h => by rw [next?, if_pos h]
    cases cuts_of_next? hnext with
    | @token m k kind lineStart hgap hpos hne hkind hl' =>
      have htext : (l.rest.drop m).take k ≠ [] := by
        rw [Ne, List.take_eq_nil_iff, not_or]
        exact ⟨Nat.ne_of_gt hpos, hne⟩
      have hshort : ((l.rest.drop m).drop k).length < n := by
        have := List.length_pos_iff.mpr hne
        simp only [List.length_drop] at this ⊢
        omega
      have hspan := (hf.advance m).span k
      have hbehind : l'.Follows source (read ++ l.rest.take m ++ (l.rest.drop m).take k) := hl' ▸ hf.cut m k _ _
      obtain ⟨hitems, hend⟩ := ih hbehind (by rw [hl']; exact hfin) (by rw [hl']; exact hshort)
      refine ⟨?_, hend⟩
      rw [show l'.brackets = l.brackets.track kind by rw [hl'], show l'.rest = (l.rest.drop m).drop k by rw [hl']; rfl]
        at hitems
      have htile := Tiled.token (t := { kind, span := (l.advance m).spanOf k }) (by rwa [List.take_append_drop]) htext
        hkind hspan hitems
      rwa [List.take_append_drop, List.take_append_drop] at htile
    | @ended m hgap hnil hdone =>
      have hall : l.rest.take m = l.rest := by rw [← List.append_nil (l.rest.take m), ← hnil, List.take_append_drop]
      rw [pulls_finished hdone]
      rw [hall, hnil] at hgap
      have hspan := (hf.advance m).span 0
      rw [hall] at hspan
      exact ⟨.ended hgap rfl hspan, hover hdone⟩
    | @stopped m c cs fault hgap hcons hspace hcomment hbreak hplace hdone =>
      rw [pulls_finished hdone]
      rw [hcons] at hgap
      have htile := Tiled.stopped hgap hspace hcomment hbreak (hplace.trans (hf.advance m).place)
      rw [← hcons, List.take_append_drop] at htile
      exact ⟨htile, hover hdone⟩

end Lexer

/-! ### What a tiling says of its items -/

theorem byteSize_pos {cs : List Char} (h : cs ≠ []) : 0 < byteSize cs := by
  cases cs with
  | nil => exact absurd rfl h
  | cons c cs => exact Nat.lt_of_lt_of_le c.utf8Size_pos (Nat.le_add_right _ _)

theorem utf8ByteSize_ofList (cs : List Char) : (String.ofList cs).utf8ByteSize = byteSize cs := by
  induction cs with
  | nil => rfl
  | cons c cs ih =>
    rw [← List.singleton_append, String.ofList_append, String.utf8ByteSize_append, ih, ← String.singleton_eq_ofList,
      String.utf8ByteSize_singleton]
    rfl

/-- Behind characters at the start of a text there is a boundary between characters. -/
theorem isValid_byteSize {source : String} {cs ds : List Char} (h : source.toList = cs ++ ds) :
    (⟨byteSize cs⟩ : String.Pos.Raw).IsValid source := by
  have hsource : source = String.ofList cs ++ String.ofList ds := by
    rw [← String.ofList_append, ← h, String.ofList_toList]
  have hend : (String.ofList cs).rawEndPos = ⟨byteSize cs⟩ := congrArg String.Pos.Raw.mk (utf8ByteSize_ofList cs)
  rw [hsource, ← hend]
  exact String.Pos.Raw.isValid_rawEndPos.append_right _

namespace Tiled
variable {before rest : List Char} {b : Brackets} {items : List Item}

/-- Only the last item is no token of characters. -/
theorem ends (h : Tiled before b rest items) : ∃ (ts : List Token) (last : Item), items = ts.map .ok ++ [last] ∧
    (∀ t ∈ ts, t.kind ≠ .endMarker ∧ 0 < t.span.len) ∧
    ∀ m, last = .ok m → m.kind = .endMarker ∧ m.span.len = 0 ∧ m.span.offset = byteSize (before ++ rest) := by
  induction h with
  | @token before gap text rest b t items _ hne hkind hspan _ ih =>
    obtain ⟨ts, last, rfl, hts, hlast⟩ := ih
    refine ⟨t :: ts, last, rfl, List.forall_mem_cons.mpr ⟨⟨hkind, ?_⟩, hts⟩, ?_⟩
    · rw [hspan]
      exact byteSize_pos hne
    · simpa using hlast
  | ended _ hkind hspan =>
    refine ⟨[], _, rfl, nofun, ?_⟩
    rintro m ⟨rfl⟩
    rw [hspan]
    exact ⟨hkind, rfl, rfl⟩
  | stopped => exact ⟨[], _, rfl, nofun, nofun⟩

/-- Each token stands for characters of the text, behind those before. -/
theorem exists_text (h : Tiled before b rest items) {t : Token} (ht : .ok t ∈ items) :
    ∃ cs text ds, before ++ rest = cs ++ (text ++ ds) ∧ byteSize before ≤ byteSize cs ∧ t.span = spanBehind cs text := by
  induction h with
  | @token before gap text rest b u items _ _ _ hspan _ ih =>
    rcases List.mem_cons.mp ht with hu | ht
    · obtain rfl := Except.ok.inj hu
      exact ⟨before ++ gap, text, rest, by simp, by rw [byteSize_append]; omega, hspan⟩
    · obtain ⟨cs, text', ds, hsplit, hle, hspan⟩ := ih ht
      refine ⟨cs, text', ds, by simpa using hsplit, ?_, hspan⟩
      rw [byteSize_append, byteSize_append] at hle
      omega
  | @ended before gap b u _ _ hspan =>
    obtain rfl := Except.ok.inj (List.mem_singleton.mp ht)
    exact ⟨before ++ gap, [], [], by simp, by rw [byteSize_append]; omega, hspan⟩
  | stopped => cases List.mem_singleton.mp ht

/-- Tokens follow each other. -/
theorem inOrder (h : Tiled before b rest items) :
    items.Pairwise fun x y => ∀ s t, x = .ok s → y = .ok t → s.span.stop ≤ t.span.offset := by
  induction h with
  | @token before gap text rest b u items _ _ _ hspan htail ih =>
    refine List.pairwise_cons.mpr ⟨fun y hy s t hs ht => ?_, ih⟩
    obtain rfl := Except.ok.inj hs
    obtain ⟨cs, _, _, -, hle, ht⟩ := htail.exists_text (ht ▸ hy)
    rw [hspan, ht]
    simpa [Span.stop, spanBehind, byteSize_append, Nat.add_assoc] using hle
  | ended | stopped => exact List.pairwise_singleton _ _

end Tiled

/-- The lexer answers tokens and one last item, an end marker at the end of the text or a fault, and then nothing.
    Tokens have characters, begin and end between characters and follow each other, nothing but gaps is between
    them, and their lines and columns count the characters before. -/
theorem lex_tiles (dialect : Dialect) (source : String) :
    Tiled [] {} source.toList (lex dialect source) ∧
    (∃ n l, (Lexer.new dialect source).pulls n = (lex dialect source, l) ∧ l.next? = none) ∧
    (∃ (ts : List Token) (last : Item), lex dialect source = ts.map .ok ++ [last] ∧
      (∀ t ∈ ts, t.kind ≠ .endMarker ∧ 0 < t.span.len) ∧
      ∀ m, last = .ok m → m.kind = .endMarker ∧ m.span.len = 0 ∧ m.span.offset = source.utf8ByteSize) ∧
    ((lex dialect source).Pairwise fun x y => ∀ s t, x = .ok s → y = .ok t → s.span.stop ≤ t.span.offset) ∧
    ∀ t, .ok t ∈ lex dialect source →
      (⟨t.span.offset⟩ : String.Pos.Raw).IsValid source ∧ (⟨t.span.stop⟩ : String.Pos.Raw).IsValid source ∧
      t.span.line = 1 + (charsBefore t.span.offset source.toList).count '\n' ∧
      t.span.column = (lastLine (charsBefore t.span.offset source.toList)).length := by
  obtain ⟨htiled, hend⟩ :=
    Lexer.tiled_pulls (Lexer.follows_new dialect source) rfl (Nat.lt_succ_self (Lexer.new dialect source).rest.length)
  have hitems : ((Lexer.new dialect source).pulls _).1 = lex dialect source := Lexer.fst_pulls _ _
  rw [hitems] at htiled
  refine ⟨htiled, ⟨_, _, Prod.ext hitems rfl, hend⟩, ?_, htiled.inOrder, fun t ht => ?_⟩
  · have hsize : byteSize ([] ++ source.toList) = source.utf8ByteSize := by
      rw [List.nil_append, ← utf8ByteSize_ofList, String.ofList_toList]
    exact hsize ▸ htiled.ends
  · obtain ⟨cs, text, ds, hsplit, -, hspan⟩ := htiled.exists_text ht
    have hbefore : charsBefore t.span.offset source.toList = cs := by
      rw [hspan, ← List.nil_append source.toList]
      exact hsplit ▸ charsBefore_byteSize cs (text ++ ds)
    rw [hbefore, hspan]
    refine ⟨isValid_byteSize hsplit, ?_, rfl, rfl⟩
    have hbehind : (⟨byteSize (cs ++ text)⟩ : String.Pos.Raw).IsValid source :=
      isValid_byteSize (hsplit.trans (List.append_assoc ..).symm)
    rwa [byteSize_append] at hbehind

end Offside
