import Offside.Proofs.LongestLexeme

/-! # Where tokens end

The empty span behind a token lies at the byte behind it. Its line is that of the token and its column goes on by the
bytes of the token, so it names the place of that byte for a token on one line whose characters have one byte each. All
tokens are so but line breaks, behind which another line begins, and strings with characters of more bytes. -/

namespace Offside

/-! ### Characters and bytes -/

theorem length_le_byteSize (cs : List Char) : cs.length ≤ byteSize cs := by
  induction cs with
  | nil => exact Nat.le_refl 0
  | cons c cs ih =>
    have hpos := c.utf8Size_pos
    rw [List.length_cons, byteSize]
    omega

/-- As many bytes as characters. -/
theorem byteSize_eq_length_iff {cs : List Char} : byteSize cs = cs.length ↔ ∀ c ∈ cs, c.utf8Size = 1 := by
  induction cs with
  | nil => simp [byteSize]
  | cons c cs ih =>
    have hpos := c.utf8Size_pos
    have hle := length_le_byteSize cs
    rw [List.forall_mem_cons, ← ih, byteSize, List.length_cons]
    omega

theorem utf8Size_of_le {c : Char} (h : c ≤ '\x7f') : c.utf8Size = 1 := Char.utf8Size_eq_one_iff.mpr h

/-! ### Places behind a span -/

/-- The line and column of the byte at an offset. -/
def placeAt (source : String) (offset : Nat) : Position := placeBehind (charsBefore offset source.toList)

/-- The characters that a span covers. -/
def Span.chars (s : Span) (source : String) : List Char :=
  charsBefore s.len (source.toList.drop (charsBefore s.offset source.toList).length)

section
variable {source : String} {cs w ds : List Char}

theorem chars_spanBehind (h : source.toList = cs ++ (w ++ ds)) : (spanBehind cs w).chars source = w := by
  rw [Span.chars, spanBehind, h, charsBefore_byteSize, List.drop_left, charsBefore_byteSize]

theorem placeAt_stop (h : source.toList = cs ++ (w ++ ds)) :
    placeAt source (spanBehind cs w).stop = placeBehind (cs ++ w) := by
  rw [placeAt, h, ← List.append_assoc, Span.stop, spanBehind, ← byteSize_append, charsBefore_byteSize]

/-- The place behind characters of one line. -/
theorem placeBehind_append (h : '\n' ∉ w) :
    placeBehind (cs ++ w) = ⟨(placeBehind cs).line, (placeBehind cs).column + w.length⟩ := by
  rw [placeBehind, lastLine_append cs h, List.count_append, List.count_eq_zero_of_not_mem h, List.length_append]
  rfl

/-- The place behind characters that end a line. -/
theorem placeBehind_break (cs w : List Char) :
    placeBehind (cs ++ (w ++ ['\n'])) = ⟨(placeBehind cs).line + (w ++ ['\n']).count '\n', 0⟩ := by
  rw [placeBehind, List.count_append, ← List.append_assoc, lastLine_concat, if_pos rfl, ← Nat.add_assoc]
  rfl

/-- Behind characters of one line the span has their place if and only if all of them have one byte. -/
theorem start_after_iff (cs : List Char) (h : '\n' ∉ w) :
    (spanBehind cs w).after.start = placeBehind (cs ++ w) ↔ ∀ c ∈ w, c.utf8Size = 1 := by
  have hstart : (spanBehind cs w).after.start = ⟨(placeBehind cs).line, (placeBehind cs).column + byteSize w⟩ := rfl
  rw [hstart, placeBehind_append h, Position.mk.injEq, and_iff_right rfl, Nat.add_left_cancel_iff,
    byteSize_eq_length_iff]

/-- Behind a line break it stays in the line that the break ends. -/
theorem start_after_break (cs w : List Char) :
    (spanBehind cs (w ++ ['\n'])).after.start ≠ placeBehind (cs ++ (w ++ ['\n'])) := by
  rw [placeBehind_break]
  intro heq
  have hline : (placeBehind cs).line = (placeBehind cs).line + (w ++ ['\n']).count '\n' := congrArg Position.line heq
  have hsome : 0 < (w ++ ['\n']).count '\n' :=
    List.count_pos_iff.mpr (List.mem_append_right _ (List.mem_singleton_self _))
  omega

end

/-! ### The characters of a token -/

namespace Munch

/-- The characters of one byte. Words, numbers and symbols have no others. -/
def singles : Set Char := {c | c.utf8Size = 1}

theorem letters_subset : letters ⊆ singles := by
  rintro c (⟨-, hc⟩ | ⟨-, hc⟩ | rfl)
  · exact utf8Size_of_le (Char.le_trans hc (by decide))
  · exact utf8Size_of_le (Char.le_trans hc (by decide))
  · rfl

theorem digits_subset : digits ⊆ singles := fun _ hc => utf8Size_of_le (Char.le_trans hc.2 (by decide))

theorem within_words : Within singles words :=
  (within_oneOf letters_subset).mul (within_oneOf (Set.union_subset letters_subset digits_subset)).star

theorem within_exponents : Within singles exponents :=
  ((within_oneOf (by rintro c (rfl | rfl) <;> rfl)).mul
    ((within_one _).add (within_oneOf (by rintro c (rfl | rfl) <;> rfl)))).mul (within_integers.mono digits_subset)

theorem within_floats : Within singles floats :=
  have hintegers := within_integers.mono digits_subset
  (((hintegers.mul (within_oneOf (by rintro c rfl; rfl))).mul hintegers).mul ((within_one _).add within_exponents)).add
    (hintegers.mul within_exponents)

theorem within_symbols : Within singles symbols := by
  rintro _ ⟨s, rfl⟩
  have hall : s.spelling.toList.all (·.utf8Size == 1) = true := by cases s <;> decide
  intro c hc
  exact beq_iff_eq.mp (List.all_eq_true.mp hall c hc)

/-- A lexeme that is no string has characters of one byte only. -/
theorem Stands.single {w : List Char} {x : Lexeme} (h : Stands w x) (hx : ∀ s, x ≠ .string s) :
    ∀ c ∈ w, c.utf8Size = 1 := by
  cases h with
  | word h => exact within_words w h
  | integer h => exact within_integers.mono digits_subset w h
  | float h => exact within_floats w h
  | string h => exact absurd rfl (hx _)
  | symbol s => exact within_symbols _ ⟨s, rfl⟩

end Munch

/-- What may stand in a text for a token of a kind: a line break is the only one that ends a line, and a string the only
    one that may have characters of more than one byte. -/
inductive Kind.Written : Kind → List Char → Prop
  | lineBreak (w : List Char) : Written .newline (w ++ ['\n'])
  | string {s : String} {w : List Char} : '\n' ∉ w → Written (.string s) w
  | single {k : Kind} {w : List Char} : k ≠ .newline → (∀ s, k ≠ .string s) → '\n' ∉ w → (∀ c ∈ w, c.utf8Size = 1) →
    Written k w

namespace Lexer
variable {l l' : Lexer} {source : String} {read : List Char} {t : Token}

theorem written_of_scan? {cs : List Char} {x : Lexeme} {n : Nat} {k : Kind} (hscan : Lexeme.scan? cs = some (x, n))
    (hkind : l.kindOf x = .ok k) : k.Written (cs.take n) := by
  have hline := lineFeed_not_mem_scan hscan
  have hsingle (hx : ∀ s, x ≠ .string s) : ∀ c ∈ cs.take n, c.utf8Size = 1 := by
    obtain ⟨w, hlong, hstands, rfl⟩ := (hscan ▸ Munch.reads_scan? cs).exists_longest
    rw [← List.prefix_iff_eq_take.mp hlong.pre]
    exact hstands.single hx
  cases becomes_of_kindOf hkind with
  | string s => exact .string hline
  | _ => exact .single nofun nofun hline (hsingle nofun)

/-- The characters in front of a token, its own and those behind it. -/
theorem Follows.exists_written (hf : l.Follows source read) (h : l.next? = some (.ok t, l')) :
    ∃ cs w ds, source.toList = cs ++ (w ++ ds) ∧ t.span = spanBehind cs w ∧ t.kind.Written w := by
  have hsplit (m n : Nat) : ∃ cs ds, source.toList = cs ++ ((l.advance m).rest.take n ++ ds) ∧
      (l.advance m).spanOf n = spanBehind cs ((l.advance m).rest.take n) := by
    refine ⟨_, (l.advance m).rest.drop n, ?_, (hf.advance m).span n⟩
    rw [List.take_append_drop]
    exact (hf.advance m).text
  cases takes_of_next? h with
  | marker m =>
    obtain ⟨cs, ds, htext, hspan⟩ := hsplit m 0
    exact ⟨cs, [], ds, htext, hspan, .single nofun nofun (by simp) nofun⟩
  | @spaces n _ _ htake =>
    obtain ⟨cs, ds, htext, hspan⟩ := hsplit 0 n
    rw [advance_zero] at htext hspan
    rw [htake] at htext hspan
    refine ⟨cs, _, ds, htext, hspan, .single nofun nofun ?_ fun c hc => ?_⟩
    · simp [List.mem_replicate]
    · rw [List.eq_of_mem_replicate hc]
      rfl
  | @lineBreak m n v _ htake =>
    obtain ⟨cs, ds, htext, hspan⟩ := hsplit m n
    exact ⟨cs, _, ds, htext, hspan, htake ▸ .lineBreak v⟩
  | @text m n _ _ _ _ hscan hkind =>
    obtain ⟨cs, ds, htext, hspan⟩ := hsplit m n
    exact ⟨cs, _, ds, htext, hspan, written_of_scan? hscan hkind⟩

/-- Each token of a run is answered by a lexer in the same text. -/
theorem Follows.exists_of_mem_take {n : Nat} (hf : l.Follows source read) (ht : .ok t ∈ l.take n) :
    ∃ (k k' : Lexer) (read' : List Char), k.Follows source read' ∧ k.next? = some (.ok t, k') := by
  induction n generalizing l read with
  | zero => cases ht
  | succ n ih =>
    cases hnext : l.next? with
    | none =>
      rw [take, hnext] at ht
      cases ht
    | some r =>
      obtain ⟨item, l'⟩ := r
      rw [take_next hnext, List.mem_cons] at ht
      rcases ht with hitem | ht
      · exact ⟨l, l', read, hf, hitem ▸ hnext⟩
      · cases cuts_of_next? hnext with
        | token _ _ _ _ hl' => exact ih (hl' ▸ hf.cut _ _ _ _) ht
        -- Behind the end marker and behind a fault no token follows.
        | ended _ _ hdone =>
          rw [take_finished hdone] at ht
          cases ht
        | stopped _ _ _ _ _ _ hdone =>
          rw [take_finished hdone] at ht
          cases ht

end Lexer

section
variable {dialect : Dialect} {source : String} {t : Token}

/-- The span behind a token is empty and lies at the byte behind it. Its line and column are those of that byte if and
    only if the token is no line break and all its characters have one byte, and so they are behind every token but
    strings and line breaks. That byte stands on the line of the token, one column on for each of its characters, and
    behind a line break in the first column of a line below. -/
theorem after_of_lex (h : .ok t ∈ lex dialect source) :
    t.span.after.len = 0 ∧ t.span.after.offset = t.span.offset + t.span.len ∧
    (t.span.after.start = placeAt source t.span.after.offset ↔
      t.kind ≠ .newline ∧ ∀ c ∈ t.span.chars source, c.utf8Size = 1) ∧
    (t.kind ≠ .newline → (∀ s, t.kind ≠ .string s) → t.span.after.start = placeAt source t.span.after.offset) ∧
    (t.kind ≠ .newline →
      placeAt source t.span.after.offset = ⟨t.span.line, t.span.column + (t.span.chars source).length⟩) ∧
    (t.kind = .newline → '\n' ∈ t.span.chars source ∧
      placeAt source t.span.after.offset = ⟨t.span.line + (t.span.chars source).count '\n', 0⟩) := by
  obtain ⟨l, l', read, hf, hnext⟩ := (Lexer.follows_new dialect source).exists_of_mem_take h
  obtain ⟨cs, w, ds, htext, hspan, hwritten⟩ := hf.exists_written hnext
  have hchars : t.span.chars source = w := by rw [hspan, chars_spanBehind htext]
  have hplace : placeAt source t.span.after.offset = placeBehind (cs ++ w) := by
    rw [hspan, Span.offset_after, placeAt_stop htext]
  refine ⟨rfl, rfl, ?_⟩
  rw [hplace, hchars, hspan]
  generalize t.kind = k at hwritten
  cases hwritten with
  | lineBreak v =>
    refine ⟨?_, nofun, nofun, fun _ => ⟨List.mem_append_right _ (List.mem_singleton_self _), placeBehind_break cs v⟩⟩
    exact iff_of_false (start_after_break cs v) fun hnot => hnot.1 rfl
  | string hline =>
    refine ⟨?_, fun _ hnot => absurd rfl (hnot _), fun _ => placeBehind_append hline, nofun⟩
    rw [start_after_iff cs hline]
    exact ⟨fun hsingle => ⟨nofun, hsingle⟩, fun hsingle => hsingle.2⟩
  | single hbreak _ hline hsingle =>
    have hstart := (start_after_iff cs hline).mpr hsingle
    exact ⟨iff_of_true hstart ⟨hbreak, hsingle⟩, fun _ _ => hstart, fun _ => placeBehind_append hline,
      fun hnot => absurd hnot hbreak⟩

end

/-- Behind a line break and an empty line: the span stays in the first line, two bytes behind its end. -/
theorem after_of_lex_emptyLine : ∃ t : Token, .ok t ∈ lex .english "x\n\ny" ∧ t.kind = .newline ∧
    t.span.after = { offset := 3, line := 1, column := 3 } ∧ placeAt "x\n\ny" 3 = ⟨3, 0⟩ := by
  have hmem : .ok { kind := .newline, span := { offset := 1, len := 2, line := 1, column := 1 } } ∈
      lex .english "x\n\ny" := by
    decide +kernel
  obtain ⟨-, -, -, -, -, hbreak⟩ := after_of_lex hmem
  exact ⟨_, hmem, rfl, rfl, (hbreak rfl).2⟩

/-- Behind a string with a character of two bytes: the column counts both. -/
theorem misplaced_accentedString : ∃ t : Token, .ok t ∈ lex .english "\"é\"$" ∧ t.span.after.start = ⟨1, 4⟩ ∧
    placeAt "\"é\"$" t.span.after.offset = ⟨1, 3⟩ ∧ t.span.after.start ≠ placeAt "\"é\"$" t.span.after.offset := by
  have hmem : .ok { kind := .string "é", span := { offset := 0, len := 4, line := 1, column := 0 } } ∈
      lex .english "\"é\"$" := by
    decide +kernel
  exact ⟨_, hmem, rfl, by decide, by decide⟩

end Offside
