import Offside.Proofs.TreePlaces

/-! # Where errors point

An error about a token points to the start of that token. A fault of the lexer or of the indentation has the line and
column of the character or token that shows it, but the offset of another place: that behind the last token in front
of it. -/

namespace Offside

/-- The character or token that a fault is about: the lexer stops at a character, and indentation is wrong at a
    token. -/
inductive Fault.Shows (dialect : Dialect) (source : String) : Fault → Prop
  | char {fault : Fault} {cs ds : List Char} {c : Char} : .error fault ∈ Offside.lex dialect source →
    source.toList = cs ++ c :: ds → fault.position = placeBehind cs → Shows dialect source fault
  | token {fault : IndentFault} {t : Token} : .ok t ∈ Offside.lex dialect source →
    Shows dialect source (.indent fault t.span.start)

section
variable {dialect : Dialect} {source : String}

theorem Tiled.exists_char {before rest : List Char} {b : Brackets} {items : List Item} (h : Tiled before b rest items)
    {fault : Fault} (hf : .error fault ∈ items) :
    ∃ cs c ds, before ++ rest = cs ++ c :: ds ∧ fault.position = placeBehind cs := by
  induction h with
  | @token before gap text rest b u items _ _ _ _ _ ih =>
    obtain ⟨cs, c, ds, hsplit, hplace⟩ := ih ((List.mem_cons.mp hf).resolve_left nofun)
    exact ⟨cs, c, ds, by simpa using hsplit, hplace⟩
  | ended => cases List.mem_singleton.mp hf
  | @stopped before gap rest b c f _ _ _ _ hplace =>
    obtain rfl := Except.error.inj (List.mem_singleton.mp hf)
    exact ⟨before ++ gap, c, rest, by simp, hplace⟩

theorem shows_of_mem {fault : Fault} (h : .error fault ∈ tokenStream dialect source) : fault.Shows dialect source := by
  cases grounded_of_mem h with
  | char hlex =>
    obtain ⟨cs, c, ds, hsplit, hplace⟩ := (tiled_lex dialect source).exists_char hlex
    exact .char hlex hsplit hplace
  | indent hu => exact .token hu

/-- A token of a stream begins and ends between characters, at the line and column of its first character. -/
theorem place_of_mem {t : Token} (h : .ok t ∈ tokenStream dialect source) :
    (⟨t.span.offset⟩ : String.Pos.Raw).IsValid source ∧ (⟨t.span.stop⟩ : String.Pos.Raw).IsValid source ∧
      t.span.start = placeBehind (charsBefore t.span.offset source.toList) := by
  obtain ⟨u, hu, hspan⟩ : ∃ u : Token, .ok u ∈ lex dialect source ∧ (t.span = u.span ∨ t.span = u.span.before) := by
    cases grounded_of_mem h with
    | token hu _ hspan => exact ⟨_, hu, .inl hspan⟩
    | mark hu _ hspan => exact ⟨_, hu, .inr hspan⟩
  have hplace := place_of_lexed hu
  obtain ⟨hoffset, hstop⟩ := valid_of_lexed hu
  rcases hspan with hspan | hspan
  · rw [hspan]
    exact ⟨hoffset, hstop, hplace⟩
  · rw [hspan]
    exact ⟨hoffset, hoffset, hplace⟩

theorem mem_of_mem_soundOf {items : List Item} {t : Token} (h : t ∈ soundOf items) : .ok t ∈ items := by
  induction items with
  | nil => cases h
  | cons item items ih =>
    cases item with
    | error fault => cases h
    | ok u =>
      rcases List.mem_cons.mp h with rfl | h
      · exact List.mem_cons_self
      · exact List.mem_cons_of_mem _ (ih h)

/-- An error has a place between two characters. If it is about a token, its line and column are those of that place.
    If it is a fault of the lexer or of the indentation, they are those of the character or token that shows it, and
    the place is where the last token in front of the fault ends. -/
theorem place_of_error {e : SyntaxError} (h : parse dialect source = .error e) :
    ∃ s, e.location = some s ∧ s.offset ≤ source.utf8ByteSize ∧ (⟨s.offset⟩ : String.Pos.Raw).IsValid source ∧
      ((∀ f, e.fault ≠ .fault f) → s.start = placeBehind (charsBefore s.offset source.toList)) ∧
      ∀ f, e.fault = .fault f → s.start = f.position ∧ f.Shows dialect source ∧
        ∃ (ts : List Token) (rest : List Item), tokenStream dialect source = ts.map .ok ++ .error f :: rest ∧
          s.offset = (ts.getLast?.map (·.span.stop)).getD 0 := by
  have hverdict := Parse.verdict_run (bounded_tokenStream dialect source)
    (List.forall₂_same.mpr fun item _ => Item.Alike.refl item)
  rw [show Parse.module.run (tokenStream dialect source) = .error e from h] at hverdict
  cases hverdict with
  | error hpoints =>
    cases hpoints with
    | @token t s ht hfault hlocation hoffset hstart =>
      obtain ⟨hvalid, -, hplace⟩ := place_of_mem (mem_of_mem_soundOf ht)
      rw [← hoffset] at hvalid hplace
      exact ⟨s, hlocation, hvalid.le_rawEndPos, hvalid, fun _ => hstart.trans hplace, fun f hf => absurd hf (hfault f)⟩
    | @fault ts f rest hstream hfault hlocation =>
      have hvalid : (⟨(ts.getLast?.map (·.span.stop)).getD 0⟩ : String.Pos.Raw).IsValid source := by
        cases hlast : ts.getLast? with
        | none => exact String.Pos.Raw.isValid_zero
        | some t =>
          have ht : .ok t ∈ tokenStream dialect source := by
            rw [hstream]
            exact List.mem_append_left _ (List.mem_map_of_mem (List.mem_of_getLast? hlast))
          exact (place_of_mem ht).2.1
      refine ⟨_, hlocation, hvalid.le_rawEndPos, hvalid, fun hnot => absurd hfault (hnot f), fun f' hf' => ?_⟩
      obtain rfl : f = f' := SyntaxFault.fault.inj (hfault.symm.trans hf')
      have hmem : .error f ∈ tokenStream dialect source := by
        rw [hstream]
        exact List.mem_append_right _ List.mem_cons_self
      exact ⟨rfl, shows_of_mem hmem, ts, rest, hstream, rfl⟩

end

/-- What is wrong with a text and where, if it is no program. -/
def complaintOf (dialect : Dialect) (source : String) : Option (SyntaxFault × Option Span) :=
  match parse dialect source with
  | .error e => some (e.fault, e.location)
  | .ok _ => none

theorem parse_of_complaintOf {dialect : Dialect} {source : String} {fault : SyntaxFault} {location : Option Span}
    (h : complaintOf dialect source = some (fault, location)) :
    ∃ e, parse dialect source = .error e ∧ e.fault = fault ∧ e.location = location := by
  unfold complaintOf at h
  split at h
  · next e he =>
    obtain ⟨rfl, rfl⟩ := Prod.mk.inj (Option.some.inj h)
    exact ⟨e, he, rfl, rfl⟩
  · cases h

/-- A character that starts no token, behind a space: the offset is that of the space, the column is not. -/
theorem misplaced_strayChar : ∃ e s, parse .english "x $" = .error e ∧ e.location = some s ∧
    e.fault = .fault (.lex (.illegalChar '$') (placeBehind ['x', ' '])) ∧ s.offset = byteSize ['x'] ∧
    s.start = placeBehind ['x', ' '] ∧ s.start ≠ placeBehind (charsBefore s.offset "x $".toList) := by
  have hcomplaint : complaintOf .english "x $" =
      some (.fault (.lex (.illegalChar '$') ⟨1, 2⟩), some { offset := 1, line := 1, column := 2 }) := by
    decide +kernel
  obtain ⟨e, he, hfault, hlocation⟩ := parse_of_complaintOf hcomplaint
  exact ⟨e, _, he, hlocation, hfault, rfl, rfl, by decide⟩

/-- The same for a token that is indented too far: the offset is that of the start of its line. -/
theorem place_of_error_indented : ∃ e s, parse .english "x\n  y" = .error e ∧ e.location = some s ∧ s.offset = 2 ∧
    (⟨s.offset⟩ : String.Pos.Raw).IsValid "x\n  y" ∧ s.start = ⟨2, 2⟩ ∧
    (Fault.indent .unexpectedIndent ⟨2, 2⟩).Shows .english "x\n  y" := by
  have hcomplaint : complaintOf .english "x\n  y" =
      some (.fault (.indent .unexpectedIndent ⟨2, 2⟩), some { offset := 2, line := 2, column := 2 }) := by
    decide +kernel
  obtain ⟨e, he, hfault, hlocation⟩ := parse_of_complaintOf hcomplaint
  obtain ⟨s, hs, -, hvalid, -, hfaults⟩ := place_of_error he
  obtain ⟨hstart, hshows, -⟩ := hfaults _ hfault
  obtain rfl := Option.some.inj (hlocation.symm.trans hs)
  exact ⟨e, _, he, hlocation, rfl, hvalid, hstart, hshows⟩

end Offside
