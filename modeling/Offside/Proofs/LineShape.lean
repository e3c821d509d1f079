import Offside.Proofs.LineLayout

/-! # The shape of marked lines

Marked tokens of a text come in lines of one shape: spaces may stand first, the first token behind
them is marked as the start of its line, no other token is, and only the first may have to open a
block. -/

namespace Offside

/-- Whether a kind stands for characters within a line. -/
def Kind.isText : Kind → Bool
  | .newline | .whitespace _ | .blockStart | .blockEnd | .endMarker => false
  | _ => true

/-! ### The lexer's steps -/

/-- The kinds that a lexeme may stand for. -/
inductive Lexeme.Becomes : Lexeme → Kind → Prop
  | keyword (w : String) (k : Keyword) : Becomes (.word w) (.keyword k)
  | name (w : String) : Becomes (.word w) (.name w)
  | integer (ds : List Char) (value : Int) : Becomes (.integer ds) (.integer value)
  | float (d : Decimal) (value : Binary64) : Becomes (.float d) (.float value)
  | string (s : String) : Becomes (.string s) (.string s)
  | symbol (s : Symbol) : Becomes (.symbol s) (.symbol s)

namespace Lexer

/-- What the lexer can answer, and what that says about the place in the line. -/
inductive Scans (l l' : Lexer) : Item → Prop
  | fault (fault : Fault) : Scans l l' (.error fault)
  | marker {t : Token} : t.kind = .endMarker → Scans l l' (.ok t)
  | spaces {t : Token} {w : Nat} : t.kind = .whitespace w → l.lineStart = true → l'.lineStart = false →
    Scans l l' (.ok t)
  | lineBreak {t : Token} : t.kind = .newline → l'.lineStart = true → Scans l l' (.ok t)
  | text {t : Token} : t.kind.isText = true → t.mustIndent = false → l'.lineStart = false → Scans l l' (.ok t)

variable {l l' : Lexer} {item : Item}

theorem becomes_of_kindOf {lexeme : Lexeme} {kind : Kind} (h : l.kindOf lexeme = .ok kind) : lexeme.Becomes kind := by
  cases lexeme with
  | word w =>
    obtain rfl := Except.ok.inj h
    cases l.dialect.keyword? w with
    | some k => exact .keyword w k
    | none => exact .name w
  | integer ds =>
    simp only [kindOf] at h
    split at h
    · obtain rfl := Except.ok.inj h
      exact .integer ds _
    · cases h
  | float d =>
    obtain rfl := Except.ok.inj h
    exact .float d _
  | string s =>
    obtain rfl := Except.ok.inj h
    exact .string s
  | symbol s =>
    obtain rfl := Except.ok.inj h
    exact .symbol s

theorem isText_of_kindOf {lexeme : Lexeme} {kind : Kind} (h : l.kindOf lexeme = .ok kind) : kind.isText = true := by
  cases becomes_of_kindOf h <;> rfl

theorem scans_lexeme (l₀ : Lexer) (c : Char) (h : l.lexeme c = (item, l')) : l₀.Scans l' item := by
  unfold lexeme at h
  cases hscan : Lexeme.scan? l.rest with
  | none =>
    simp only [hscan, fail, Prod.mk.injEq] at h
    exact h.1 ▸ .fault _
  | some r =>
    obtain ⟨lexeme, n⟩ := r
    simp only [hscan] at h
    cases hkind : l.kindOf lexeme with
    | error fault =>
      simp only [hkind, fail, Prod.mk.injEq] at h
      exact h.1 ▸ .fault _
    | ok kind =>
      simp only [hkind, Prod.mk.injEq] at h
      obtain ⟨rfl, rfl⟩ := h
      exact .text (isText_of_kindOf hkind) rfl rfl

theorem scans_significant (l₀ : Lexer) (h : l.significant = (item, l')) : l₀.Scans l' item := by
  unfold significant at h
  cases hrest : l.rest with
  | nil =>
    simp only [hrest, Prod.mk.injEq] at h
    exact h.1 ▸ .marker rfl
  | cons c cs =>
    simp only [hrest] at h
    by_cases hb : 0 < (lineBreakRun (c :: cs)).length
    · simp only [hb, if_true, Prod.mk.injEq] at h
      obtain ⟨rfl, rfl⟩ := h
      exact .lineBreak rfl rfl
    · simp only [hb, if_false] at h
      exact scans_lexeme l₀ c h

theorem scans_of_indentation? (h : l.indentation? = some (item, l')) : l.Scans l' item := by
  simp only [indentation?] at h
  split at h
  · rename_i hcond
    obtain ⟨rfl, rfl⟩ := Prod.mk.inj (Option.some.inj h)
    exact .spaces rfl hcond.1 rfl
  · cases h

theorem scans_of_next? (h : l.next? = some (item, l')) : l.Scans l' item := by
  unfold next? at h
  by_cases hf : l.finished = true
  · simp [hf] at h
  simp only [hf, Bool.false_eq_true, if_false] at h
  cases hi : l.indentation? with
  | none =>
    rw [hi] at h
    exact scans_significant l (Option.some.inj h)
  | some r =>
    rw [hi] at h
    obtain rfl := Option.some.inj h
    exact scans_of_indentation? hi

end Lexer

/-! ### Marks -/

namespace Marking
variable (g : Marking) (t : Token)

@[simp] theorem kind_mark : (g.mark t).kind = t.kind := by
  unfold mark
  split <;> rfl

@[simp] theorem atLineStart_mark : (g.mark t).atLineStart = g.atLineStart := by
  unfold mark
  split <;> rfl

/-- Only behind a line that has ended in a colon does a token have to open a block. -/
theorem mustIndent_mark {g : Marking} {t : Token} (hg : g.expectation ≠ .block) (ht : t.mustIndent = false) :
    (g.mark t).mustIndent = false := by
  unfold mark
  split
  · exact ht
  · exact ht
  · exact ht
  · exact decide_eq_false hg

/-- The first token of a line settles whether a block has to begin there. -/
theorem after_text {k : Kind} (hk : k.isText = true) :
    (g.after k).atLineStart = false ∧ (g.after k).expectation ≠ .block := by
  unfold after
  split <;> simp_all [Kind.isText]

end Marking

/-! ### Lines of marked tokens -/

/-- How much of a line has been read: nothing, its spaces, or some of its text. -/
inductive LinePlace where
  | start | indented | inside
deriving DecidableEq

/-- Marked tokens as they follow a place in a line. -/
inductive Ruled : LinePlace → List Token → Prop
  | nil (p : LinePlace) : Ruled p []
  | spaces {t : Token} {w : Nat} {ts : List Token} : t.kind = .whitespace w → Ruled .indented ts →
    Ruled .start (t :: ts)
  | blank {p : LinePlace} {t : Token} {ts : List Token} : p ≠ .inside → t.kind = .newline → t.atLineStart = true →
    Ruled .start ts → Ruled p (t :: ts)
  | lineBreak {t : Token} {ts : List Token} : t.kind = .newline → t.atLineStart = false → Ruled .start ts →
    Ruled .inside (t :: ts)
  | first {p : LinePlace} {t : Token} {ts : List Token} : p ≠ .inside → t.kind.isText = true → t.atLineStart = true →
    Ruled .inside ts → Ruled p (t :: ts)
  | later {t : Token} {ts : List Token} : t.kind.isText = true → t.atLineStart = false → t.mustIndent = false →
    Ruled .inside ts → Ruled .inside (t :: ts)

/-- The lexer and the marking agree on the place in the line. -/
inductive Placed (l : Lexer) (g : Marking) : LinePlace → Prop
  | start : l.lineStart = true → g.atLineStart = true → Placed l g .start
  | indented : l.lineStart = false → g.atLineStart = true → Placed l g .indented
  | inside : l.lineStart = false → g.atLineStart = false → g.expectation ≠ .block → Placed l g .inside

theorem Ruled.isSynthetic {p : LinePlace} {ts : List Token} (h : Ruled p ts) :
    ∀ t ∈ ts, t.kind.isSynthetic = false := by
  induction h with
  | nil => intro t ht; cases ht
  | spaces hk _ ih | blank _ hk _ _ ih | lineBreak hk _ _ ih =>
    exact List.forall_mem_cons.mpr ⟨by rw [hk]; rfl, ih⟩
  | @first _ t _ _ hk _ _ ih | @later t _ hk _ _ _ ih =>
    refine List.forall_mem_cons.mpr ⟨?_, ih⟩
    cases ht : t.kind <;> simp_all [Kind.isText, Kind.isSynthetic]

theorem ruled_take (fuel : Nat) {l : Lexer} {g : Marking} {p : LinePlace} (h : Placed l g p) :
    Ruled p (bodyOf (g.markAll (l.take fuel))) := by
  induction fuel generalizing l g p with
  | zero => exact .nil p
  | succ fuel ih =>
    cases hnext : l.next? with
    | none =>
      simp only [Lexer.take, hnext]
      exact .nil p
    | some r =>
      obtain ⟨item, l'⟩ := r
      simp only [Lexer.take, hnext]
      cases Lexer.scans_of_next? hnext with
      | fault => exact .nil p
      | marker hk =>
        simp only [Marking.markAll, bodyOf, Marking.kind_mark, hk, if_true]
        exact .nil p
      | @spaces t w hk hl hl' =>
        simp only [Marking.markAll, bodyOf, Marking.kind_mark, hk, reduceCtorEq, if_false]
        cases h with
        | start _ hg => exact .spaces (by simpa using hk) (ih (.indented hl' rfl))
        | indented hn => simp [hl] at hn
        | inside hn => simp [hl] at hn
      | @lineBreak t hk hl' =>
        simp only [Marking.markAll, bodyOf, Marking.kind_mark, hk, reduceCtorEq, if_false]
        have hrest := ih (g := g.after .newline) (.start hl' rfl)
        cases h with
        | start _ hg => exact .blank (by simp) (by simpa using hk) (by simpa using hg) hrest
        | indented _ hg => exact .blank (by simp) (by simpa using hk) (by simpa using hg) hrest
        | inside _ hg => exact .lineBreak (by simpa using hk) (by simpa using hg) hrest
      | @text t hk hm hl' =>
        have hmarker : t.kind ≠ .endMarker := by
          intro he
          simp [he, Kind.isText] at hk
        obtain ⟨hstart, hexp⟩ := g.after_text hk
        have hrest := ih (g := g.after t.kind) (.inside hl' hstart hexp)
        simp only [Marking.markAll, bodyOf, Marking.kind_mark, hmarker, if_false]
        cases h with
        | start _ hg => exact .first (by simp) (by simpa using hk) (by simpa using hg) hrest
        | indented _ hg => exact .first (by simp) (by simpa using hk) (by simpa using hg) hrest
        | inside _ hg hb => exact .later (by simpa using hk) (by simpa using hg) (Marking.mustIndent_mark hb hm) hrest

theorem ruled_markLines (dialect : Dialect) (source : String) :
    Ruled .start (bodyOf (markLines (lex dialect source))) :=
  ruled_take _ (.start rfl rfl)

end Offside
