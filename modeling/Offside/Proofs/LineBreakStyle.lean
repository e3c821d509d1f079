import Offside.Proofs.LexemeLine
import Offside.Proofs.Relocation
import Offside.Proofs.SourceTiling

/-! # The style of line breaks

A text may end its lines in line feeds, or in a carriage return before each of them. Both have the same token
stream, with every token and every fault on the same line and at the same column: only the bytes are counted
differently. -/

namespace Offside

/-! ### Texts with carriage returns -/

/-- The same characters with a carriage return before each line feed. -/
def returned (cs : List Char) : List Char := cs.flatMap fun c => if c = '\n' then ['\r', '\n'] else [c]

/-- The same text with a carriage return before each line feed. -/
def withReturns (source : String) : String := String.ofList (returned source.toList)

section
variable {cs : List Char} {c : Char}

@[simp] theorem returned_nil : returned [] = [] := rfl

theorem returned_cons (h : c ≠ '\n') (cs : List Char) : returned (c :: cs) = c :: returned cs := by
  simp [returned, h]

theorem returned_lineFeed (cs : List Char) : returned ('\n' :: cs) = '\r' :: '\n' :: returned cs := by
  simp [returned]

theorem returned_append (cs ds : List Char) : returned (cs ++ ds) = returned cs ++ returned ds := List.flatMap_append ..

theorem returned_of_not_mem (h : '\n' ∉ cs) : returned cs = cs := by
  induction cs with
  | nil => rfl
  | cons c cs ih =>
    obtain ⟨hc, hcs⟩ := not_or.mp (mt List.mem_cons.mpr h)
    rw [returned_cons (Ne.symm hc), ih hcs]

theorem returned_eq_nil_iff : returned cs = [] ↔ cs = [] := by
  cases cs with
  | nil => simp
  | cons c cs => by_cases hc : c = '\n' <;> simp [returned, hc]

theorem length_le_returned (cs : List Char) : cs.length ≤ (returned cs).length := by
  induction cs with
  | nil => exact Nat.le_refl 0
  | cons c cs ih =>
    by_cases hc : c = '\n'
    · subst hc
      rw [returned_lineFeed]
      exact Nat.le_succ_of_le (Nat.succ_le_succ ih)
    · rw [returned_cons hc]
      exact Nat.succ_le_succ ih

/-- The place behind a line break does not depend on its style. -/
theorem advance_returned (p : Position) (cs : List Char) : p.advance (returned cs) = p.advance cs := by
  induction cs generalizing p with
  | nil => rfl
  | cons c cs ih =>
    by_cases hc : c = '\n'
    · subst hc
      rw [returned_lineFeed]
      exact ih _
    · rw [returned_cons hc]
      exact ih _

/-! ### Runs and lexemes in both styles -/

theorem spaceRun_returned (cs : List Char) : spaceRun (returned cs) = spaceRun cs := by
  induction cs with
  | nil => rfl
  | cons c cs ih =>
    by_cases hc : c = '\n'
    · subst hc
      rfl
    · simp only [spaceRun, returned_cons hc, List.takeWhile_cons] at ih ⊢
      rw [ih]

theorem lineBreakRun_returned (h : '\r' ∉ cs) : lineBreakRun (returned cs) = returned (lineBreakRun cs) := by
  fun_induction lineBreakRun cs with
  | case1 rest ih =>
    rw [returned_lineFeed, returned_lineFeed, lineBreakRun, ih (fun hmem => h (List.mem_cons_of_mem _ hmem))]
  | case2 => simp at h
  | case3 cs hfeed hreturn =>
    cases cs with
    | nil => rfl
    | cons c cs =>
      have hc : c ≠ '\n' := fun hc => hfeed cs (by rw [hc])
      have hr : c ≠ '\r' := fun hc => h (by rw [hc]; exact List.mem_cons_self)
      rw [returned_cons hc]
      simp [lineBreakRun, hc, hr]

theorem gapRun_returned (nested comment : Bool) (h : '\r' ∉ cs) :
    gapRun nested comment (returned cs) = returned (gapRun nested comment cs) := by
  induction cs generalizing comment with
  | nil => rfl
  | cons c cs ih =>
    obtain ⟨hreturn, hcs⟩ := not_or.mp (mt List.mem_cons.mpr h)
    by_cases hfeed : c = '\n'
    · subst hfeed
      rw [returned_lineFeed, gapRun, gapRun_lineFeed, ih false hcs]
      cases nested
      · rfl
      · exact (returned_lineFeed _).symm
    · rw [returned_cons hfeed, gapRun_cons hfeed (Ne.symm hreturn), gapRun_cons hfeed (Ne.symm hreturn), ih true hcs,
        ih false hcs]
      split
      · exact (returned_cons hfeed _).symm
      split
      · exact (returned_cons hfeed _).symm
      split
      · exact (returned_cons hfeed _).symm
      · rfl

/-- The lexeme at the start of a text stands before the first line break. -/
theorem scan?_returned (cs : List Char) : Lexeme.scan? (returned cs) = Lexeme.scan? cs := by
  obtain ⟨line, rest, rfl, hline, hrest⟩ := exists_line cs
  rw [returned_append, returned_of_not_mem hline]
  rcases hrest with rfl | ⟨more, rfl⟩
  · rfl
  · rw [returned_lineFeed, Lexeme.scan?_line (.lineBreak _), Lexeme.scan?_line (.lineFeed _)]

/-- The first characters of a text in the other style, and the characters behind them. -/
theorem take_returned (cs : List Char) (n : Nat) :
    (returned cs).take (returned (cs.take n)).length = returned (cs.take n) ∧
      (returned cs).drop (returned (cs.take n)).length = returned (cs.drop n) := by
  have hsplit : returned cs = returned (cs.take n) ++ returned (cs.drop n) := by
    rw [← returned_append, List.take_append_drop]
  rw [hsplit]
  exact ⟨List.take_left' rfl, List.drop_left' rfl⟩

end

/-! ### Items without bytes -/

/-- A token without its bytes; its kind, its marks and its line and column stay. -/
def Token.unmeasured (t : Token) : Token := { t with span := { line := t.span.line, column := t.span.column } }

/-- An item without its bytes. -/
def Item.unmeasured (item : Item) : Item := item.map Token.unmeasured

namespace Lexer

/-- Two lexers at the same place of one text in the two styles. -/
structure Restyles (l k : Lexer) : Prop where
  plain : '\r' ∉ l.rest
  same : k = { l with rest := returned l.rest, offset := k.offset }

variable {l k l' : Lexer} {item : Item}

theorem Restyles.rest (h : l.Restyles k) : k.rest = returned l.rest := by rw [h.same]

theorem Restyles.advance (h : l.Restyles k) (n : Nat) :
    (l.advance n).Restyles (k.advance (returned (l.rest.take n)).length) := by
  obtain ⟨htake, hdrop⟩ := take_returned l.rest n
  refine ⟨fun hmem => h.plain (List.mem_of_mem_drop hmem), ?_⟩
  rw [h.same]
  simp only [Lexer.advance, htake, hdrop, advance_returned]

/-- Behind characters of a run. -/
theorem Restyles.advance_run (h : l.Restyles k) {run : List Char} (hrun : run <+: l.rest) :
    (l.advance run.length).Restyles (k.advance (returned run).length) := by
  have htake : l.rest.take run.length = run := (List.prefix_iff_eq_take.mp hrun).symm
  simpa only [htake] using h.advance run.length

theorem Restyles.brackets (h : l.Restyles k) : k.brackets = l.brackets := by rw [h.same]

theorem Restyles.starting (h : l.Restyles k) (lineStart : Bool) :
    Restyles { l with lineStart } { k with lineStart } := by
  refine ⟨h.plain, ?_⟩
  rw [h.same]

theorem Restyles.tracking (h : l.Restyles k) (b : Brackets) :
    Restyles { l with brackets := b, lineStart := false } { k with brackets := b, lineStart := false } := by
  refine ⟨h.plain, ?_⟩
  rw [h.same]

theorem Restyles.finish (h : l.Restyles k) : Restyles { l with finished := true } { k with finished := true } := by
  refine ⟨h.plain, ?_⟩
  rw [h.same]

/-- What one lexer answers, the other answers at the same line and column, and they stay together. -/
def Agree (r q : Item × Lexer) : Prop := q.1.unmeasured = r.1.unmeasured ∧ r.2.Restyles q.2

theorem Restyles.span (h : l.Restyles k) (kind : Kind) (n m : Nat) :
    Item.unmeasured (.ok { kind, span := k.spanOf m }) = Item.unmeasured (.ok { kind, span := l.spanOf n }) := by
  rw [h.same]
  rfl

theorem Restyles.fail (h : l.Restyles k) (fault : Fault) : Agree (l.fail fault) (k.fail fault) := ⟨rfl, h.finish⟩

theorem Restyles.lexeme (h : l.Restyles k) (c : Char) : Agree (l.lexeme c) (k.lexeme c) := by
  have hkind (x : Lexeme) : k.kindOf x = l.kindOf x := by
    rw [h.same]
    rfl
  have hposition : k.position = l.position := by rw [h.same]
  unfold Lexer.lexeme
  rw [h.rest, scan?_returned, hposition, h.brackets]
  cases hscan : Lexeme.scan? l.rest with
  | none => exact h.fail _
  | some r =>
    obtain ⟨x, n⟩ := r
    simp only [hkind]
    cases l.kindOf x with
    | error fault => exact h.fail fault
    | ok kind =>
      have hadvance := h.advance n
      rw [returned_of_not_mem (lineFeed_not_mem_scan hscan)] at hadvance
      have hlength : (l.rest.take n).length = n := List.length_take_of_le (Lexeme.length_of_scan? hscan)
      rw [hlength] at hadvance
      exact ⟨h.span kind n n, hadvance.tracking _⟩

theorem Restyles.significant (h : l.Restyles k) : Agree l.significant k.significant := by
  have hbreaks : lineBreakRun k.rest = returned (lineBreakRun l.rest) := by rw [h.rest, lineBreakRun_returned h.plain]
  cases hrest : l.rest with
  | nil =>
    rw [significant_nil hrest, significant_nil (by rw [h.rest, hrest]; rfl)]
    exact ⟨h.span .endMarker 0 0, h.finish⟩
  | cons c cs =>
    by_cases hb : lineBreakRun l.rest = []
    · have hc : c ≠ '\n' := by
        rintro rfl
        simp [hrest, lineBreakRun] at hb
      have hrest' : k.rest = c :: returned cs := by rw [h.rest, hrest, returned_cons hc]
      rw [hb] at hbreaks
      rw [significant_lexeme hrest (hrest ▸ hb), significant_lexeme hrest' (hrest' ▸ hbreaks)]
      exact h.lexeme c
    · have hb' : lineBreakRun k.rest ≠ [] := by
        rw [hbreaks]
        exact mt returned_eq_nil_iff.mp hb
      rw [significant_break hb, significant_break hb', hbreaks]
      have hadvance := h.advance_run ⟨_, lineBreakRun_append_drop l.rest⟩
      exact ⟨h.span .newline _ _, hadvance.starting true⟩

theorem Restyles.skipGap (h : l.Restyles k) : l.skipGap.Restyles k.skipGap := by
  have hgap : gapRun k.brackets.nested false k.rest = returned (gapRun l.brackets.nested false l.rest) := by
    rw [h.rest, h.brackets, gapRun_returned _ _ h.plain]
  rw [Lexer.skipGap, Lexer.skipGap, hgap]
  exact h.advance_run ⟨_, gapRun_append_drop ..⟩

theorem Restyles.indentation? (h : l.Restyles k) :
    (l.indentation? = none ∧ k.indentation? = none) ∨
      ∃ r q, l.indentation? = some r ∧ k.indentation? = some q ∧ Agree r q := by
  have hspaces : spaceRun k.rest = spaceRun l.rest := by rw [h.rest, spaceRun_returned]
  have hline : k.lineStart = l.lineStart := by rw [h.same]
  have hrun : spaceRun l.rest <+: l.rest := List.takeWhile_prefix _
  have hfeed : returned (spaceRun l.rest) = spaceRun l.rest := by
    refine returned_of_not_mem fun hmem => ?_
    simpa using List.mem_takeWhile_imp hmem
  have hadvance := h.advance_run hrun
  rw [hfeed] at hadvance
  have hhead : (k.rest.drop (spaceRun l.rest).length).head? = some '#' ↔
      (l.rest.drop (spaceRun l.rest).length).head? = some '#' := by
    have hrest : k.rest.drop (spaceRun l.rest).length = returned (l.rest.drop (spaceRun l.rest).length) := hadvance.rest
    rw [hrest]
    cases l.rest.drop (spaceRun l.rest).length with
    | nil => simp
    | cons c cs => by_cases hc : c = '\n' <;> simp [returned, hc]
  simp only [Lexer.indentation?, hspaces, hline, h.brackets, ne_eq, hhead]
  split
  · exact .inr ⟨_, _, rfl, rfl, h.span _ _ _, hadvance.starting false⟩
  · exact .inl ⟨rfl, rfl⟩

theorem Restyles.next? (h : l.Restyles k) :
    (l.next? = none ∧ k.next? = none) ∨ ∃ r q, l.next? = some r ∧ k.next? = some q ∧ Agree r q := by
  have hfinished : k.finished = l.finished := by rw [h.same]
  unfold Lexer.next?
  rw [hfinished]
  split
  · exact .inl ⟨rfl, rfl⟩
  · rcases h.indentation? with ⟨hl, hk⟩ | ⟨r, q, hl, hk, hagree⟩
    · rw [hl, hk]
      exact .inr ⟨_, _, rfl, rfl, h.skipGap.significant⟩
    · rw [hl, hk]
      exact .inr ⟨r, q, rfl, rfl, hagree⟩

theorem Restyles.take (h : l.Restyles k) (fuel : Nat) :
    (k.take fuel).map Item.unmeasured = (l.take fuel).map Item.unmeasured := by
  induction fuel generalizing l k with
  | zero => rfl
  | succ fuel ih =>
    rcases h.next? with ⟨hl, hk⟩ | ⟨r, q, hl, hk, hitem, hrest⟩
    · simp only [Lexer.take, hl, hk]
    · simp only [Lexer.take, hl, hk, List.map_cons, hitem, ih hrest]

end Lexer

theorem unmeasured_lex (dialect : Dialect) {source : String} (h : '\r' ∉ source.toList) :
    (lex dialect (withReturns source)).map Item.unmeasured = (lex dialect source).map Item.unmeasured := by
  have htext : (withReturns source).toList = returned source.toList := String.toList_ofList
  have hnew : (Lexer.new dialect source).Restyles (Lexer.new dialect (withReturns source)) :=
    ⟨h, by simp only [Lexer.new, htext]⟩
  have hle := length_le_returned source.toList
  rw [← take_eq_lex dialect (n := (returned source.toList).length + 1) (by rw [htext]; omega),
    ← take_eq_lex dialect (n := (returned source.toList).length + 1) (by omega)]
  exact hnew.take _

/-! ### Marks and blocks do not look at bytes -/

/-- All bytes taken away. -/
def Relocation.unmeasured : Relocation where
  span := fun s => { line := s.line, column := s.column }
  position := fun p => p
  start := fun _ => rfl
  before := fun _ => rfl
  nowhere := rfl

theorem Item.relocated_unmeasured : Item.relocated .unmeasured = Item.unmeasured := by
  funext item
  cases item with
  | ok t => rfl
  | error fault => cases fault <;> rfl

theorem Marking.markAll_unmeasured (g : Marking) (items : List Item) :
    g.markAll (items.map Item.unmeasured) = (g.markAll items).map Item.unmeasured :=
  Item.relocated_unmeasured ▸ g.markAll_relocated .unmeasured items

theorem layOut_unmeasured (items : List Item) :
    layOut (items.map Item.unmeasured) = (layOut items).map Item.unmeasured :=
  Item.relocated_unmeasured ▸ layOut_relocated .unmeasured items

/-! ### Streams -/

/-- What a reader of messages sees of an item: the kind of a token and its line and column, or the fault. -/
def Item.shown (item : Item) : Except Fault (Kind × Position) := item.map fun t => (t.kind, t.span.start)

theorem Item.shown_unmeasured (item : Item) : item.unmeasured.shown = item.shown := by
  cases item <;> rfl

/-- A text of lines that end in line feeds and the same text with a carriage return before each of them have the
    same token stream: the same kinds in the same order, on the same lines and at the same columns, up to the same
    end or the same fault. -/
theorem tokenStream_withReturns (dialect : Dialect) {source : String} (h : '\r' ∉ source.toList) :
    (tokenStream dialect (withReturns source)).map Item.shown = (tokenStream dialect source).map Item.shown := by
  have hstream (source : String) : (tokenStream dialect source).map Item.shown =
      (layOut (markLines ((lex dialect source).map Item.unmeasured))).map Item.shown := by
    rw [markLines, Marking.markAll_unmeasured, layOut_unmeasured, List.map_map]
    exact List.map_congr_left fun item _ => (Item.shown_unmeasured item).symm
  rw [hstream, hstream, unmeasured_lex dialect h]

/-- Line breaks behind a comment, inside brackets, before an indented line and inside an unfinished string. -/
def brokenLines : String := "if a: # note\n  b = (1,\n2)\n\nc = \"d\n"

theorem tokenStream_withReturns_brokenLines : '\r' ∉ brokenLines.toList ∧ brokenLines ≠ withReturns brokenLines ∧
    (tokenStream .english (withReturns brokenLines)).map Item.shown =
      (tokenStream .english brokenLines).map Item.shown :=
  ⟨by decide, by decide, tokenStream_withReturns .english (by decide)⟩

end Offside
