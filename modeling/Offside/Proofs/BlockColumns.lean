import Offside.Proofs.StmtTokens

/-! # Columns decide which block a statement belongs to

The statements of a file that come first on their line stand at the left margin, and those of an indented
block at one column to the right of the statement that owns it. A suite on the line of its owner has no
statement that comes first on a line, and every compound statement comes first on its line. -/

namespace Offside

/-- Whether only spaces stand before a statement on its line. -/
def Stmt.isFirst (source : String) (s : Stmt) : Bool := isFirstOnLine source s.span.offset

/-- A statement of a row, or one in a suite of it, however deep. -/
inductive Inside : List Stmt → Stmt → Prop
  | here {ss : List Stmt} {s : Stmt} : s ∈ ss → Inside ss s
  | deeper {ss : List Stmt} {owner s : Stmt} {b : Block} : owner ∈ ss → b ∈ owner.suites → Inside b.stmts s → Inside ss s

/-- All statements that come first on their line stand at a column. -/
def AtColumn (source : String) (column : Nat) (ss : List Stmt) : Prop :=
  ∀ s ∈ ss, s.isFirst source = true → s.span.column = column

/-- The suite of a statement at a column is a block further to the right, or stands on the statement's line. -/
structure Hangs (source : String) (column : Nat) (ss : List Stmt) : Prop where
  block : ∀ first ∈ ss.head?, first.isFirst source = true → ∃ inner, column < inner ∧ AtColumn source inner ss
  inline : ∀ first ∈ ss.head?, first.isFirst source = false → ∀ s ∈ ss, s.isFirst source = false

/-- A statement and its suites stand as their columns say. -/
structure Aligned (source : String) (s : Stmt) : Prop where
  first : s.isCompound = true → s.isFirst source = true
  suites : ∀ b ∈ s.suites, Hangs source s.span.column b.stmts

/-! ### Places along an arrangement -/

section
variable {source : String} {p : Site} {t : Token} {s : Span} {v w : List Token}

theorem laid_append : Laid source p (w ++ v) ↔ Laid source p w ∧ Laid source (w.foldl Site.after p) v := by
  induction w generalizing p with
  | nil => simp [Laid]
  | cons t w ih => simp only [List.cons_append, Laid, List.foldl_cons, ih, and_assoc]

theorem offset_after {p : Site} (ht : p.Fits source t) : p.offset ≤ (p.after t).offset ∧
    (t.kind.isText = true → (p.after t).offset = t.span.offset) := by
  cases hk : t.kind.isText with
  | true =>
    rw [Site.after_text hk]
    exact ⟨ht.order hk, fun _ => rfl⟩
  | false =>
    refine ⟨?_, by simp⟩
    cases hkind : t.kind <;> simp_all [Site.after, Kind.isText]

/-- Tokens that fit stand in order. -/
theorem Laid.inOrder (h : Laid source p w) :
    InOrder w ∧ ∀ t ∈ w, t.kind.isText = true → p.offset ≤ t.span.offset := by
  induction w generalizing p with
  | nil => exact ⟨.nil, by simp⟩
  | cons t w ih =>
    obtain ⟨hfits, hrest⟩ := h
    obtain ⟨horder, hlo⟩ := ih hrest
    obtain ⟨hle, heq⟩ := offset_after hfits
    refine ⟨List.pairwise_cons.mpr ⟨fun u hu ht hutext => ?_, horder⟩, ?_⟩
    · rw [← heq ht]
      exact hlo u hu hutext
    · intro u hu hutext
      rcases List.mem_cons.mp hu with rfl | hu
      · exact hfits.order hutext
      · exact Nat.le_trans hle (hlo u hu hutext)

/-- At the start of a line a span stands at the innermost column. -/
theorem Starts.first (h : Starts s w) (hl : Laid source p w) (hlast : p.last = none) :
    s.column = p.levels.headD 0 ∧ isFirstOnLine source s.offset = true := by
  obtain ⟨t, rest, rfl, ht, hs⟩ := h
  obtain ⟨hoff, hcol⟩ := hs hl.inOrder.1
  rw [hoff, hcol]
  exact hl.1.first ht hlast

/-- Behind a colon or a semicolon a span does not come first on its line. -/
theorem Starts.later (h : Starts s w) (hl : Laid source p w) (hb : p.brackets = {}) {k : Kind} (hlast : p.last = some k)
    (hk : k.endsClause = true) : isFirstOnLine source s.offset = false := by
  obtain ⟨t, rest, rfl, ht, hs⟩ := h
  rw [(hs hl.inOrder.1).1]
  exact hl.1.later ht (by rw [hb]; rfl) k hlast hk

/-- Tokens of one line leave the open blocks and, all in all, the brackets as they are. -/
theorem Flat.after (h : Flat w) : (w.foldl Site.after p).levels = p.levels ∧ (w.foldl Site.after p).brackets = p.brackets := by
  obtain ⟨htext, hclosed⟩ := h
  have hfold : (w.foldl Site.after p).levels = p.levels ∧
      (w.foldl Site.after p).brackets = (w.map (·.kind)).foldl Brackets.track p.brackets := by
    clear hclosed
    induction w generalizing p with
    | nil => exact ⟨rfl, rfl⟩
    | cons t w ih =>
      obtain ⟨ht, htext⟩ := List.forall_mem_cons.mp htext
      rw [List.foldl_cons, List.map_cons, List.foldl_cons, Site.after_text ht]
      exact ih htext
  rw [hclosed] at hfold
  exact hfold

end

/-- Between two places the open blocks stay, and the second place is at the start of a line. -/
structure Settles (p q : Site) : Prop where
  levels : q.levels = p.levels
  brackets : q.brackets = {}
  last : q.last = none

section
variable {source : String} {p q : Site} {w : List Token} {ss : List Stmt}

theorem Settles.trans {r : Site} (h : Settles p q) (h' : Settles q r) : Settles p r :=
  ⟨h'.levels.trans h.levels, h'.brackets, h'.last⟩

theorem settles_newline {t : Token} (ht : t.kind = .newline) : Settles p (p.after t) := by
  rw [Site.after_newline ht]
  exact ⟨rfl, rfl, rfl⟩

theorem Row.settles (h : Row w ss) {t : Token} (ht : t.kind = .newline) : Settles p ((w ++ [t]).foldl Site.after p) := by
  rw [List.foldl_append]
  have hline := settles_newline (p := w.foldl Site.after p) ht
  exact ⟨hline.levels.trans h.flat.after.1, hline.brackets, hline.last⟩

/-- The place behind the header and the colon of a clause. -/
theorem after_header {c : Clause} (hflat : Flat c.header) (hcolon : c.colon.kind = .symbol .colon) (hb : p.brackets = {}) :
    ((c.header ++ [c.colon]).foldl Site.after p).levels = p.levels ∧
      ((c.header ++ [c.colon]).foldl Site.after p).brackets = {} ∧
      ((c.header ++ [c.colon]).foldl Site.after p).last = some (.symbol .colon) := by
  obtain ⟨hl, hb'⟩ := hflat.after (p := p)
  rw [List.foldl_append, List.foldl_cons, List.foldl_nil, Site.after_text (by rw [hcolon]; rfl), hcolon]
  exact ⟨hl, hb'.trans hb, rfl⟩

theorem Clause.tokens_eq (c : Clause) : c.tokens = (c.header ++ [c.colon]) ++ c.body := by simp [tokens]

/-- Clauses lead from line start to line start if their suites do. -/
theorem settles_clauses {cs : List Clause} (hne : cs ≠ [])
    (hheaded : ∀ c ∈ cs, Flat c.header ∧ c.colon.kind = .symbol .colon)
    (hsuites : ∀ c ∈ cs, ∀ q : Site, q.brackets = {} → Settles q (c.body.foldl Site.after q)) (hb : p.brackets = {}) :
    Settles p ((cs.flatMap Clause.tokens).foldl Site.after p) := by
  induction cs generalizing p with
  | nil => exact absurd rfl hne
  | cons c cs ih =>
    obtain ⟨⟨hflat, hcolon⟩, hheaded⟩ := List.forall_mem_cons.mp hheaded
    obtain ⟨hsuite, hsuites⟩ := List.forall_mem_cons.mp hsuites
    obtain ⟨hl, hb', -⟩ := after_header hflat hcolon hb
    have hbody := hsuite _ hb'
    rw [List.flatMap_cons, List.foldl_append, c.tokens_eq, List.foldl_append]
    have hfirst : Settles p (c.body.foldl Site.after ((c.header ++ [c.colon]).foldl Site.after p)) :=
      ⟨hbody.levels.trans hl, hbody.brackets, hbody.last⟩
    cases cs with
    | nil => exact hfirst
    | cons d ds => exact hfirst.trans (ih (by simp) hheaded hsuites hfirst.brackets)

/-- An arrangement leads from line start to line start, and a suite from behind its colon. -/
theorem Arranged.settles {k : Shape} (h : Arranged k w ss) (hb : p.brackets = {}) (hlast : k = .lines → p.last = none) :
    Settles p (w.foldl Site.after p) := by
  induction h generalizing p with
  | row hrow ht | inline hrow ht => exact hrow.settles ht
  | @compound t s cs hflat hne _ _ hheaded _ ih =>
    have hword := (Flat.single hflat).after (p := p)
    have hclauses := settles_clauses hne hheaded (fun c hc q hq => ih c hc hq (by simp)) (hword.2.trans hb)
    exact ⟨hclauses.levels.trans hword.1, hclauses.brackets, hclauses.last⟩
  | @block t first last w ss ht hfirst _ hend ih =>
    rw [List.foldl_cons, List.foldl_cons, List.foldl_append, Site.after_blockStart hfirst, Site.after_newline ht]
    have hlines := ih (p := { p with brackets := {}, last := none, levels := first.span.column :: p.levels }) rfl fun _ => rfl
    rw [List.foldl_cons, List.foldl_nil, Site.after_blockEnd hend]
    exact ⟨by rw [hlines.levels]; rfl, hlines.brackets, hlines.last⟩
  | empty => exact ⟨rfl, hb, hlast rfl⟩
  | blank _ ht ih =>
    rw [List.foldl_append]
    exact (ih hb hlast).trans (settles_newline ht)
  | more _ _ ihw ihv =>
    rw [List.foldl_append]
    have hw := ihw hb hlast
    exact hw.trans (ihv hw.brackets (by simp))

/-- Each suite is laid out behind a colon among the same blocks. -/
theorem laid_clauses {cs : List Clause} (hcs : ∀ c ∈ cs, Flat c.header ∧ c.colon.kind = .symbol .colon)
    (hsuites : ∀ c ∈ cs, Arranged .suite c.body c.stmts) (hb : p.brackets = {})
    (hl : Laid source p (cs.flatMap Clause.tokens)) :
    ∀ c ∈ cs, ∃ q : Site, q.levels = p.levels ∧ q.brackets = {} ∧ q.last = some (.symbol .colon) ∧ Laid source q c.body := by
  induction cs generalizing p with
  | nil => simp
  | cons c cs ih =>
    obtain ⟨⟨hflat, hcolon⟩, hcs⟩ := List.forall_mem_cons.mp hcs
    obtain ⟨hsuite, hsuites⟩ := List.forall_mem_cons.mp hsuites
    obtain ⟨hlevels, hb', hlast⟩ := after_header hflat hcolon hb
    rw [List.flatMap_cons, c.tokens_eq, laid_append, laid_append] at hl
    obtain ⟨⟨-, hbody⟩, hrest⟩ := hl
    rw [List.foldl_append] at hrest
    have hsettles := hsuite.settles hb' (by simp)
    refine List.forall_mem_cons.mpr ⟨⟨_, hlevels, hb', hlast, hbody⟩, fun d hd => ?_⟩
    obtain ⟨q, hq, hrest⟩ := ih hcs hsuites hsettles.brackets hrest d hd
    exact ⟨q, hq.trans (hsettles.levels.trans hlevels), hrest⟩

end

/-! ### Columns along an arrangement -/

/-- All statements of a row and inside it are aligned. -/
def AllAligned (source : String) (ss : List Stmt) : Prop := ∀ s, Inside ss s → Aligned source s

theorem Inside.of_append {ss rs : List Stmt} {s : Stmt} (h : Inside (ss ++ rs) s) : Inside ss s ∨ Inside rs s := by
  cases h with
  | here hmem => exact (List.mem_append.mp hmem).imp .here .here
  | deeper hmem hb hs => exact (List.mem_append.mp hmem).imp (.deeper · hb hs) (.deeper · hb hs)

namespace Shape

/-- The last token of the line before an arrangement. -/
def entry : Shape → Option Kind
  | .suite => some (.symbol .colon)
  | _ => none

/-- How the statements of an arrangement stand to the column of the block around it. -/
def Stands (source : String) (column : Nat) (ss : List Stmt) : Shape → Prop
  | .suite => Hangs source column ss
  | _ => AtColumn source column ss ∧ ∀ s ∈ ss.head?, s.isFirst source = true

end Shape

section
variable {source : String} {p : Site} {w : List Token} {ss : List Stmt}

/-- Only the first statement of a row can come first on a line. -/
theorem Row.laid (h : Row w ss) (hl : Laid source p w) (hb : p.brackets = {}) :
    ∃ first others, ss = first :: others ∧ Starts first.span w ∧ ∀ s ∈ others, s.isFirst source = false := by
  induction h with
  | @one w s _ hs => exact ⟨s, [], rfl, hs.starts, by simp⟩
  | @more w v ss t s hrow ht _ hs ih =>
    rw [laid_append] at hl
    obtain ⟨hw, -, hv⟩ := hl
    obtain ⟨first, others, rfl, hfirst, hothers⟩ := ih hw
    rw [Site.after_text (by rw [ht]; rfl), ht] at hv
    have hlater := hs.starts.later hv (hrow.flat.after.2.trans hb) rfl rfl
    refine ⟨first, others ++ [s], rfl, hfirst.append _, fun r hr => ?_⟩
    rcases List.mem_append.mp hr with hr | hr
    · exact hothers r hr
    · rw [List.mem_singleton.mp hr]
      exact hlater
  | trailing _ _ ih =>
    obtain ⟨first, others, rfl, hfirst, hothers⟩ := ih (laid_append.mp hl).1
    exact ⟨first, others, rfl, hfirst.append _, hothers⟩

theorem Row.allAligned (h : Row w ss) : AllAligned source ss := by
  intro s hs
  cases hs with
  | here hmem =>
    have hsimple := h.not_isCompound s hmem
    refine ⟨fun hc => by simp [hsimple] at hc, fun b hb => ?_⟩
    rw [Stmt.suites_of_not_isCompound hsimple] at hb
    cases hb
  | @deeper _ owner _ b hmem hb _ =>
    rw [Stmt.suites_of_not_isCompound (h.not_isCompound owner hmem)] at hb
    cases hb

/-- At the start of a line a row stands at the innermost column. -/
theorem Row.stands (h : Row w ss) (hl : Laid source p w) (hb : p.brackets = {}) (hlast : p.last = none) :
    AtColumn source (p.levels.headD 0) ss ∧ ∀ s ∈ ss.head?, s.isFirst source = true := by
  obtain ⟨first, others, rfl, hstarts, hothers⟩ := h.laid hl hb
  obtain ⟨hcol, hfirst⟩ := hstarts.first hl hlast
  refine ⟨List.forall_mem_cons.mpr ⟨fun _ => hcol, fun s hs hf => ?_⟩, ?_⟩
  · rw [hothers s hs] at hf
    cases hf
  · rintro s hs
    obtain rfl := Option.some.inj hs
    exact hfirst

theorem Row.hangs (h : Row w ss) (hl : Laid source p w) (hb : p.brackets = {}) (hlast : p.last = some (.symbol .colon))
    (column : Nat) : Hangs source column ss := by
  obtain ⟨first, others, rfl, hstarts, hothers⟩ := h.laid hl hb
  have hlater : ∀ s ∈ first :: others, s.isFirst source = false :=
    List.forall_mem_cons.mpr ⟨hstarts.later hl hb hlast rfl, hothers⟩
  refine ⟨fun s hs hf => ?_, fun _ _ _ => hlater⟩
  rw [hlater s (List.mem_of_head? hs)] at hf
  cases hf

theorem Aligned.single {s : Stmt} (h : Aligned source s) (hsuites : ∀ b ∈ s.suites, AllAligned source b.stmts) :
    AllAligned source [s] := by
  intro r hr
  cases hr with
  | here hmem =>
    rw [List.mem_singleton.mp hmem]
    exact h
  | deeper hmem hb hr =>
    rw [List.mem_singleton.mp hmem] at hb
    exact hsuites _ hb r hr

theorem Arranged.stands {k : Shape} (h : Arranged k w ss) (hl : Laid source p w) (hb : p.brackets = {})
    (hlast : p.last = k.entry) : k.Stands source (p.levels.headD 0) ss ∧ AllAligned source ss := by
  induction h generalizing p with
  | row hrow _ => exact ⟨hrow.stands (laid_append.mp hl).1 hb hlast, hrow.allAligned⟩
  | @compound t s cs hflat _ hstarts hsuites hheaded hcs ih =>
    obtain ⟨hcol, hfirst⟩ := hstarts.first hl hlast
    obtain ⟨hlevels, hb'⟩ := (Flat.single hflat).after (p := p)
    have hclauses := laid_clauses hheaded hcs (hb'.trans hb) hl.2
    have hsuite : ∀ b ∈ s.suites, Hangs source s.span.column b.stmts ∧ AllAligned source b.stmts := by
      intro b hmem
      rw [hsuites] at hmem
      obtain ⟨c, hc, rfl⟩ := List.mem_map.mp hmem
      obtain ⟨q, hq, hqb, hqlast, hqlaid⟩ := hclauses c hc
      have hstands := ih c hc hqlaid hqb hqlast
      rw [hq] at hstands
      rw [Block.stmts_ofStmts, hcol, ← hlevels]
      exact hstands
    have haligned : Aligned source s := ⟨fun _ => hfirst, fun b hmem => (hsuite b hmem).1⟩
    refine ⟨⟨List.forall_mem_singleton.mpr fun _ => hcol, ?_⟩, haligned.single fun b hmem => (hsuite b hmem).2⟩
    rintro r hr
    obtain rfl := Option.some.inj hr
    exact hfirst
  | inline hrow _ => exact ⟨hrow.hangs (laid_append.mp hl).1 hb hlast _, hrow.allAligned⟩
  | @block t first last w ss ht hfirst _ _ ih =>
    obtain ⟨-, hopens, hw⟩ := hl
    have hopens := hopens.opens hfirst
    rw [Site.after_blockStart hfirst, Site.after_newline ht] at hw
    rw [Site.after_newline ht] at hopens
    obtain ⟨⟨hcolumn, hhead⟩, haligned⟩ := ih (laid_append.mp hw).1 rfl rfl
    refine ⟨⟨fun _ _ _ => ⟨first.span.column, hopens, hcolumn⟩, fun s hs hf => ?_⟩, haligned⟩
    rw [hhead s hs] at hf
    cases hf
  | empty => exact ⟨⟨by simp [AtColumn], by simp⟩, fun s hs => by cases hs <;> simp_all⟩
  | blank _ _ ih => exact ih (laid_append.mp hl).1 hb hlast
  | @more w v ss rs hlines _ ihw ihv =>
    obtain ⟨hw, hv⟩ := laid_append.mp hl
    have hsettles := hlines.settles hb fun _ => hlast
    obtain ⟨⟨hcolumn, hhead⟩, haligned⟩ := ihw hw hb hlast
    have hrest := ihv hv hsettles.brackets hsettles.last
    rw [hsettles.levels] at hrest
    obtain ⟨⟨hcolumn', hhead'⟩, haligned'⟩ := hrest
    refine ⟨⟨?_, ?_⟩, ?_⟩
    · intro s hs
      exact (List.mem_append.mp hs).elim (hcolumn s) (hcolumn' s)
    · intro s hs
      cases ss with
      | nil => exact hhead' s hs
      | cons first others => exact hhead s hs
    · intro s hs
      exact hs.of_append.elim (haligned s) (haligned' s)

end

/-- In a program that has been read, the statements of the file that come first on their line stand at
    column zero, every compound statement comes first on its line, and each of its suites is either a block
    whose statements stand at one column to the right of the statement, as far as they come first on their
    line, or has no statement that does. -/
theorem columns_of_parse {dialect : Dialect} {source : String} {m : Module} (h : parse dialect source = .ok m) :
    (∀ s ∈ m.body.stmts, s.isFirst source = true → s.span.column = 0) ∧
      ∀ s, Inside m.body.stmts s →
        (s.isCompound = true → s.isFirst source = true) ∧
        ∀ b ∈ s.suites, ∀ first ∈ b.stmts.head?,
          (first.isFirst source = true →
            ∃ column, s.span.column < column ∧ ∀ t ∈ b.stmts, t.isFirst source = true → t.span.column = column) ∧
          (first.isFirst source = false → ∀ t ∈ b.stmts, t.isFirst source = false) := by
  unfold parse Parse.run at h
  split at h
  · next m' d hm =>
    obtain rfl := Except.ok.inj h
    obtain ⟨v, hd, _, rfl, w, t, rfl, harranged⟩ := Parse.takes_module (tokenStream dialect source) [] ⟨rfl, rfl⟩ hm
    have hlaid := laid_tokenStream dialect source
    rw [hd.ahead, soundOf_map_append, laid_append, laid_append] at hlaid
    obtain ⟨⟨hcolumn, -⟩, haligned⟩ := harranged.stands hlaid.1.1 rfl rfl
    refine ⟨hcolumn, fun s hs => ?_⟩
    have hs := haligned s hs
    exact ⟨hs.first, fun b hb first hf => ⟨(hs.suites b hb).block first hf, (hs.suites b hb).inline first hf⟩⟩
  · cases h

/-- A branch with two lines around a comment, the second of them a loop with brackets over two lines, and an
    alternative on one line. -/
def nestedSteps : String := "if a:\n  b; c\n  # note\n  while (d\n): e; f\nelse: g; h\n"

/-- Each statement in the suites of a row: whether it comes first on its line, and its column. -/
def suiteColumns (source : String) (ss : List Stmt) : List (List (List (Bool × Nat))) :=
  ss.map fun s => s.suites.map fun b => b.stmts.map fun t => (t.isFirst source, t.span.column)

theorem columns_of_parse_nestedSteps : ∃ m, parse .english nestedSteps = .ok m ∧
    suiteColumns nestedSteps m.body.stmts = [[[(true, 2), (false, 5), (true, 2)], [(false, 6), (false, 9)]]] ∧
    (∀ s ∈ m.body.stmts, s.isFirst nestedSteps = true → s.span.column = 0) ∧
    ∀ s, Inside m.body.stmts s → s.isCompound = true → s.isFirst nestedSteps = true := by
  have hread : (parse .english nestedSteps).toOption.map (fun m => suiteColumns nestedSteps m.body.stmts) =
      some [[[(true, 2), (false, 5), (true, 2)], [(false, 6), (false, 9)]]] := by
    decide +kernel
  obtain ⟨m, hm, hcolumns⟩ := Option.map_eq_some_iff.mp hread
  have hparse : parse .english nestedSteps = .ok m := by
    cases h : parse .english nestedSteps with
    | error e => simp [h, Except.toOption] at hm
    | ok m' => simpa [h, Except.toOption] using hm
  obtain ⟨hmargin, hinside⟩ := columns_of_parse hparse
  exact ⟨m, hparse, hcolumns, hmargin, fun s hs => (hinside s hs).1⟩

end Offside
