import Offside.Parse.Stmt
import Offside.Proofs.TokenTaking

/-! # The tokens of statements

A file is read from tokens in an arrangement of statements: simple statements in a row, and compound
statements whose suites stand behind a colon, on the same line or as a block. The span of each statement
starts where the first of its tokens does. -/

namespace Offside

namespace Stmt

/-- Whether a statement owns suites. -/
def isCompound : Stmt → Bool
  | .ifElse .. | .whileLoop .. | .forLoop .. | .closure .. => true
  | _ => false

/-- The suites that a statement owns, in order. -/
def suites : Stmt → List Block
  | .ifElse _ branches orelse => branches.map (·.2) ++ orelse.toList
  | .whileLoop _ _ body orelse | .forLoop _ _ _ body orelse => body :: orelse.toList
  | .closure _ c => [c.body]
  | _ => []

theorem suites_of_not_isCompound {s : Stmt} (h : s.isCompound = false) : s.suites = [] := by
  cases s <;> first | rfl | cases h

end Stmt

@[simp] theorem Block.stmts_ofStmts (ss : List Stmt) : (Block.ofStmts ss).stmts = ss := by
  unfold ofStmts
  split <;> rfl

/-! ### Arrangements -/

/-- Simple statements with semicolons between them and perhaps behind the last. -/
inductive Row : List Token → List Stmt → Prop
  | one {w : List Token} {s : Stmt} : s.isCompound = false → Stretch s.span w → Row w [s]
  | more {w v : List Token} {ss : List Stmt} {t : Token} {s : Stmt} : Row w ss → t.kind = .symbol .semicolon →
    s.isCompound = false → Stretch s.span v → Row (w ++ t :: v) (ss ++ [s])
  | trailing {w : List Token} {ss : List Stmt} {t : Token} : Row w ss → t.kind = .symbol .semicolon → Row (w ++ [t]) ss

/-- A suite with the tokens in front of it. -/
structure Clause where
  header : List Token
  colon : Token
  body : List Token
  stmts : List Stmt

def Clause.tokens (c : Clause) : List Token := c.header ++ c.colon :: c.body

/-- The suites of clauses. -/
def suitesOf (cs : List Clause) : List Block := cs.map (.ofStmts ·.stmts)

/-- What an arrangement of tokens is read as. -/
inductive Shape where
  | stmt | suite | lines

/-- Tokens arranged as statements. -/
inductive Arranged : Shape → List Token → List Stmt → Prop
  | row {w : List Token} {ss : List Stmt} {t : Token} : Row w ss → t.kind = .newline → Arranged .stmt (w ++ [t]) ss
  | compound {t : Token} {s : Stmt} {cs : List Clause} : t.kind.isFlat = true → cs ≠ [] →
    Starts s.span (t :: cs.flatMap Clause.tokens) → s.suites = suitesOf cs →
    (∀ c ∈ cs, Flat c.header ∧ c.colon.kind = .symbol .colon) → (∀ c ∈ cs, Arranged .suite c.body c.stmts) →
    Arranged .stmt (t :: cs.flatMap Clause.tokens) [s]
  | inline {w : List Token} {ss : List Stmt} {t : Token} : Row w ss → t.kind = .newline →
    Arranged .suite (w ++ [t]) ss
  | block {t first last : Token} {w : List Token} {ss : List Stmt} : t.kind = .newline → first.kind = .blockStart →
    Arranged .lines w ss → last.kind = .blockEnd → Arranged .suite (t :: first :: (w ++ [last])) ss
  | empty : Arranged .lines [] []
  | blank {w : List Token} {ss : List Stmt} {t : Token} : Arranged .lines w ss → t.kind = .newline →
    Arranged .lines (w ++ [t]) ss
  | more {w v : List Token} {ss rs : List Stmt} : Arranged .lines w ss → Arranged .stmt v rs →
    Arranged .lines (w ++ v) (ss ++ rs)

theorem Arranged.ne_nil {w : List Token} {ss : List Stmt} (h : Arranged .stmt w ss) : w ≠ [] := by
  cases h <;> simp

theorem Row.flat {w : List Token} {ss : List Stmt} (h : Row w ss) : Flat w := by
  induction h with
  | one _ hs => exact hs.flat
  | more _ ht _ hs ih => exact ih.append (.cons (by rw [ht]; rfl) hs.flat)
  | trailing _ ht ih => exact ih.concat (by rw [ht]; rfl)

theorem Row.not_isCompound {w : List Token} {ss : List Stmt} (h : Row w ss) : ∀ s ∈ ss, s.isCompound = false := by
  induction h with
  | one hs => exact List.forall_mem_singleton.mpr hs
  | more _ _ hs _ ih =>
    intro r hr
    rcases List.mem_append.mp hr with hr | hr
    · exact ih r hr
    · rw [List.mem_singleton.mp hr]
      exact hs
  | trailing _ _ ih => exact ih

theorem Row.startsIn {w : List Token} {ss : List Stmt} (h : Row w ss) : ∀ s ∈ ss, StartsIn s.span w := by
  induction h with
  | one _ hs => exact List.forall_mem_singleton.mpr hs.starts.startsIn
  | @more w v ss t s _ _ _ hs ih =>
    intro r hr
    rcases List.mem_append.mp hr with hr | hr
    · exact (ih r hr).append_right _
    · rw [List.mem_singleton.mp hr]
      simpa using hs.starts.startsIn.append_left (w ++ [t])
  | trailing _ _ ih => exact fun r hr => (ih r hr).append_right _

/-- Every statement starts at a token of its arrangement. -/
theorem Arranged.startsIn {k : Shape} {w : List Token} {ss : List Stmt} (h : Arranged k w ss) :
    ∀ s ∈ ss, StartsIn s.span w := by
  induction h with
  | row h _ | inline h _ => exact fun s hs => (h.startsIn s hs).append_right _
  | compound _ _ hs => exact List.forall_mem_singleton.mpr hs.startsIn
  | @block t first last w ss _ _ _ _ ih =>
    exact fun s hs => ((ih s hs).append_right [last]).append_left [t, first]
  | empty => simp
  | blank _ _ ih => exact fun s hs => (ih s hs).append_right _
  | more _ _ ihw ihv =>
    intro s hs
    rcases List.mem_append.mp hs with hs | hs
    · exact (ihw s hs).append_right _
    · exact (ihv s hs).append_left _

theorem StartsIn.join {s r : Span} {w : List Token} (hs : StartsIn s w) (hr : StartsIn r w) : StartsIn (s.join r) w := by
  intro ho
  rw [Span.offset_join]
  rcases Nat.le_total s.offset r.offset with hle | hle
  · rw [Nat.min_eq_left hle]
    exact hs ho
  · rw [Nat.min_eq_right hle]
    exact hr ho

theorem startsIn_block {w : List Token} {ss : List Stmt} (h : ∀ s ∈ ss, StartsIn s.span w) (hne : ss ≠ []) :
    StartsIn (Block.ofStmts ss).span w := by
  unfold Block.ofStmts
  split
  · next first last hfirst hlast =>
    exact (h first (List.mem_of_head? hfirst)).join (h last (List.mem_of_getLast? hlast))
  · next hnone =>
    obtain ⟨s, ss, rfl⟩ := List.exists_cons_of_ne_nil hne
    exact absurd (List.getLast?_eq_some_getLast hne) (hnone _ _ rfl)

namespace Parse
variable {stream : List Item} {u : List Token}

/-! ### Simple statements -/

/-- A reader of simple statements takes the tokens that they stand at. -/
def Small (s : Stmt) (w : List Token) : Prop := s.isCompound = false ∧ Stretch s.span w

theorem walks_target {e : Expr} : (target e).Walks stream u fun _ v => v = u := by
  intro c d t hc h
  unfold target at h
  split at h
  · obtain ⟨rfl, rfl⟩ := EStateM.Result.ok.inj h
    exact ⟨u, hc, rfl⟩
  · cases h

theorem isFlat_of_augOp {k : Kind} {op : AugOp} (h : augOp? k = some op) : k.isFlat = true := by
  unfold augOp? at h
  split at h <;> first | rfl | cases h

theorem takes_exprStmt : exprStmt.Takes Small := by
  refine Takes.within fun stream u => ?_
  refine Takes.bind phrases_testlist fun lhs w hw => ?_
  refine (Walks.accept).bind fun o v ho => ?_
  rcases ho with ⟨rfl, rfl⟩ | ⟨t, rfl, ht, rfl⟩
  · refine Walks.acceptMap.bind fun o v ho => ?_
    rcases ho with ⟨rfl, rfl⟩ | ⟨t, op, rfl, ht, rfl⟩
    · exact .pure ⟨w, rfl, rfl, hw⟩
    · refine walks_target.bind fun target v hv => ?_
      subst hv
      refine Takes.bind phrases_testlist fun value x hx => ?_
      exact .pure ⟨w ++ [t] ++ x, by simp, rfl, hw.joined (.single (isFlat_of_augOp ht)) hx⟩
  · refine walks_target.bind fun target v hv => ?_
    subst hv
    refine Takes.bind phrases_testlist fun value x hx => ?_
    exact .pure ⟨w ++ [t] ++ x, by simp, rfl, hw.joined (.single (by rw [ht]; rfl)) hx⟩

section
variable {start : Span} {w : List Token} (h : Stretch start w)
include h

/-- A statement that ends with the token taken last. -/
theorem walks_ended {node : Span → Stmt} (hsmall : ∀ r, (node r).isCompound = false) (hspan : ∀ r, (node r).span = r) :
    (do return node (← spanFrom start) : Parse Stmt).Walks stream (u ++ w) fun s v => ∃ w, v = u ++ w ∧ Small s w := by
  refine (Walks.spanFrom h).bind fun r v hr => ?_
  obtain ⟨hr, rfl⟩ := hr
  exact .pure ⟨w, rfl, hsmall r, by rw [hspan]; exact hr⟩

theorem walks_assertStmt : (assertStmt start).Walks stream (u ++ w) fun s v => ∃ w, v = u ++ w ∧ Small s w := by
  refine Takes.bind phrases_test fun test x hx => ?_
  rw [List.append_assoc]
  refine (Walks.accept).bind fun o v ho => ?_
  rcases ho with ⟨rfl, rfl⟩ | ⟨t, rfl, ht, rfl⟩
  · exact walks_ended (h.extend hx.flat) (fun _ => rfl) fun _ => rfl
  · refine Takes.bind phrases_test fun msg y hy => ?_
    rw [List.append_assoc, List.append_assoc]
    exact walks_ended ((h.extend hx.flat).extend (.cons (by rw [ht]; rfl) hy.flat)) (fun _ => rfl) fun _ => rfl

theorem walks_globalStmt : (globalStmt start).Walks stream (u ++ w) fun s v => ∃ w, v = u ++ w ∧ Small s w := by
  refine Walks.requireName.bind fun r v hr => ?_
  obtain ⟨t, ht, -, rfl⟩ := hr
  rw [List.append_assoc]
  refine Walks.bind (Q := fun _ v => ∃ w, v = u ++ w ∧ Stretch start w) ?_ fun names v hv => ?_
  · refine Walks.loop (R := fun _ v => ∃ w, v = u ++ w ∧ Stretch start w)
      ⟨_, rfl, h.extend (.single (by rw [ht]; rfl))⟩ ?_
    rintro names _ ⟨w, rfl, hw⟩
    refine (Walks.accept).bind fun o v ho => ?_
    rcases ho with ⟨rfl, rfl⟩ | ⟨comma, rfl, hcomma, rfl⟩
    · exact .pure ⟨w, rfl, hw⟩
    · refine Walks.requireName.bind fun r v hr => ?_
      obtain ⟨t, ht, -, rfl⟩ := hr
      have hmore : Flat [comma, t] := .cons (by rw [hcomma]; rfl) (.single (by rw [ht]; rfl))
      exact .pure ⟨⟨w ++ [comma, t], by simp, hw.extend hmore⟩, by simp⟩
  · obtain ⟨w, rfl, hw⟩ := hv
    exact walks_ended hw (fun _ => rfl) fun _ => rfl

theorem walks_execStmt : (execStmt start).Walks stream (u ++ w) fun s v => ∃ w, v = u ++ w ∧ Small s w := by
  refine Walks.requireName.bind fun r v hr => ?_
  obtain ⟨t, ht, -, rfl⟩ := hr
  refine (Walks.require).bind fun t' v ht' => ?_
  obtain ⟨ht', rfl⟩ := ht'
  refine Takes.bind phrases_test fun space x hx => ?_
  have hmore : Flat ([t, t'] ++ x) := .cons (by rw [ht]; rfl) (.cons (by rw [ht']; rfl) hx.flat)
  have hassoc : u ++ w ++ [t] ++ [t'] ++ x = u ++ (w ++ ([t, t'] ++ x)) := by simp
  rw [hassoc]
  exact walks_ended (h.extend hmore) (fun _ => rfl) fun _ => rfl

end

theorem isFlat_of_keywordStmt {start : Span} {k : Kind} {p : Parse Stmt} (h : keywordStmt? start k = some p) :
    k.isFlat = true := by
  unfold keywordStmt? at h
  split at h <;> first | rfl | cases h

theorem takes_smallStmt : smallStmt.Takes Small := by
  intro stream u
  refine Walks.acceptMap.bind fun o v ho => ?_
  rcases ho with ⟨rfl, rfl⟩ | ⟨t, rest, rfl, ht, rfl⟩
  · refine Walks.seesExpr.bind fun b v hv => ?_
    subst hv
    exact .ite (takes_exprStmt stream _) .failUnexpected
  · have hword : Stretch t.span [t] := .token (isFlat_of_keywordStmt ht)
    unfold keywordStmt? at ht
    split at ht
    · obtain rfl := Option.some.inj ht
      exact walks_ended hword (fun _ => rfl) fun _ => rfl
    · obtain rfl := Option.some.inj ht
      exact walks_ended hword (fun _ => rfl) fun _ => rfl
    · obtain rfl := Option.some.inj ht
      exact walks_ended hword (fun _ => rfl) fun _ => rfl
    · obtain rfl := Option.some.inj ht
      exact walks_assertStmt hword
    · obtain rfl := Option.some.inj ht
      exact walks_globalStmt hword
    · obtain rfl := Option.some.inj ht
      exact walks_execStmt hword
    · cases ht

theorem takes_simpleStmt : simpleStmt.Takes fun ss w => ∃ v t, w = v ++ [t] ∧ Row v ss ∧ t.kind = .newline := by
  refine Takes.within fun stream u => ?_
  refine Takes.bind takes_smallStmt fun first w hw => ?_
  refine Walks.bind (Q := fun ss v => ∃ w, v = u ++ w ∧ Row w ss) ?_ fun ss v hv => ?_
  · refine Walks.loop (R := fun ss v => ∃ w, v = u ++ w ∧ Row w ss) ⟨w, rfl, .one hw.1 hw.2⟩ ?_
    rintro ss _ ⟨w, rfl, hrow⟩
    refine (Walks.accept).bind fun o v ho => ?_
    rcases ho with ⟨rfl, rfl⟩ | ⟨t, rfl, ht, rfl⟩
    · exact .pure ⟨w, rfl, hrow⟩
    · refine Walks.sees.bind fun b v hv => ?_
      subst hv
      refine .ite (.pure ⟨w ++ [t], by simp, hrow.trailing ht⟩) ?_
      refine Takes.bind takes_smallStmt fun s x hx => ?_
      exact .pure ⟨⟨w ++ t :: x, by simp, hrow.more ht hx.1 hx.2⟩, by simp⟩
  · obtain ⟨w, rfl, hrow⟩ := hv
    refine (Walks.accept).bind fun o v ho => ?_
    rcases ho with ⟨rfl, rfl⟩ | ⟨t, rfl, ht, rfl⟩
    · exact .failWanting
    · exact .pure ⟨w ++ [t], by simp, w, t, rfl, hrow, ht⟩

/-! ### Compound statements -/

/-- Clauses as they are read: a header, a colon and a suite each. -/
structure Clauses (cs : List Clause) : Prop where
  headed : ∀ c ∈ cs, Flat c.header ∧ c.colon.kind = .symbol .colon
  suites : ∀ c ∈ cs, Arranged .suite c.body c.stmts

theorem Clauses.append {cs ds : List Clause} (hc : Clauses cs) (hd : Clauses ds) : Clauses (cs ++ ds) where
  headed c h := (List.mem_append.mp h).elim (hc.headed c) (hd.headed c)
  suites c h := (List.mem_append.mp h).elim (hc.suites c) (hd.suites c)

theorem Clauses.single {c : Clause} (hflat : Flat c.header) (hcolon : c.colon.kind = .symbol .colon)
    (hs : Arranged .suite c.body c.stmts) : Clauses [c] :=
  ⟨List.forall_mem_singleton.mpr ⟨hflat, hcolon⟩, List.forall_mem_singleton.mpr hs⟩

/-- A suite starts among the tokens of its clause. -/
theorem Clauses.startsIn {cs : List Clause} (h : Clauses cs) {b : Block} (hb : b ∈ suitesOf cs) (hne : b.stmts ≠ []) :
    StartsIn b.span (cs.flatMap Clause.tokens) := by
  obtain ⟨c, hc, rfl⟩ := List.mem_map.mp hb
  obtain ⟨before, behind, rfl⟩ := List.append_of_mem hc
  rw [Block.stmts_ofStmts] at hne
  have hbody := startsIn_block (h.suites c hc).startsIn hne
  have htokens : StartsIn (Block.ofStmts c.stmts).span c.tokens := by
    simpa [Clause.tokens] using hbody.append_left (c.header ++ [c.colon])
  rw [List.flatMap_append, List.flatMap_cons]
  exact (htokens.append_right _).append_left _

/-- Tokens in front of a clause belong to its header. -/
theorem Clauses.lead {c : Clause} (hc : Clauses [c]) {w : List Token} (hw : Flat w) :
    Clauses [{ c with header := w ++ c.header }] := by
  obtain ⟨hflat, hcolon⟩ := hc.headed c (List.mem_singleton_self c)
  exact .single (hw.append hflat) hcolon (hc.suites c (List.mem_singleton_self c))

/-- What is read behind the keyword of a compound statement. -/
structure Owns (start : Span) (s : Stmt) (w : List Token) : Prop where
  clauses : ∃ cs, cs ≠ [] ∧ Clauses cs ∧ w = cs.flatMap Clause.tokens ∧ s.suites = suitesOf cs
  span : s.span = start ∨ ∃ r, s.span = start.join r ∧ StartsIn r w

/-- The statement of some clauses reaches to the last of them, which may be an alternative. -/
theorem owns_of_clauses {bs cs : List Clause} {start : Span} {s : Stmt} {body : Block} {orelse : Option Block}
    (hbs : Clauses bs) (hcs : Clauses cs) (hbody : body ∈ suitesOf bs) (horelse : orelse.toList = suitesOf cs)
    (hsuites : s.suites = suitesOf bs ++ orelse.toList) (hspan : s.span = stmtSpan start body orelse) :
    Owns start s ((bs ++ cs).flatMap Clause.tokens) := by
  have hall := hbs.append hcs
  have hne : bs ++ cs ≠ [] := by
    rintro hnil
    rw [(List.append_eq_nil_iff.mp hnil).1] at hbody
    cases hbody
  have hsuitesOf : suitesOf (bs ++ cs) = suitesOf bs ++ suitesOf cs := List.map_append
  have hlast : orelse.getD body ∈ suitesOf (bs ++ cs) := by
    rw [hsuitesOf, ← horelse]
    cases orelse with
    | none => exact List.mem_append_left _ hbody
    | some b => exact List.mem_append_right _ (List.mem_singleton_self b)
  refine ⟨⟨bs ++ cs, hne, hall, rfl, by rw [hsuites, horelse, hsuitesOf]⟩, ?_⟩
  rw [hspan]
  unfold stmtSpan
  dsimp only
  split
  · exact .inl rfl
  · next hstmts => exact .inr ⟨_, rfl, hall.startsIn hlast (by simpa using hstmts)⟩

section
variable {suite : Parse Block} (h : suite.Takes fun b w => ∃ ss, b = .ofStmts ss ∧ Arranged .suite w ss)
include h

theorem takes_guarded : (guarded suite).Takes fun r w =>
    ∃ c, w = c.tokens ∧ Clauses [c] ∧ r.2 = .ofStmts c.stmts := by
  intro stream u
  refine Takes.bind phrases_test fun test w hw => ?_
  refine (Walks.require).bind fun colon v hcolon => ?_
  obtain ⟨hcolon, rfl⟩ := hcolon
  refine Takes.bind h fun body x hx => ?_
  obtain ⟨ss, rfl, hx⟩ := hx
  exact .pure ⟨w ++ colon :: x, by simp, ⟨w, colon, x, ss⟩, rfl, .single hw.flat hcolon hx, rfl⟩

theorem takes_elseSuite : (elseSuite suite).Takes fun o w =>
    ∃ cs, w = cs.flatMap Clause.tokens ∧ Clauses cs ∧ o.toList = suitesOf cs := by
  intro stream u
  refine (Walks.accept).bind fun o v ho => ?_
  rcases ho with ⟨rfl, rfl⟩ | ⟨t, rfl, ht, rfl⟩
  · exact .pure ⟨[], by simp, [], rfl, ⟨by simp, by simp⟩, rfl⟩
  · refine (Walks.require).bind fun colon v hcolon => ?_
    obtain ⟨hcolon, rfl⟩ := hcolon
    refine Takes.bind h fun body x hx => ?_
    obtain ⟨ss, rfl, hx⟩ := hx
    have hclause : Clauses [⟨[t], colon, x, ss⟩] := .single (.single (by rw [ht]; rfl)) hcolon hx
    exact .pure ⟨t :: colon :: x, by simp, [⟨[t], colon, x, ss⟩], by simp [Clause.tokens], hclause, rfl⟩

theorem takes_whileStmt {start : Span} : (whileStmt suite start).Takes (Owns start) := by
  refine Takes.within fun stream u => ?_
  refine Takes.bind (takes_guarded h) fun r w hr => ?_
  obtain ⟨test, body⟩ := r
  obtain ⟨c, rfl, hc, rfl⟩ := hr
  refine Takes.bind (takes_elseSuite h) fun orelse x ho => ?_
  obtain ⟨cs, rfl, hcs, horelse⟩ := ho
  exact .pure ⟨_, by simp, owns_of_clauses hc hcs (List.mem_singleton_self _) horelse rfl rfl⟩

theorem takes_forStmt {start : Span} : (forStmt suite start).Takes (Owns start) := by
  refine Takes.within fun stream u => ?_
  refine Walks.requireName.bind fun r v hr => ?_
  obtain ⟨t, ht, -, rfl⟩ := hr
  refine (Walks.require).bind fun t' v ht' => ?_
  obtain ⟨ht', rfl⟩ := ht'
  refine Takes.bind (takes_guarded h) fun r w hr => ?_
  obtain ⟨iter, body⟩ := r
  obtain ⟨c, rfl, hc, rfl⟩ := hr
  have hlead := hc.lead (w := [t, t']) (.cons (by rw [ht]; rfl) (.single (by rw [ht']; rfl)))
  refine Takes.bind (takes_elseSuite h) fun orelse x ho => ?_
  obtain ⟨cs, rfl, hcs, horelse⟩ := ho
  exact .pure ⟨_, by simp [Clause.tokens], owns_of_clauses hlead hcs (List.mem_singleton_self _) horelse rfl rfl⟩

theorem takes_ifStmt {start : Span} : (ifStmt suite start).Takes (Owns start) := by
  refine Takes.within fun stream u => ?_
  refine Takes.bind (takes_guarded h) fun first w hr => ?_
  obtain ⟨c, rfl, hc, hfirst⟩ := hr
  let read (branches : List (Expr × Block)) (v : List Token) : Prop :=
    ∃ cs, v = u ++ cs.flatMap Clause.tokens ∧ Clauses cs ∧ branches ≠ [] ∧ branches.map (·.2) = suitesOf cs
  refine Walks.bind (Q := read) ?_ fun branches v hv => ?_
  · refine Walks.loop (R := read) ⟨[c], by simp, hc, by simp, by simp [hfirst, suitesOf]⟩ ?_
    rintro branches _ ⟨cs, rfl, hcs, hne, hblocks⟩
    refine (Walks.accept).bind fun o v ho => ?_
    rcases ho with ⟨rfl, rfl⟩ | ⟨t, rfl, ht, rfl⟩
    · exact .pure ⟨cs, rfl, hcs, hne, hblocks⟩
    · refine Takes.bind (takes_guarded h) fun r x hr => ?_
      obtain ⟨c, rfl, hc, hr⟩ := hr
      have hlead := hc.lead (w := [t]) (.single (by rw [ht]; rfl))
      refine .pure ⟨⟨_, ?_, hcs.append hlead, by simp, ?_⟩, by simp⟩
      · simp [Clause.tokens]
      · simp [hblocks, hr, suitesOf]
  · obtain ⟨cs, rfl, hcs, hne, hblocks⟩ := hv
    refine Takes.bind (takes_elseSuite h) fun orelse x ho => ?_
    obtain ⟨ds, rfl, hds, horelse⟩ := ho
    have hlast : (branches.getLast?.getD first).2 ∈ suitesOf cs := by
      rw [← hblocks, List.getLast?_eq_some_getLast hne]
      exact List.mem_map_of_mem (List.getLast_mem hne)
    refine .pure ⟨_, by simp, owns_of_clauses hcs hds hlast horelse ?_ rfl⟩
    rw [← hblocks]
    rfl

omit h in
theorem takes_closureHead : closureHead.Takes fun _ w => Flat w := by
  intro stream u
  refine Takes.bind phrases_operation fun head w hw => ?_
  refine Walks.sees.bind fun b v hv => ?_
  subst hv
  refine .ite ?_ ?_
  · cases head with
    | name s n => exact .pure ⟨w, rfl, hw.flat⟩
    | _ => exact .failWanting
  · refine Walks.requireName.bind fun r v hr => ?_
    obtain ⟨t, ht, -, rfl⟩ := hr
    exact .pure ⟨w ++ [t], by simp, hw.flat.concat (by rw [ht]; rfl)⟩

theorem takes_closureStmt {start : Span} {isLazy : Bool} : (closureStmt suite start isLazy).Takes (Owns start) := by
  refine Takes.within fun stream u => ?_
  refine Takes.bind takes_closureHead fun r w hw => ?_
  refine (Walks.require).bind fun colon v hcolon => ?_
  obtain ⟨hcolon, rfl⟩ := hcolon
  refine Takes.bind h fun body x hx => ?_
  obtain ⟨ss, rfl, hx⟩ := hx
  have hclause : Clauses [⟨w, colon, x, ss⟩] := .single hw hcolon hx
  have hnone : Clauses [] := ⟨by simp, by simp⟩
  have hempty : (none : Option Block).toList = suitesOf [] := rfl
  refine .pure ⟨_, ?_, owns_of_clauses hclause hnone (List.mem_singleton_self _) hempty rfl rfl⟩
  simp [Clause.tokens]

omit h in
theorem isFlat_of_compound {start : Span} {k : Kind} {p : Parse Stmt} (h : compound? suite start k = some p) :
    k.isFlat = true := by
  unfold compound? at h
  split at h <;> first | rfl | cases h

theorem takes_compound {start : Span} {k : Kind} {p : Parse Stmt} (hp : compound? suite start k = some p) :
    p.Takes (Owns start) := by
  unfold compound? at hp
  split at hp
  · obtain rfl := Option.some.inj hp
    exact takes_ifStmt h
  · obtain rfl := Option.some.inj hp
    exact takes_whileStmt h
  · obtain rfl := Option.some.inj hp
    exact takes_forStmt h
  · obtain rfl := Option.some.inj hp
    exact takes_closureStmt h
  · obtain rfl := Option.some.inj hp
    exact takes_closureStmt h
  · cases hp

theorem takes_statementOver : (statementOver suite).Takes fun ss w => Arranged .stmt w ss := by
  intro stream u
  refine Walks.acceptMap.bind fun o v ho => ?_
  rcases ho with ⟨rfl, rfl⟩ | ⟨t, rest, rfl, ht, rfl⟩
  · refine (takes_simpleStmt stream _).imp fun ss v hv => ?_
    obtain ⟨_, rfl, v, t, rfl, hrow, ht⟩ := hv
    exact ⟨_, rfl, .row hrow ht⟩
  · have hflat := isFlat_of_compound ht
    refine Takes.bind (takes_compound h ht) fun s w hs => ?_
    obtain ⟨cs, hne, hcs, rfl, hsuites⟩ := hs.clauses
    refine .pure ⟨t :: cs.flatMap Clause.tokens, by simp, .compound hflat hne ?_ hsuites hcs.headed hcs.suites⟩
    have hword : Starts t.span (t :: cs.flatMap Clause.tokens) := starts_token (Kind.isText_of_isFlat hflat) _
    rcases hs.span with hspan | ⟨r, hspan, hr⟩
    · rw [hspan]
      exact hword
    · rw [hspan]
      exact hword.join (hr.append_left [t])

theorem takes_suiteOver : (suiteOver suite).Takes fun b w => ∃ ss, b = .ofStmts ss ∧ Arranged .suite w ss := by
  refine Takes.within fun stream u => ?_
  refine (Walks.accept).bind fun o v ho => ?_
  rcases ho with ⟨rfl, rfl⟩ | ⟨t, rfl, ht, rfl⟩
  · refine Takes.bind takes_simpleStmt fun ss w hw => ?_
    obtain ⟨v, t, rfl, hrow, ht⟩ := hw
    exact .pure ⟨_, rfl, ss, rfl, .inline hrow ht⟩
  · refine (Walks.require).bind fun first v hfirst => ?_
    obtain ⟨hfirst, rfl⟩ := hfirst
    refine Walks.bind (Q := fun ss v => ∃ w, v = u ++ w ∧ Arranged .suite w ss) ?_ fun ss v hv => ?_
    · refine Walks.loop (R := fun ss v => ∃ w, v = u ++ [t] ++ [first] ++ w ∧ Arranged .lines w ss)
        ⟨[], by simp, .empty⟩ ?_
      rintro ss _ ⟨w, rfl, hw⟩
      refine (Walks.accept).bind fun o v ho => ?_
      rcases ho with ⟨rfl, rfl⟩ | ⟨last, rfl, hlast, rfl⟩
      · refine Takes.bind (takes_statementOver h) fun rs x hx => ?_
        have hpos := List.length_pos_iff.mpr hx.ne_nil
        exact .pure ⟨⟨w ++ x, by simp, hw.more hx⟩, by simp; omega⟩
      · exact .pure ⟨_, by simp, .block ht hfirst hw hlast⟩
    · obtain ⟨w, rfl, hw⟩ := hv
      exact .pure ⟨w, rfl, ss, rfl, hw⟩

end

theorem takes_suiteUpTo (height : Nat) :
    (suiteUpTo height).Takes fun b w => ∃ ss, b = .ofStmts ss ∧ Arranged .suite w ss := by
  induction height with
  | zero => exact fun _ _ => .failUnexpected
  | succ height ih => exact takes_suiteOver ih

theorem takes_suite : suite.Takes fun b w => ∃ ss, b = .ofStmts ss ∧ Arranged .suite w ss := by
  intro stream u c d b hc h
  exact takes_suiteUpTo (c.remaining + 1) stream u hc h

/-- A file is read from the arrangement of its lines and an end marker. -/
theorem takes_file : module.Takes fun m w =>
    ∃ v t, w = v ++ [t] ∧ t.kind = .endMarker ∧ Arranged .lines v m.body.stmts := by
  refine Takes.within fun stream u => ?_
  refine Walks.bind (Q := fun ss v => ∃ w, v = u ++ w ∧ Arranged .lines w ss) ?_ fun ss v hv => ?_
  · refine Walks.loop (R := fun ss v => ∃ w, v = u ++ w ∧ Arranged .lines w ss) ⟨[], by simp, .empty⟩ ?_
    rintro ss _ ⟨w, rfl, hw⟩
    refine (Walks.accept).bind fun o v ho => ?_
    rcases ho with ⟨rfl, rfl⟩ | ⟨t, rfl, ht, rfl⟩
    · refine Walks.sees.bind fun b v hv => ?_
      subst hv
      refine .ite (.pure ⟨w, rfl, hw⟩) ?_
      refine Walks.peek.bind fun o v hv => ?_
      subst hv
      refine .ite .failUnexpected ?_
      refine Takes.bind (takes_statementOver takes_suite) fun rs x hx => ?_
      have hpos := List.length_pos_iff.mpr hx.ne_nil
      exact .pure ⟨⟨w ++ x, by simp, hw.more hx⟩, by simp; omega⟩
    · exact .pure ⟨⟨w ++ [t], by simp, hw.blank ht⟩, by simp⟩
  · obtain ⟨w, rfl, hw⟩ := hv
    refine (Walks.require).bind fun t v ht => ?_
    obtain ⟨hkind, rfl⟩ := ht
    exact .pure ⟨w ++ [t], by simp, w, t, rfl, hkind, by rw [Block.stmts_ofStmts]; exact hw⟩

theorem takes_module : module.Takes fun m w => ∃ v t, w = v ++ [t] ∧ Arranged .lines v m.body.stmts := by
  refine fun stream u => (takes_file stream u).imp ?_
  rintro m _ ⟨_, rfl, v, t, rfl, -, harranged⟩
  exact ⟨_, rfl, v, t, rfl, harranged⟩

end Parse

end Offside
