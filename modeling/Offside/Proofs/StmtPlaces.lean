import Offside.Proofs.NodePlaces
import Offside.Proofs.StmtTokens

/-! # The tokens that statements stand on

A simple statement stands on the tokens of its own, and so does a compound one: from its keyword to the end of the
last statement in its last suite. The semicolons, line breaks and block marks around them belong to no node. -/

namespace Offside

/-- The last text of tokens is no colon. -/
def Closes (w : List Token) : Prop := ∃ t ∈ (texts w).getLast?, t.kind ≠ .symbol .colon

section
variable {s : Span} {t : Token} {u v w : List Token}

theorem Closes.append (h : Closes w) (v : List Token) : Closes (v ++ w) := by
  obtain ⟨t, ht, hcolon⟩ := h
  refine ⟨t, ?_, hcolon⟩
  rw [texts_append, List.getLast?_append, Option.mem_def.mp ht]
  rfl

theorem texts_mark (ht : t.kind.isText = false) : texts (w ++ [t]) = texts w := by simp [texts, ht]

theorem Closes.mark (h : Closes w) (ht : t.kind.isText = false) : Closes (w ++ [t]) := by
  unfold Closes
  rwa [texts_mark ht]

theorem Settled.closes (h : Settled w) : Closes w := by
  obtain ⟨t, hlast, ht, hcolon⟩ := h
  obtain ⟨before, rfl⟩ := List.getLast?_eq_some_iff.mp hlast
  exact ⟨t, by simp [texts_append, texts_singleton ht], hcolon⟩

end

/-- A statement stands on tokens that are all text. -/
structure Rests (st : Stmt) (w : List Token) : Prop where
  text : ∀ t ∈ w, t.kind.isText = true
  node : Over (.stmt st) w

/-- Nodes stand on some of the tokens, and the text of these does not end in a colon. -/
structure Bears (ns : List Spanned) (w : List Token) : Prop where
  nodes : Scattered ns w
  closes : Closes w

section
variable {st : Stmt} {stmts : List Stmt} {n : Spanned} {ns ms : List Spanned} {t : Token} {b : Block} {v w : List Token}

theorem Rests.settled (h : Rests st w) : Settled w := h.node.ends.settled h.text

theorem Rests.of_parts (ht : ∀ t ∈ w, t.kind.isText = true) (hf : (Spanned.stmt st).Filled) (he : Ends st.span w)
    (hp : Scattered st.parts w) : Rests st w :=
  ⟨ht, .of_scattered hf he hp⟩

theorem Bears.append (hn : Bears ns w) (hm : Bears ms v) : Bears (ns ++ ms) (w ++ v) :=
  ⟨hn.nodes.append hm.nodes, hm.closes.append w⟩

theorem Bears.after (h : Bears ns w) (v : List Token) : Bears ns (v ++ w) := ⟨h.nodes.after v, h.closes.append v⟩

theorem Bears.mark (h : Bears ns w) (ht : t.kind.isText = false) : Bears ns (w ++ [t]) :=
  ⟨h.nodes.skip [t], h.closes.mark ht⟩

theorem Over.filled (h : Over n w) : n.Filled := by
  cases h with
  | node hf => exact hf

theorem Scattered.of_sublist (h : Over n v) (hv : v.Sublist w) : Scattered [n] w :=
  ⟨[(n, v)], rfl, by simpa using hv, by simpa using h⟩

theorem Scattered.exists_over (h : Scattered [n] w) : ∃ v, v.Sublist w ∧ Over n v := by
  obtain ⟨pieces, hnodes, hsub, hover⟩ := h
  obtain ⟨p, ps, rfl, rfl, hrest⟩ := List.map_eq_cons_iff.mp hnodes.symm
  obtain rfl := List.map_eq_nil_iff.mp hrest
  exact ⟨p.2, by simpa using hsub, hover p List.mem_cons_self⟩

section
variable {pieces : List (Spanned × List Token)} {p : Spanned × List Token} (hover : ∀ p ∈ pieces, Over p.1 p.2)
include hover

theorem leads_of_head? (hp : pieces.head? = some p) : Leads p.1.span (pieces.flatMap (·.2)) := by
  obtain ⟨ps, rfl⟩ := List.head?_eq_some_iff.mp hp
  exact (hover p List.mem_cons_self).ends.leads.append _

/-- What a node starts, the last of the nodes behind it ends. -/
theorem Leads.reach {s : Span} (hs : Leads s (v ++ pieces.flatMap (·.2))) (hp : pieces.getLast? = some p)
    (ho : Ordered (v ++ pieces.flatMap (·.2))) : Ends (s.join p.1.span) (v ++ pieces.flatMap (·.2)) := by
  obtain ⟨ps, rfl⟩ := List.getLast?_eq_some_iff.mp hp
  have he := (hover p (by simp)).ends
  obtain ⟨t, ht, hoff, -⟩ := he.opens.exists_mem
  rw [List.flatMap_append, List.flatMap_singleton, ← List.append_assoc] at hs ho ⊢
  exact hs.join (he.shuts.append _) ⟨t, by simp [texts_append, ht], hoff⟩ ho

end

/-- Statements in a row make up a block. -/
theorem scattered_ofStmts (hne : stmts ≠ []) (h : Scattered (stmts.map .stmt) w) (ho : Ordered w) :
    Scattered [.block (.ofStmts stmts)] w := by
  obtain ⟨pieces, hnodes, hsub, hover⟩ := h
  obtain ⟨a, ha⟩ := Option.isSome_iff_exists.mp (List.isSome_head?.mpr hne)
  obtain ⟨b, hb⟩ := Option.isSome_iff_exists.mp (List.getLast?_isSome.mpr hne)
  have hfirst := congrArg List.head? hnodes
  have hlast := congrArg List.getLast? hnodes
  rw [List.head?_map, List.head?_map, ha] at hfirst
  rw [List.getLast?_map, List.getLast?_map, hb] at hlast
  obtain ⟨p, hp, hpa⟩ := Option.map_eq_some_iff.mp hfirst.symm
  obtain ⟨q, hq, hqb⟩ := Option.map_eq_some_iff.mp hlast.symm
  have hspan : (Block.ofStmts stmts).span = p.1.span.join q.1.span := by
    rw [hpa, hqb, Block.ofStmts, ha, hb]
    rfl
  have hstmts : (Block.ofStmts stmts).stmts = stmts := Block.stmts_ofStmts stmts
  refine .of_sublist (.of_scattered ?_ ?_ ⟨pieces, ?_, .refl _, hover⟩) hsub
  · show (Block.ofStmts stmts).stmts ≠ []
    rwa [hstmts]
  · show Ends (Block.ofStmts stmts).span _
    rw [hspan]
    exact Leads.reach (v := []) hover (leads_of_head? hover hp) hq (ho.sublist hsub)
  · show (Block.ofStmts stmts).stmts.map _ = _
    rw [hstmts, hnodes]

/-- A compound statement stands on its keyword and on what is inside it. -/
theorem scattered_compound (ht : t.kind.isText = true) (hf : (Spanned.stmt st).Filled) (hw : Scattered st.parts w)
    (hlast : st.parts.getLast? = some (.block b))
    (hspan : st.span = if b.stmts.isEmpty then t.span else t.span.join b.span) (ho : Ordered ([t] ++ w)) :
    Scattered [.stmt st] ([t] ++ w) := by
  obtain ⟨pieces, hnodes, hsub, hover⟩ := hw
  rw [hnodes, List.getLast?_map] at hlast
  obtain ⟨p, hp, hpb⟩ := Option.map_eq_some_iff.mp hlast
  have hfilled : b.stmts ≠ [] := by
    have := (hover p (List.mem_of_getLast? hp)).filled
    rwa [hpb] at this
  have hjoin : st.span = t.span.join p.1.span := by
    rw [hspan, if_neg (by simpa using hfilled), hpb]
    rfl
  have hall : ([t] ++ pieces.flatMap (·.2)).Sublist ([t] ++ w) := (List.Sublist.refl [t]).append hsub
  refine .of_sublist (.of_scattered hf ?_ ⟨pieces, hnodes, List.sublist_append_right [t] _, hover⟩) hall
  show Ends st.span _
  rw [hjoin]
  exact Leads.reach hover ((leads_token ht).append _) hp (ho.sublist hall)

end

namespace Parse
variable {s : List Item} {u : List Token} {t : Token}

/-! ### Simple statements -/

theorem operands_of_targetOf {e : Expr} {x : Target} (h : targetOf e = .ok x) : x.operands = e.operands := by
  cases e <;> cases h <;> rfl

theorem isText_of_augOp (k : Kind) (op : AugOp) (h : augOp? k = some op) : k.isText = true := by
  unfold augOp? at h
  split at h <;> first | rfl | cases h

/-- What is assigned stands behind the sign, and what is assigned to in front of it. -/
theorem proceeds_assign {lhs : Expr} {w : List Token} {node : Target → Expr → Stmt} (hw : Lies lhs w)
    (ht : t.kind.isText = true)
    (hnode : ∀ x e, (node x e).span = lhs.span.join e.span ∧ (Spanned.stmt (node x e)).Filled ∧
      (node x e).parts = x.operands.map .expr ++ [.expr e]) :
    (do let x ← target lhs; let e ← testlist; return node x e : Parse Stmt).Proceeds s (u ++ w ++ [t]) fun st v =>
      ∃ w, v = u ++ w ∧ Rests st w := by
  obtain ⟨f, hf, hoff, hstart⟩ := hw.ends.opens.exists_mem
  have hmem : f ∈ u ++ w ++ [t] := by simp [(mem_texts.mp hf).1]
  refine (Proceeds.target hmem hoff hstart).bind fun x v hx => ?_
  obtain ⟨hx, rfl⟩ := hx
  refine Yields.bind yields_testlist fun e y hy => .known fun hu => ?_
  obtain ⟨hspan, hfilled, hparts⟩ := hnode x e
  have hv : u ++ w ++ [t] ++ y = u ++ (w ++ [t] ++ y) := by simp
  refine .pure ⟨_, hv, .of_parts ?_ hfilled ?_ ?_⟩
  · exact List.forall_mem_append.mpr ⟨List.forall_mem_append.mpr ⟨hw.text, by simpa using ht⟩, hy.text⟩
  · rw [hspan]
    exact (hw.ends.leads.append [t]).around hy.ends (hu.rest hv)
  · rw [hparts, operands_of_targetOf hx]
    exact (hw.node.scattered.skip [t]).append hy.scattered

theorem yields_exprStmt : exprStmt.Yields s Rests := by
  refine Yields.within fun u => ?_
  refine Yields.bind yields_testlist fun lhs w hw => ?_
  refine (Proceeds.accept rfl).bind fun o v ho => ?_
  rcases ho with ⟨rfl, rfl⟩ | ⟨t, rfl, ht, rfl⟩
  · refine (Proceeds.acceptKind isText_of_augOp).bind fun o v ho => ?_
    rcases ho with ⟨rfl, rfl⟩ | ⟨t, op, rfl, ht, rfl⟩
    · exact .pure ⟨w, rfl, .of_parts hw.text trivial hw.ends hw.scattered⟩
    · exact proceeds_assign hw (isText_of_augOp _ _ ht) fun x e => ⟨rfl, trivial, rfl⟩
  · exact proceeds_assign hw (by rw [ht]; rfl) fun x e => ⟨rfl, trivial, rfl⟩

/-- Behind its first token, a reader takes what belongs to its answer. -/
def YieldsFrom {α : Type} (p : Parse α) (s : List Item) (t : Token) (L : α → List Token → Prop) : Prop :=
  ∀ u : List Token, p.Proceeds s (u ++ [t]) fun a v => ∃ w, v = u ++ w ∧ L a w

/-- A statement from its keyword to the token taken last. -/
theorem proceeds_finish {w : List Token} {node : Span → Stmt} (ht : t.kind.isText = true)
    (hw : ∀ x ∈ [t] ++ w, x.kind.isText = true) (hsettled : Settled ([t] ++ w))
    (hspan : ∀ r, (node r).span = r) (hf : ∀ r, (Spanned.stmt (node r)).Filled) (hp : ∀ r, Scattered (node r).parts w) :
    (do return node (← spanFrom t.span) : Parse Stmt).Proceeds s (u ++ [t] ++ w) fun st v =>
      ∃ w, v = u ++ w ∧ Rests st w := by
  rw [List.append_assoc]
  refine (Proceeds.spanTo ((leads_token ht).append w) hsettled).bind fun r v hr => ?_
  obtain ⟨hr, rfl⟩ := hr
  exact .pure ⟨_, rfl, .of_parts hw (hf r) (by rwa [hspan]) ((hp r).after [t])⟩

section
variable (ht : t.kind.isText = true)
include ht

theorem yieldsFrom_word {node : Span → Stmt} (hcolon : t.kind ≠ .symbol .colon) (hspan : ∀ r, (node r).span = r)
    (hf : ∀ r, (Spanned.stmt (node r)).Filled) (hp : ∀ r, (node r).parts = []) :
    (do return node (← spanFrom t.span) : Parse Stmt).YieldsFrom s t Rests := by
  intro u
  rw [← List.append_nil (u ++ [t])]
  refine proceeds_finish ht (by simpa using ht) (settled_token ht hcolon) hspan hf fun r => ?_
  rw [hp r]
  exact .nil

theorem yieldsFrom_assertStmt : (assertStmt t.span).YieldsFrom s t Rests := by
  intro u
  refine Yields.bind yields_test fun test w hw => ?_
  refine (Proceeds.accept rfl).bind fun o v ho => ?_
  rcases ho with ⟨rfl, rfl⟩ | ⟨comma, rfl, hcomma, rfl⟩
  · refine proceeds_finish ht ?_ (hw.settled.append [t]) (fun _ => rfl) (fun _ => trivial) fun _ => hw.scattered
    exact List.forall_mem_append.mpr ⟨by simpa using ht, hw.text⟩
  · refine Yields.bind yields_test fun msg x hx => ?_
    have hv : u ++ [t] ++ w ++ [comma] ++ x = u ++ [t] ++ (w ++ [comma] ++ x) := by simp
    rw [hv]
    refine proceeds_finish ht ?_ ((hx.settled.append _).append [t]) (fun _ => rfl) (fun _ => trivial)
      fun _ => (hw.scattered.skip [comma]).append hx.scattered
    refine List.forall_mem_append.mpr ⟨by simpa using ht, List.forall_mem_append.mpr ⟨?_, hx.text⟩⟩
    exact List.forall_mem_append.mpr ⟨hw.text, by simp [hcomma, Kind.isText]⟩

theorem yieldsFrom_globalStmt : (globalStmt t.span).YieldsFrom s t Rests := by
  intro u
  let read (names : List String) (v : List Token) : Prop :=
    ∃ w, v = u ++ [t] ++ w ∧ names ≠ [] ∧ (∀ x ∈ w, x.kind.isText = true) ∧ Settled w
  refine Proceeds.requireName.bind fun r v hr => ?_
  obtain ⟨x, hx, -, rfl⟩ := hr
  have htext : x.kind.isText = true := by rw [hx]; rfl
  refine Proceeds.bind (Q := read) ?_ fun names v hv => ?_
  · refine Proceeds.loop (R := read) ⟨[x], rfl, nofun, by simpa using htext, settled_token htext (by simp [hx])⟩ ?_
    rintro names _ ⟨w, rfl, hne, hw, hsettled⟩
    refine (Proceeds.accept rfl).bind fun o v ho => ?_
    rcases ho with ⟨rfl, rfl⟩ | ⟨comma, rfl, hcomma, rfl⟩
    · exact .pure ⟨w, rfl, hne, hw, hsettled⟩
    · refine Proceeds.requireName.bind fun r v hr => ?_
      obtain ⟨y, hy, -, rfl⟩ := hr
      have hname : y.kind.isText = true := by rw [hy]; rfl
      have hcommas : ∀ x ∈ w ++ [comma], x.kind.isText = true :=
        List.forall_mem_append.mpr ⟨hw, by simp [hcomma, Kind.isText]⟩
      refine .pure ⟨⟨w ++ [comma] ++ [y], by simp, by simp, ?_, ?_⟩, by simp⟩
      · exact List.forall_mem_append.mpr ⟨hcommas, by simpa using hname⟩
      · exact (settled_token hname (by simp [hy])).append _
  · obtain ⟨w, rfl, hne, hw, hsettled⟩ := hv
    refine proceeds_finish ht ?_ (hsettled.append [t]) (fun _ => rfl) (fun _ => hne) fun _ => .nil
    exact List.forall_mem_append.mpr ⟨by simpa using ht, hw⟩

theorem yieldsFrom_execStmt : (execStmt t.span).YieldsFrom s t Rests := by
  intro u
  refine Proceeds.requireName.bind fun r v hr => ?_
  obtain ⟨x, hx, -, rfl⟩ := hr
  refine (Proceeds.require rfl).bind fun y v hy => ?_
  obtain ⟨hy, rfl⟩ := hy
  refine Yields.bind yields_test fun space w hw => ?_
  have hv : u ++ [t] ++ [x] ++ [y] ++ w = u ++ [t] ++ ([x, y] ++ w) := by simp
  rw [hv]
  refine proceeds_finish ht ?_ ((hw.settled.append _).append [t]) (fun _ => rfl) (fun _ => trivial)
    fun _ => hw.scattered.after [x, y]
  refine List.forall_mem_append.mpr ⟨by simpa using ht, List.forall_mem_append.mpr ⟨?_, hw.text⟩⟩
  simp [hx, hy, Kind.isText]

end

/-- A keyword that starts a simple statement starts one wherever it stands. -/
theorem keywordStmt?_none_anywhere {start start' : Span} {k : Kind} (h : keywordStmt? start k = none) :
    keywordStmt? start' k = none := by
  unfold keywordStmt? at h
  split at h <;> cases h
  unfold keywordStmt?
  split <;> first | rfl | simp_all

theorem isText_of_keywordStmt {start : Span} {k : Kind} {p : Parse Stmt} (h : keywordStmt? start k = some p) :
    k.isText = true := by
  unfold keywordStmt? at h
  split at h <;> first | rfl | cases h

theorem yieldsFrom_keywordStmt {p : Parse Stmt} (h : keywordStmt? t.span t.kind = some p) : p.YieldsFrom s t Rests := by
  have ht := isText_of_keywordStmt h
  unfold keywordStmt? at h
  split at h
  · next hk =>
    obtain rfl := Option.some.inj h
    exact yieldsFrom_word ht (by simp [hk]) (fun _ => rfl) (fun _ => trivial) fun _ => rfl
  · next hk =>
    obtain rfl := Option.some.inj h
    exact yieldsFrom_word ht (by simp [hk]) (fun _ => rfl) (fun _ => trivial) fun _ => rfl
  · next hk =>
    obtain rfl := Option.some.inj h
    exact yieldsFrom_word ht (by simp [hk]) (fun _ => rfl) (fun _ => trivial) fun _ => rfl
  · obtain rfl := Option.some.inj h
    exact yieldsFrom_assertStmt ht
  · obtain rfl := Option.some.inj h
    exact yieldsFrom_globalStmt ht
  · obtain rfl := Option.some.inj h
    exact yieldsFrom_execStmt ht
  · cases h

theorem yields_smallStmt : smallStmt.Yields s Rests := by
  intro u
  refine Proceeds.bind (Proceeds.acceptMap (fun t p hp => isText_of_keywordStmt hp) fun t t' ht hnone => ?_)
    fun o v ho => ?_
  · rw [ht]
    exact keywordStmt?_none_anywhere hnone
  rcases ho with ⟨rfl, rfl⟩ | ⟨t, p, rfl, hp, rfl⟩
  · refine Proceeds.seesExpr.bind fun b v hv => ?_
    subst hv
    exact .ite (fun _ => yields_exprStmt _) fun _ => .failUnexpected
  · exact yieldsFrom_keywordStmt hp u

/-- Statements read in a row. -/
structure Row (stmts : List Stmt) (w : List Token) : Prop where
  ne_nil : stmts ≠ []
  bears : Bears (stmts.map .stmt) w

theorem yields_simpleStmt : simpleStmt.Yields s Row := by
  refine Yields.within fun u => ?_
  refine Yields.bind yields_smallStmt fun first w hw => ?_
  let read (stmts : List Stmt) (v : List Token) : Prop := ∃ w, v = u ++ w ∧ Row stmts w
  refine Proceeds.bind (Q := read) ?_ fun stmts v hv => ?_
  · refine Proceeds.loop (R := read) ⟨w, rfl, nofun, .one hw.node, hw.settled.closes⟩ ?_
    rintro stmts _ ⟨w, rfl, hne, hrow⟩
    refine (Proceeds.accept rfl).bind fun o v ho => ?_
    rcases ho with ⟨rfl, rfl⟩ | ⟨semi, rfl, hsemi, rfl⟩
    · exact .pure ⟨w, rfl, hne, hrow⟩
    · refine Proceeds.sees.bind fun b v hv => ?_
      subst hv
      refine .ite (fun _ => ?_) fun _ => ?_
      · have hclosed : Settled [semi] := settled_token (by rw [hsemi]; rfl) (by simp [hsemi])
        exact .pure ⟨w ++ [semi], by simp, hne, hrow.nodes.skip [semi], hclosed.closes.append w⟩
      · refine Yields.bind yields_smallStmt fun st x hx => ?_
        refine .pure ⟨⟨w ++ [semi] ++ x, by simp, by simp, ?_, hx.settled.closes.append _⟩, by simp⟩
        rw [List.map_append]
        exact (hrow.nodes.skip [semi]).append (.one hx.node)
  · obtain ⟨w, rfl, hne, hrow⟩ := hv
    refine Proceeds.mark nofun (fun _ _ => rfl) .failWanting fun nl hnl => ?_
    exact .pure ⟨w ++ [nl], by simp, hne, hrow.mark (by rw [hnl]; rfl)⟩

/-! ### Compound statements -/

section
variable {suite : Parse Block} (h : suite.Yields s fun b => Bears [.block b])
include h

theorem yields_guarded : (guarded suite).Yields s fun r => Bears [.expr r.1, .block r.2] := by
  intro u
  refine Yields.bind yields_test fun test w hw => ?_
  refine (Proceeds.require rfl).bind fun colon v hcolon => ?_
  obtain ⟨-, rfl⟩ := hcolon
  refine Yields.bind h fun body x hx => ?_
  refine .pure ⟨w ++ [colon] ++ x, by simp, ?_, hx.closes.append _⟩
  exact (hw.scattered.skip [colon]).append hx.nodes

/-- What is read so far, with the suite for when no condition holds. -/
theorem proceeds_elseSuite {ns : List Spanned} {w : List Token} (hw : Bears ns w) :
    (elseSuite suite).Proceeds s (u ++ w) fun o v => ∃ x, v = u ++ x ∧ Bears (ns ++ o.toList.map .block) x := by
  refine (Proceeds.accept rfl).bind fun o v ho => ?_
  rcases ho with ⟨rfl, rfl⟩ | ⟨t, rfl, -, rfl⟩
  · exact .pure ⟨w, rfl, by simpa using hw⟩
  · refine (Proceeds.require rfl).bind fun colon v hcolon => ?_
    obtain ⟨-, rfl⟩ := hcolon
    refine Yields.bind h fun body x hx => ?_
    refine .pure ⟨w ++ ([t] ++ [colon] ++ x), by simp, ?_⟩
    exact hw.append (hx.after _)

omit h in
/-- A statement behind its keyword, once all inside it is read. -/
theorem proceeds_compound {st : Stmt} {b : Block} {w : List Token} (ht : t.kind.isText = true)
    (hf : (Spanned.stmt st).Filled) (hw : Bears st.parts w) (hlast : st.parts.getLast? = some (.block b))
    (hspan : st.span = if b.stmts.isEmpty then t.span else t.span.join b.span) :
    (pure st : Parse Stmt).Proceeds s (u ++ [t] ++ w) fun st v => ∃ w, v = u ++ w ∧ Bears [.stmt st] w := by
  refine .known fun hu => ?_
  have hv : u ++ [t] ++ w = u ++ ([t] ++ w) := List.append_assoc ..
  exact .pure ⟨_, hv, scattered_compound ht hf hw.nodes hlast hspan (hu.rest hv), hw.closes.append [t]⟩

section
variable (ht : t.kind.isText = true)
include ht

theorem yieldsFrom_whileStmt : (whileStmt suite t.span).YieldsFrom s t fun st => Bears [.stmt st] := by
  refine fun u => Proceeds.within ?_
  refine Yields.bind (yields_guarded h) fun r w hw => ?_
  obtain ⟨test, body⟩ := r
  refine (proceeds_elseSuite h hw).bind fun orelse v hv => ?_
  obtain ⟨x, rfl, hx⟩ := hv
  exact proceeds_compound (b := orelse.getD body) ht trivial hx (by cases orelse <;> rfl) rfl

theorem yieldsFrom_forStmt : (forStmt suite t.span).YieldsFrom s t fun st => Bears [.stmt st] := by
  refine fun u => Proceeds.within ?_
  refine Proceeds.requireName.bind fun r v hr => ?_
  obtain ⟨x, -, -, rfl⟩ := hr
  refine (Proceeds.require rfl).bind fun y v hy => ?_
  obtain ⟨-, rfl⟩ := hy
  refine Yields.bind (yields_guarded h) fun r w hw => ?_
  obtain ⟨iter, body⟩ := r
  have hv : u ++ [t] ++ [x] ++ [y] ++ w = u ++ [t] ++ ([x, y] ++ w) := by simp
  rw [hv]
  refine (proceeds_elseSuite h (hw.after [x, y])).bind fun orelse v hv => ?_
  obtain ⟨z, rfl, hz⟩ := hv
  exact proceeds_compound (b := orelse.getD body) ht trivial hz (by cases orelse <;> rfl) rfl

theorem yieldsFrom_ifStmt : (ifStmt suite t.span).YieldsFrom s t fun st => Bears [.stmt st] := by
  refine fun u => Proceeds.within ?_
  refine Yields.bind (yields_guarded h) fun first w hw => ?_
  let nodes (branches : List (Expr × Block)) : List Spanned :=
    branches.flatMap fun r => [.expr r.1, .block r.2]
  let read (branches : List (Expr × Block)) (v : List Token) : Prop :=
    ∃ w, v = u ++ [t] ++ w ∧ branches ≠ [] ∧ Bears (nodes branches) w
  refine Proceeds.bind (Q := read) ?_ fun branches v hv => ?_
  · refine Proceeds.loop (R := read) ⟨w, rfl, List.cons_ne_nil _ _, hw⟩ ?_
    rintro branches _ ⟨w, rfl, hne, hw⟩
    refine (Proceeds.accept rfl).bind fun o v ho => ?_
    rcases ho with ⟨rfl, rfl⟩ | ⟨word, rfl, -, rfl⟩
    · exact .pure ⟨w, rfl, hne, hw⟩
    · refine Yields.bind (yields_guarded h) fun r x hx => ?_
      have hmore : nodes (branches ++ [r]) = nodes branches ++ [.expr r.1, .block r.2] := by simp [nodes]
      refine .pure ⟨⟨w ++ ([word] ++ x), by simp, by simp, ?_⟩, by simp⟩
      rw [hmore]
      exact hw.append (hx.after [word])
  · obtain ⟨w, rfl, hne, hw⟩ := hv
    refine (proceeds_elseSuite h hw).bind fun orelse v hv => ?_
    obtain ⟨x, rfl, hx⟩ := hv
    refine proceeds_compound (b := orelse.getD (branches.getLast?.getD first).2) ht hne hx ?_ rfl
    show (nodes branches ++ orelse.toList.map Spanned.block).getLast? = _
    cases orelse with
    | some b => simp
    | none =>
      obtain ⟨before, last, rfl⟩ := List.eq_nil_or_concat branches |>.resolve_left hne
      simp [nodes]

/-- What wraps a closure block stands on all that is in front of its name. -/
def Wraps (r : String × Option Expr) (w : List Token) : Prop :=
  ∀ e ∈ r.2, ∃ v t, w = v ++ [t] ∧ t.kind = .name r.1 ∧ Lies e v

omit h ht in
theorem Wraps.scattered {r : String × Option Expr} {w : List Token} (h : Wraps r w) :
    Scattered (r.2.toList.map .expr) w := by
  obtain ⟨name, wrapper⟩ := r
  cases wrapper with
  | none => exact .nil
  | some e =>
    obtain ⟨v, t, rfl, -, hv⟩ := h e rfl
    exact hv.scattered.skip [t]

omit h ht in
theorem yields_closureHead : closureHead.Yields s Wraps := by
  intro u
  refine Yields.bind yields_operation fun head w hw => ?_
  refine Proceeds.sees.bind fun b v hv => ?_
  subst hv
  refine .ite (fun _ => ?_) fun _ => ?_
  · cases head with
    | name r n => exact .pure ⟨w, rfl, nofun⟩
    | _ => exact .failWanting
  · refine Proceeds.requireName.bind fun r v hr => ?_
    obtain ⟨x, hx, -, rfl⟩ := hr
    refine .pure ⟨w ++ [x], by simp, ?_⟩
    rintro e ⟨⟩
    exact ⟨w, x, rfl, hx, hw⟩

theorem yieldsFrom_closureStmt {isLazy : Bool} :
    (closureStmt suite t.span isLazy).YieldsFrom s t fun st => Bears [.stmt st] := by
  refine fun u => Proceeds.within ?_
  refine Yields.bind yields_closureHead fun r w hw => ?_
  obtain ⟨name, wrapper⟩ := r
  refine (Proceeds.require rfl).bind fun colon v hcolon => ?_
  obtain ⟨-, rfl⟩ := hcolon
  refine Yields.bind h fun body x hx => ?_
  have hv : u ++ [t] ++ w ++ [colon] ++ x = u ++ [t] ++ (w ++ [colon] ++ x) := by simp
  rw [hv]
  refine proceeds_compound (b := body) ht trivial ⟨?_, hx.closes.append _⟩ ?_ rfl
  · exact (hw.scattered.skip [colon]).append hx.nodes
  · exact List.getLast?_concat

end

omit h in
/-- A keyword that starts a compound statement starts one wherever it stands. -/
theorem compound?_none_anywhere {suite' : Parse Block} {start start' : Span} {k : Kind}
    (hnone : compound? suite start k = none) : compound? suite' start' k = none := by
  unfold compound? at hnone
  split at hnone <;> cases hnone
  unfold compound?
  split <;> first | rfl | simp_all

theorem yieldsFrom_compound {p : Parse Stmt} (hp : compound? suite t.span t.kind = some p) :
    p.YieldsFrom s t fun st => Bears [.stmt st] := by
  have ht : t.kind.isText = true := Kind.isText_of_isFlat (isFlat_of_compound hp)
  unfold compound? at hp
  split at hp
  · obtain rfl := Option.some.inj hp
    exact yieldsFrom_ifStmt h ht
  · obtain rfl := Option.some.inj hp
    exact yieldsFrom_whileStmt h ht
  · obtain rfl := Option.some.inj hp
    exact yieldsFrom_forStmt h ht
  · obtain rfl := Option.some.inj hp
    exact yieldsFrom_closureStmt h ht
  · obtain rfl := Option.some.inj hp
    exact yieldsFrom_closureStmt h ht
  · cases hp

theorem yields_statementOver : (statementOver suite).Yields s Row := by
  intro u
  refine Proceeds.bind (Proceeds.acceptMap (fun t p hp => Kind.isText_of_isFlat (isFlat_of_compound hp))
    fun t t' ht hnone => ?_) fun o v ho => ?_
  · rw [ht]
    exact compound?_none_anywhere hnone
  rcases ho with ⟨rfl, rfl⟩ | ⟨t, p, rfl, hp, rfl⟩
  · exact yields_simpleStmt _
  · refine (yieldsFrom_compound h hp u).bind fun st v hv => ?_
    obtain ⟨w, rfl, hw⟩ := hv
    exact .pure ⟨w, rfl, nofun, hw⟩

/-- Lines of statements: none yet, or rows one behind the other. -/
def Rows (stmts : List Stmt) (w : List Token) : Prop := (stmts = [] ∧ texts w = []) ∨ Row stmts w

omit h in
theorem Rows.more {stmts rs : List Stmt} {w x : List Token} (hw : Rows stmts w) (hx : Row rs x) :
    Row (stmts ++ rs) (w ++ x) := by
  rcases hw with ⟨rfl, -⟩ | ⟨hne, hw⟩
  · exact ⟨hx.ne_nil, hx.bears.after w⟩
  · refine ⟨by simp [hne], ?_⟩
    rw [List.map_append]
    exact hw.append hx.bears

omit h in
theorem Row.length_lt {stmts : List Stmt} {w : List Token} (h : Row stmts w) (v : List Token) :
    v.length < (v ++ w).length := by
  obtain ⟨t, ht, -⟩ := h.bears.closes
  rw [List.length_append]
  exact Nat.lt_add_of_pos_right (List.length_pos_of_mem (mem_texts.mp (List.mem_of_getLast? ht)).1)

omit h in
theorem Row.block {stmts : List Stmt} {w : List Token} (h : Row stmts w) (ho : Ordered w) :
    Bears [.block (.ofStmts stmts)] w :=
  ⟨scattered_ofStmts h.ne_nil h.bears.nodes ho, h.bears.closes⟩

theorem yields_suiteOver : (suiteOver suite).Yields s fun b => Bears [.block b] := by
  refine Yields.within fun u => ?_
  refine Proceeds.mark nofun (fun _ _ => rfl) ?_ fun nl hnl => ?_
  · refine Yields.bind yields_simpleStmt fun stmts w hw => .known fun hu => ?_
    exact .pure ⟨w, rfl, hw.block (hu.rest rfl)⟩
  refine Proceeds.requireMark nofun (fun _ _ => rfl) fun first hfirst => ?_
  refine Proceeds.bind (Q := fun stmts v => ∃ w, v = u ++ w ∧ Row stmts w) ?_ fun stmts v hv => ?_
  · refine Proceeds.loop
      (R := fun stmts v => ∃ w, v = u ++ [nl] ++ [first] ++ w ∧ Rows stmts w ∧ (stmts = [] → w = []))
      ⟨[], by simp, .inl ⟨rfl, rfl⟩, fun _ => rfl⟩ ?_
    rintro stmts _ ⟨w, rfl, hw, hnil⟩
    refine Proceeds.mark nofun (fun _ _ => rfl) ?_ fun last hlast => .known fun hu => ?_
    · refine Yields.bind (yields_statementOver h) fun rs x hx => ?_
      have hrow := hw.more hx
      exact .pure ⟨⟨w ++ x, by simp, .inr hrow, fun hstmts => absurd hstmts hrow.ne_nil⟩, hx.length_lt _⟩
    · rcases hw with ⟨rfl, -⟩ | hw
      · obtain rfl := hnil rfl
        have hfilled := hu.filled
        rw [List.append_nil, List.append_assoc] at hfilled
        exact absurd hlast ((List.isChain_append_cons_cons.mp hfilled).2.1 hfirst)
      · refine .pure ⟨[nl] ++ [first] ++ w ++ [last], by simp, hw.ne_nil, ?_⟩
        exact (hw.bears.after _).mark (by rw [hlast]; rfl)
  · obtain ⟨w, rfl, hw⟩ := hv
    exact .known fun hu => .pure ⟨w, rfl, hw.block (hu.rest rfl)⟩

end

theorem yields_suiteUpTo (height : Nat) : (suiteUpTo height).Yields s fun b => Bears [.block b] := by
  induction height with
  | zero => exact fun _ => .failUnexpected
  | succ height ih => exact yields_suiteOver ih

theorem yields_suite : suite.Yields s fun b => Bears [.block b] :=
  fun u => Proceeds.counted (f := fun n => suiteUpTo (n + 1)) fun n => yields_suiteUpTo (n + 1) u

/-! ### Programs -/

/-- How two readings of a whole stream come out: with one answer, or both with an error. -/
inductive Conclusion {α : Type} (s : List Item) (Q : α → Prop) :
    EStateM.Result SyntaxError Cursor α → EStateM.Result SyntaxError Cursor α → Prop
  | ok {a : α} {d d' : Cursor} : Q a → Conclusion s Q (.ok a d) (.ok a d')
  | error {e e' : SyntaxError} {d d' : Cursor} : e.Points s → Conclusion s Q (.error e d) (.error e' d')

def Concludes {α : Type} (p : Parse α) (s : List Item) (u : List Token) (Q : α → Prop) : Prop :=
  ∀ ⦃c c' : Cursor⦄, Twin s c c' u → Conclusion s Q (p c) (p c')

section
variable {α β : Type} {p : Parse α} {Q : α → Prop}

theorem Proceeds.conclude {f : α → Parse β} {Q : α → List Token → Prop} {R : β → Prop} (hp : p.Proceeds s u Q)
    (hf : ∀ a v, Q a v → (f a).Concludes s v R) : (p >>= f).Concludes s u R := by
  intro c c' hc
  have h := hp hc
  obtain ⟨r, hpc⟩ : ∃ r, p c = r := ⟨_, rfl⟩
  obtain ⟨r', hpc'⟩ : ∃ r', p c' = r' := ⟨_, rfl⟩
  rw [hpc, hpc'] at h
  cases h with
  | ok hd hv =>
    rw [bind_ok hpc, bind_ok hpc']
    exact hf _ _ hv hd
  | error he =>
    rw [bind_error hpc, bind_error hpc']
    exact .error he

theorem Concludes.within {name : String} (hp : p.Concludes s u Q) : (Parse.within name p).Concludes s u Q := by
  intro c c' hc
  unfold Parse.within
  rw [hc.stack]
  split
  · exact .error (hc.points nofun)
  · have hinner : Twin s { c with stack := c.stack ++ [name] } { c' with stack := c.stack ++ [name] } u :=
      ⟨hc.bounded, hc.behind.same rfl rfl, hc.plain, hc.sight, hc.ahead, hc.last, rfl⟩
    have h := hp hinner
    generalize p { c with stack := c.stack ++ [name] } = r, p { c' with stack := c.stack ++ [name] } = r' at h
    cases h with
    | ok ha => exact .ok ha
    | error he => exact .error he

theorem takeNext_ended {c : Cursor} (hl : c.look = .token t) (hi : c.input = []) :
    takeNext c = .ok (some t) { c with look := .ended, last := some t.span } := by
  rw [takeNext_of_look hl]
  refine bind_ok (a := ()) ?_
  simp only [advance, hi]

/-- The end marker is the last token that a reader takes: what is behind it does not matter, but for a fault. -/
theorem concludes_endMarker {description : String} {a : α}
    (h : ∀ t rest, s = u.map .ok ++ .ok t :: rest → t.kind = .endMarker → Q a) :
    (do let _ ← require .endMarker description; return a : Parse α).Concludes s u Q := by
  unfold require
  rw [bind_assoc]
  intro c c' hc
  obtain ⟨t, t', hl, hl', halike, hinput, hs⟩ := hc.exists_sight
  have haccept : accept .endMarker c = _ := accept_of_look hl
  have haccept' : accept .endMarker c' = _ := accept_of_look hl'
  rw [halike.kind] at haccept'
  split at haccept
  · next ht =>
    rw [if_pos ht] at haccept'
    generalize hi : c.input = input, hi' : c'.input = input' at hinput
    cases hinput with
    | nil =>
      rw [bind_ok (haccept.trans (takeNext_ended hl hi)), bind_ok (haccept'.trans (takeNext_ended hl' hi'))]
      exact .ok (h t _ hs ht)
    | @cons _ _ rest _ hitem hrest =>
      cases hitem with
      | ok hx =>
        rw [bind_ok (haccept.trans (takeNext_token hl hi)), bind_ok (haccept'.trans (takeNext_token hl' hi'))]
        exact .ok (h t _ hs ht)
      | error f f' =>
        rw [bind_error (haccept.trans (takeNext_fault hl hi)), bind_error (haccept'.trans (takeNext_fault hl' hi'))]
        rw [hi] at hs
        have hfault : s = (u ++ [t]).map .ok ++ .error f :: rest := by
          rw [hs]
          simp
        exact .error (.fault hfault rfl (by simp))
  · next ht =>
    rw [if_neg ht] at haccept'
    rw [bind_ok haccept, bind_ok haccept']
    exact (Proceeds.failWanting (Q := fun _ _ => False)).conclude (fun _ _ hfalse => hfalse.elim) hc

end

/-- What is read of a program: lines without text, or the lines of its block. -/
def Program (m : Module) (w : List Token) : Prop := (m.body.stmts = [] ∧ texts w = []) ∨ Bears [.block m.body] w

/-- A program is read up to the end marker. -/
theorem concludes_module : module.Concludes s [] fun m =>
    ∃ w t rest, s = w.map .ok ++ .ok t :: rest ∧ t.kind = .endMarker ∧ Program m w := by
  refine Concludes.within ?_
  refine Proceeds.conclude (Q := Rows) ?_ fun stmts w hw => ?_
  · refine Proceeds.loop (R := Rows) (.inl ⟨rfl, rfl⟩) fun stmts w hw => ?_
    refine Proceeds.mark nofun (fun _ _ => rfl) ?_ fun nl hnl => ?_
    · refine Proceeds.sees.bind fun b v hv => ?_
      subst hv
      refine .ite (fun _ => .pure hw) fun _ => .present ?_
      refine Yields.bind (yields_statementOver yields_suite) fun rs x hx => ?_
      exact .pure ⟨.inr (hw.more hx), hx.length_lt _⟩
    · have htext : nl.kind.isText = false := by rw [hnl]; rfl
      refine .pure ⟨?_, by simp⟩
      rcases hw with ⟨rfl, hw⟩ | hw
      · exact .inl ⟨rfl, by rw [texts_mark htext, hw]⟩
      · exact .inr ⟨hw.ne_nil, hw.bears.mark htext⟩
  · intro c c' hc
    refine concludes_endMarker (fun t rest hs ht => ⟨w, t, rest, hs, ht, ?_⟩) hc
    rcases hw with ⟨rfl, hw⟩ | hw
    · exact .inl ⟨rfl, hw⟩
    · exact .inr (hw.block hc.proper.ordered)

/-- How two readings of programs come out: with one program in front of the end marker, or both with an error. -/
inductive Verdict (s : List Item) : Except SyntaxError Module → Except SyntaxError Module → Prop
  | ok {m : Module} {w : List Token} {t : Token} {rest : List Item} : s = w.map .ok ++ .ok t :: rest →
    t.kind = .endMarker → Program m w → Verdict s (.ok m) (.ok m)
  | error {e e' : SyntaxError} : e.Points s → Verdict s (.error e) (.error e')

theorem module_begin {rest : List Item} :
    module { input := .ok t :: rest } = module { input := rest, look := .token t } := rfl

/-- Two streams at their first tokens. -/
theorem twin_begin {t t' : Token} {rest rest' : List Item} (hs : Bounded (.ok t :: rest)) (ht : t.Alike t')
    (hrest : List.Forall₂ Item.Alike rest rest') :
    Twin (.ok t :: rest) { input := rest, look := .token t } { input := rest', look := .token t' } [] :=
  ⟨hs, ⟨rfl, rfl⟩, List.forall_mem_nil _, ⟨t, t', rfl, rfl⟩, .cons (.ok ht) hrest, fun _ h => (nomatch h), rfl⟩

/-- What a program is that has been read. -/
theorem Concludes.of_run {Q : Module → Prop} {m : Module} (h : module.Concludes s [] Q) (hs : Bounded s)
    (hm : module.run s = .ok m) : Q m := by
  cases s with
  | nil =>
    obtain ⟨item, hitem, -⟩ := hs.ends
    cases hitem
  | cons item rest =>
    cases item with
    | error f => cases hm
    | ok t =>
      have hconclusion := h (twin_begin hs (.refl t) (List.forall₂_same.mpr fun item _ => .refl item))
      unfold run at hm
      rw [module_begin] at hm
      generalize module { input := rest, look := .token t } = r at hconclusion hm
      cases hconclusion with
      | ok hq => exact Except.ok.inj hm ▸ hq
      | error he => cases hm

/-- A program is read the same from streams that a reader cannot tell apart. -/
theorem verdict_run {s' : List Item} (hs : Bounded s) (h : List.Forall₂ Item.Alike s s') :
    Verdict s (module.run s) (module.run s') := by
  cases h with
  | nil =>
    obtain ⟨item, hitem, -⟩ := hs.ends
    cases hitem
  | @cons item item' rest rest' hitem hrest =>
    cases hitem with
    | error f f' =>
      have hfirst : (.error f :: rest : List Item) = ([] : List Token).map .ok ++ .error f :: rest := rfl
      exact .error (.fault hfirst rfl rfl)
    | @ok t t' ht =>
      have hconclusion := concludes_module (twin_begin hs ht hrest)
      unfold run
      rw [module_begin, module_begin]
      generalize module { input := rest, look := .token t } = r,
        module { input := rest', look := .token t' } = r' at hconclusion
      cases hconclusion with
      | ok hm =>
        obtain ⟨w, t, rest, hs, ht, hm⟩ := hm
        exact .ok hs ht hm
      | error he => exact .error he

end Parse

end Offside
