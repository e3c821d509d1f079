import Offside.Proofs.TwinReading

/-! # The tokens that a tree stands on

Each block, statement and expression of a tree stands on tokens of its own: its span goes from the start of the
first of them that is text to the end of the last, and its parts stand on some of them, one behind the other. The
readers of expressions build only such trees. -/

namespace Offside

/-! ### Nodes with spans -/

/-- A node of a tree that has a span. -/
inductive Spanned where
  | block (block : Block)
  | stmt (stmt : Stmt)
  | expr (expr : Expr)

/-- The expressions inside an expression, as they follow each other in the text. -/
def Expr.operands : Expr → List Expr
  | .name .. | .constant .. => []
  | .attribute _ e _ | .unary _ _ e => [e]
  | .binary _ _ l r | .bool _ _ l r | .compare _ _ l r => [l, r]
  | .call _ f args => f :: args
  | .conditional _ test body orelse => [body, test, orelse]
  | .list _ es | .tuple _ es => es
  | .dict _ entries => entries.flatMap fun (k, v) => [k, v]

def Target.operands : Target → List Expr
  | .name _ => []
  | .attribute e _ => [e]

/-- What a statement holds, as it stands in the text. -/
def Stmt.parts : Stmt → List Spanned
  | .expr _ e | .exec _ _ e => [.expr e]
  | .assign _ t e | .augAssign _ _ t e => t.operands.map .expr ++ [.expr e]
  | .ifElse _ branches orelse =>
    branches.flatMap (fun (test, body) => [.expr test, .block body]) ++ orelse.toList.map .block
  | .whileLoop _ e body orelse | .forLoop _ _ e body orelse => .expr e :: .block body :: orelse.toList.map .block
  | .assert _ test msg => .expr test :: msg.toList.map .expr
  | .closure _ c => c.wrapper.toList.map .expr ++ [.block c.body]
  | .breakLoop _ | .continueLoop _ | .pass _ | .global .. => []

namespace Spanned

def span : Spanned → Span
  | .block b => b.span
  | .stmt s => s.span
  | .expr e => e.span

/-- The nodes directly inside a node, as they stand in the text. -/
def parts : Spanned → List Spanned
  | .block b => b.stmts.map .stmt
  | .stmt s => s.parts
  | .expr e => e.operands.map .expr

/-- Nothing that has to be there is missing: statements of a block, branches of a condition, names. -/
def Filled : Spanned → Prop
  | .block b => b.stmts ≠ []
  | .stmt (.ifElse _ branches _) => branches ≠ []
  | .stmt (.global _ names) => names ≠ []
  | _ => True

end Spanned

@[simp] theorem Expr.operands_withSpan (s : Span) (e : Expr) : (e.withSpan s).operands = e.operands := by
  cases e <;> rfl

/-! ### Spans around tokens -/

/-- A span starts where the first text of tokens does. -/
def Opens (s : Span) (w : List Token) : Prop :=
  ∃ t ∈ (texts w).head?, s.offset = t.span.offset ∧ s.start = t.span.start

/-- A span ends where the last text of tokens does, and that is no colon. -/
def Shuts (s : Span) (w : List Token) : Prop :=
  ∃ t ∈ (texts w).getLast?, s.stop = t.span.stop ∧ t.kind ≠ .symbol .colon

section
variable {s r : Span} {t : Token} {u v w : List Token}

theorem le_of_head? (h : Ordered w) {f : Token} (hf : f ∈ (texts w).head?) (ht : t ∈ texts w) :
    f.span.offset ≤ t.span.offset := by
  have hsorted : (texts w).Pairwise _ := h
  obtain ⟨rest, hrest⟩ := List.head?_eq_some_iff.mp hf
  rw [hrest] at hsorted ht
  rcases List.mem_cons.mp ht with rfl | ht
  · exact Nat.le_refl _
  · exact Nat.le_trans (Nat.le_add_right _ _) ((List.pairwise_cons.mp hsorted).1 t ht)

theorem le_of_getLast? (h : Ordered w) {l : Token} (hl : l ∈ (texts w).getLast?) (ht : t ∈ texts w) :
    t.span.stop ≤ l.span.stop := by
  have hsorted : (texts w).Pairwise _ := h
  obtain ⟨before, hbefore⟩ := List.getLast?_eq_some_iff.mp hl
  rw [hbefore] at hsorted ht
  rcases List.mem_append.mp ht with ht | ht
  · exact Nat.le_trans ((List.pairwise_append.mp hsorted).2.2 t ht l (List.mem_singleton_self l)) (Nat.le_add_right _ _)
  · rw [List.mem_singleton.mp ht]

theorem Opens.append (h : Opens s w) (v : List Token) : Opens s (w ++ v) := by
  obtain ⟨t, ht, hs⟩ := h
  obtain ⟨rest, hrest⟩ := List.head?_eq_some_iff.mp ht
  exact ⟨t, by rw [texts_append, hrest]; rfl, hs⟩

theorem Shuts.append (h : Shuts s w) (v : List Token) : Shuts s (v ++ w) := by
  obtain ⟨t, ht, hs⟩ := h
  refine ⟨t, ?_, hs⟩
  rw [texts_append, List.getLast?_append, Option.mem_def.mp ht]
  rfl

theorem opens_token (ht : t.kind.isText = true) : Opens t.span [t] := ⟨t, by rw [texts_singleton ht]; rfl, rfl, rfl⟩

theorem shuts_token (ht : t.kind.isText = true) (hcolon : t.kind ≠ .symbol .colon) : Shuts t.span [t] :=
  ⟨t, by rw [texts_singleton ht]; rfl, rfl, hcolon⟩

theorem Opens.exists_mem (h : Opens s w) : ∃ t ∈ texts w, s.offset = t.span.offset ∧ s.start = t.span.start := by
  obtain ⟨t, ht, hs⟩ := h
  exact ⟨t, List.mem_of_head? ht, hs⟩

theorem Shuts.exists_mem (h : Shuts s w) : ∃ t ∈ texts w, s.stop = t.span.stop := by
  obtain ⟨t, ht, hs, -⟩ := h
  exact ⟨t, List.mem_of_getLast? ht, hs⟩

/-- A span starts where the first text of tokens does, and ends where some of their text does. -/
structure Leads (s : Span) (w : List Token) : Prop where
  opens : Opens s w
  stop : ∃ t ∈ texts w, s.stop = t.span.stop

/-- A span from the first text of tokens to the last. -/
structure Ends (s : Span) (w : List Token) : Prop where
  opens : Opens s w
  shuts : Shuts s w

theorem Leads.append (h : Leads s w) (v : List Token) : Leads s (w ++ v) := by
  obtain ⟨t, ht, hs⟩ := h.stop
  exact ⟨h.opens.append v, t, by simp [texts_append, ht], hs⟩

theorem leads_token (ht : t.kind.isText = true) : Leads t.span [t] :=
  ⟨opens_token ht, t, by simp [texts_singleton ht], rfl⟩

theorem Ends.leads (h : Ends s w) : Leads s w := ⟨h.opens, h.shuts.exists_mem⟩

theorem ends_token (ht : t.kind.isText = true) (hcolon : t.kind ≠ .symbol .colon) : Ends t.span [t] :=
  ⟨opens_token ht, shuts_token ht hcolon⟩

/-- The span around one that starts some tokens and one that ends them. -/
theorem Leads.join (hs : Leads s w) (hr : Shuts r w) (hoff : ∃ t ∈ texts w, r.offset = t.span.offset) (ho : Ordered w) :
    Ends (s.join r) w := by
  obtain ⟨f, hf, hsf, hstart⟩ := hs.opens
  obtain ⟨l, hl, hrl, hcolon⟩ := hr
  obtain ⟨x, hx, hsx⟩ := hs.stop
  obtain ⟨y, hy, hry⟩ := hoff
  have hle : s.offset ≤ r.offset := by
    rw [hsf, hry]
    exact le_of_head? ho hf hy
  have hge : s.stop ≤ r.stop := by
    rw [hsx, hrl]
    exact le_of_getLast? ho hl hx
  refine ⟨⟨f, hf, ?_, ?_⟩, l, hl, ?_, hcolon⟩
  · rw [Span.offset_join, Nat.min_eq_left hle, hsf]
  · rw [← hstart]
    simp only [Span.join, if_pos hle]
    rfl
  · rw [Span.stop_join, Nat.max_eq_right hge, hrl]

/-- Two spans, perhaps with tokens between them. -/
theorem Leads.around (hs : Leads s w) (hr : Ends r v) (ho : Ordered (w ++ v)) : Ends (s.join r) (w ++ v) := by
  obtain ⟨t, ht, hrt, -⟩ := hr.opens.exists_mem
  exact (hs.append v).join (hr.shuts.append w) ⟨t, by simp [texts_append, ht], hrt⟩ ho

/-- Tokens that end in text, and not in a colon. -/
def Settled (w : List Token) : Prop := ∃ t, w.getLast? = some t ∧ t.kind.isText = true ∧ t.kind ≠ .symbol .colon

theorem settled_token (ht : t.kind.isText = true) (hcolon : t.kind ≠ .symbol .colon) : Settled [t] :=
  ⟨t, rfl, ht, hcolon⟩

theorem Settled.append (h : Settled w) (v : List Token) : Settled (v ++ w) := by
  obtain ⟨t, ht, hkind⟩ := h
  exact ⟨t, by simp [ht], hkind⟩

theorem Ends.settled (h : Ends s w) (hw : ∀ t ∈ w, t.kind.isText = true) : Settled w := by
  obtain ⟨t, ht, -, hcolon⟩ := h.shuts
  rw [texts_eq_self hw] at ht
  exact ⟨t, ht, hw t (List.mem_of_getLast? ht), hcolon⟩

/-- The span up to the last token. -/
theorem Parse.Proceeds.spanTo {stream : List Item} (hs : Leads s w) (hw : Settled w) :
    (Parse.spanFrom s).Proceeds stream (u ++ w) fun r v => Ends r w ∧ v = u ++ w := by
  obtain ⟨t, hlast, ht, hcolon⟩ := hw
  refine .known fun hu => (Parse.Proceeds.spanFrom hlast ht).imp fun r v hr => ?_
  obtain ⟨rfl, rfl⟩ := hr
  obtain ⟨before, rfl⟩ := List.getLast?_eq_some_iff.mp hlast
  refine ⟨hs.join ((shuts_token ht hcolon).append before) ⟨t, ?_, rfl⟩ (hu.rest rfl), rfl⟩
  simp [texts_append, texts_singleton ht]

end

/-! ### Nodes over tokens -/

/-- A node stands on tokens, and its parts on some of them, one behind the other. -/
inductive Over : Spanned → List Token → Prop
  | node {n : Spanned} {w : List Token} {pieces : List (Spanned × List Token)} : n.Filled → Ends n.span w →
    n.parts = pieces.map (·.1) → (pieces.flatMap (·.2)).Sublist w → (∀ p ∈ pieces, Over p.1 p.2) → Over n w

/-- Nodes stand on some of the tokens, one behind the other. -/
def Scattered (ns : List Spanned) (w : List Token) : Prop :=
  ∃ pieces : List (Spanned × List Token), ns = pieces.map (·.1) ∧ (pieces.flatMap (·.2)).Sublist w ∧
    ∀ p ∈ pieces, Over p.1 p.2

section
variable {n : Spanned} {ns ms : List Spanned} {u v w : List Token}

theorem Over.of_scattered (hf : n.Filled) (he : Ends n.span w) (hp : Scattered n.parts w) : Over n w := by
  obtain ⟨pieces, hparts, hsub, hover⟩ := hp
  exact .node hf he hparts hsub hover

theorem Over.ends (h : Over n w) : Ends n.span w := by
  cases h with
  | node _ he => exact he

theorem Over.scattered (h : Over n w) : Scattered n.parts w := by
  cases h with
  | node _ _ hparts hsub hover => exact ⟨_, hparts, hsub, hover⟩

theorem Scattered.nil : Scattered [] w := ⟨[], rfl, List.nil_sublist w, nofun⟩

theorem Scattered.one (h : Over n w) : Scattered [n] w := ⟨[(n, w)], rfl, by simp, by simpa using h⟩

theorem Scattered.append (hn : Scattered ns w) (hm : Scattered ms v) : Scattered (ns ++ ms) (w ++ v) := by
  obtain ⟨ps, rfl, hps, hover⟩ := hn
  obtain ⟨qs, rfl, hqs, hover'⟩ := hm
  refine ⟨ps ++ qs, by simp, ?_, List.forall_mem_append.mpr ⟨hover, hover'⟩⟩
  rw [List.flatMap_append]
  exact hps.append hqs

theorem Scattered.skip (h : Scattered ns w) (v : List Token) : Scattered ns (w ++ v) := by
  simpa using h.append (Scattered.nil (w := v))

theorem Scattered.after (h : Scattered ns w) (v : List Token) : Scattered ns (v ++ w) := by
  simpa using (Scattered.nil (w := v)).append h

end

/-- An expression stands on tokens that are all text. -/
structure Lies (e : Expr) (w : List Token) : Prop where
  text : ∀ t ∈ w, t.kind.isText = true
  node : Over (.expr e) w

section
variable {e l r : Expr} {t : Token} {u v w : List Token}

theorem Lies.ends (h : Lies e w) : Ends e.span w := h.node.ends

theorem Lies.scattered (h : Lies e w) : Scattered [.expr e] w := .one h.node

theorem Lies.settled (h : Lies e w) : Settled w := h.ends.settled h.text

theorem Lies.of_operands (ht : ∀ t ∈ w, t.kind.isText = true) (he : Ends e.span w)
    (hp : Scattered (e.operands.map .expr) w) : Lies e w :=
  ⟨ht, .of_scattered trivial he hp⟩

/-- An expression of two with tokens between them. -/
theorem Lies.pair (hl : Lies l w) (hu : ∀ t ∈ u, t.kind.isText = true) (hr : Lies r v) (ho : Ordered (w ++ u ++ v))
    (hspan : e.span = l.span.join r.span) (hparts : e.operands = [l, r]) : Lies e (w ++ u ++ v) := by
  have htext : ∀ t ∈ w ++ u, t.kind.isText = true := List.forall_mem_append.mpr ⟨hl.text, hu⟩
  refine .of_operands (List.forall_mem_append.mpr ⟨htext, hr.text⟩) ?_ ?_
  · rw [hspan]
    exact (hl.ends.leads.append u).around hr.ends ho
  · rw [hparts]
    exact (hl.scattered.skip u).append hr.scattered

/-- An expression behind a token. -/
theorem Lies.behind (ht : t.kind.isText = true) (hr : Lies r v) (ho : Ordered ([t] ++ v))
    (hspan : e.span = t.span.join r.span) (hparts : e.operands = [r]) : Lies e ([t] ++ v) := by
  refine .of_operands (List.forall_mem_append.mpr ⟨List.forall_mem_singleton.mpr ht, hr.text⟩) ?_ ?_
  · rw [hspan]
    exact (leads_token ht).around hr.ends ho
  · rw [hparts]
    exact hr.scattered.after [t]

/-- An attribute, with a point and a name behind what it belongs to. -/
theorem Lies.attribute {t' : Token} {name : String} (h : Lies e w) (ht : t.kind.isText = true)
    (ht' : t'.kind.isText = true) (hcolon : t'.kind ≠ .symbol .colon) (ho : Ordered (w ++ [t] ++ [t'])) :
    Lies (.attribute (e.span.join t'.span) e name) (w ++ [t] ++ [t']) := by
  have htext : ∀ x ∈ w ++ [t], x.kind.isText = true :=
    List.forall_mem_append.mpr ⟨h.text, List.forall_mem_singleton.mpr ht⟩
  refine .of_operands (List.forall_mem_append.mpr ⟨htext, List.forall_mem_singleton.mpr ht'⟩) ?_ ?_
  · exact (h.ends.leads.append [t]).around (ends_token ht' hcolon) ho
  · exact (h.scattered.skip [t]).skip [t']

/-- A call, with arguments in brackets behind what is called. -/
theorem Lies.call {t' : Token} {span : Span} {args : List Expr} (h : Lies e w) (ht : t.kind.isText = true)
    (hv : ∀ x ∈ v, x.kind.isText = true) (hargs : Scattered (args.map .expr) v) (ht' : t'.kind.isText = true)
    (he : Ends span (w ++ ([t] ++ v ++ [t']))) : Lies (.call span e args) (w ++ ([t] ++ v ++ [t'])) := by
  have htext : ∀ x ∈ [t] ++ v, x.kind.isText = true :=
    List.forall_mem_append.mpr ⟨List.forall_mem_singleton.mpr ht, hv⟩
  refine .of_operands ?_ he (h.scattered.append ((hargs.after [t]).skip [t']))
  exact List.forall_mem_append.mpr
    ⟨h.text, List.forall_mem_append.mpr ⟨htext, List.forall_mem_singleton.mpr ht'⟩⟩

end

/-! ### Expressions -/

namespace Parse
variable {α : Type} {s : List Item} {u : List Token}

theorem yields_chain {operand : Parse Expr} {node? : Kind → Option (Expr → Expr → Expr)} (h : operand.Yields s Lies)
    (hnode : ∀ k node, node? k = some node → k.isText = true ∧
      ∀ l r : Expr, (node l r).span = l.span.join r.span ∧ (node l r).operands = [l, r]) :
    (chain operand node?).Yields s Lies := by
  intro u
  refine h.bind fun first w hw => ?_
  refine Proceeds.loop (R := fun e v => ∃ w, v = u ++ w ∧ Lies e w) ⟨w, rfl, hw⟩ ?_
  rintro l _ ⟨w, rfl, hl⟩
  refine (Proceeds.acceptKind fun k node hk => (hnode k node hk).1).bind fun o v ho => ?_
  rcases ho with ⟨rfl, rfl⟩ | ⟨t, node, rfl, ht, rfl⟩
  · exact .pure ⟨w, rfl, hl⟩
  · obtain ⟨htext, hnode⟩ := hnode _ _ ht
    refine h.bind fun r x hr => .known fun hu => ?_
    have hv : u ++ w ++ [t] ++ x = u ++ (w ++ [t] ++ x) := by simp
    refine .pure ⟨⟨_, hv, ?_⟩, by simp⟩
    exact hl.pair (List.forall_mem_singleton.mpr htext) hr (hu.rest hv) (hnode l r).1 (hnode l r).2

theorem yields_boolChain {operand : Parse Expr} (hop : operand.Yields s Lies) (word : Keyword) (op : BoolOp) :
    (chain operand fun k => if k = .keyword word then some (boolNode op) else none).Yields s Lies := by
  refine yields_chain hop fun k node hk => ?_
  split at hk
  · next hword =>
    obtain rfl := Option.some.inj hk
    exact ⟨by rw [hword]; rfl, fun l r => ⟨rfl, rfl⟩⟩
  · cases hk

theorem yields_binaryFrom {operand : Parse Expr} (h : operand.Yields s Lies)
    (levels : List (List (Symbol × BinaryOp))) : (binaryFrom operand levels).Yields s Lies := by
  induction levels with
  | nil => exact h
  | cons ops levels ih =>
    refine yields_chain ih fun k node hk => ?_
    split at hk
    · obtain ⟨op, -, rfl⟩ := Option.map_eq_some_iff.mp hk
      exact ⟨rfl, fun l r => ⟨rfl, rfl⟩⟩
    · cases hk

theorem isText_of_compareOp (k : Kind) (op : CompareOp) (h : compareOp? k = some op) : k.isText = true :=
  Kind.isText_of_isFlat (isFlat_of_compareOp h)

theorem isText_of_signOp (k : Kind) (op : UnaryOp) (h : signOp? k = some op) : k.isText = true :=
  Kind.isText_of_isFlat (isFlat_of_signOp h)

theorem isText_of_startsAtom {k : Kind} (h : startsAtom k = true) : k.isText = true := by
  unfold startsAtom at h
  split at h <;> first | rfl | cases h

theorem yields_comparisonOp :
    comparisonOp.Yields s fun o w => (o = none → w = []) ∧ ∀ t ∈ w, t.kind.isText = true := by
  intro u
  have htext {t : Token} {k : Kind} (ht : t.kind = k) (hk : k.isText = true) : t.kind.isText = true := ht ▸ hk
  refine (Proceeds.acceptKind isText_of_compareOp).bind fun o v ho => ?_
  rcases ho with ⟨rfl, rfl⟩ | ⟨t, op, rfl, ht, rfl⟩
  · refine (Proceeds.accept rfl).bind fun o v ho => ?_
    rcases ho with ⟨rfl, rfl⟩ | ⟨t, rfl, ht, rfl⟩
    · refine (Proceeds.accept rfl).bind fun o v ho => ?_
      rcases ho with ⟨rfl, rfl⟩ | ⟨t, rfl, ht, rfl⟩
      · exact .pure ⟨[], by simp, fun _ => rfl, List.forall_mem_nil _⟩
      · refine (Proceeds.require rfl).bind fun t' v ht' => ?_
        obtain ⟨ht', rfl⟩ := ht'
        exact .pure ⟨[t, t'], by simp, nofun, by simp [htext ht rfl, htext ht' rfl]⟩
    · refine (Proceeds.accept rfl).bind fun o v ho => ?_
      rcases ho with ⟨rfl, rfl⟩ | ⟨t', rfl, ht', rfl⟩
      · exact .pure ⟨[t], rfl, nofun, by simp [htext ht rfl]⟩
      · exact .pure ⟨[t, t'], by simp, nofun, by simp [htext ht rfl, htext ht' rfl]⟩
  · exact .pure ⟨[t], rfl, nofun, by simpa using isText_of_compareOp _ _ ht⟩

/-- Something read from tokens that are all text, with nodes in it. -/
structure Holds (nodes : α → List Spanned) (a : α) (w : List Token) : Prop where
  text : ∀ t ∈ w, t.kind.isText = true
  nodes : Scattered (nodes a) w

theorem yields_commaList {item : Parse α} {nodes : α → List Spanned} (h : item.Yields s (Holds nodes)) {close : Symbol}
    {description : String} :
    (commaList item close description).Yields s fun items w =>
      ∃ v t, w = v ++ [t] ∧ Holds (·.flatMap nodes) items v ∧ t.kind = .symbol close := by
  intro u
  refine Proceeds.bind (Q := fun items v => ∃ w, v = u ++ w ∧ Holds (·.flatMap nodes) items w) ?_ fun items v hv => ?_
  · refine Proceeds.loop (R := fun items v => ∃ w, v = u ++ w ∧ Holds (·.flatMap nodes) items w)
      ⟨[], by simp, List.forall_mem_nil _, .nil⟩ ?_
    rintro items _ ⟨w, rfl, hw⟩
    refine Proceeds.sees.bind fun b v hv => ?_
    subst hv
    refine .ite (fun _ => .pure ⟨w, rfl, hw⟩) fun _ => ?_
    refine h.bind fun a x hx => ?_
    have hmore : Holds (·.flatMap nodes) (items ++ [a]) (w ++ x) := by
      refine ⟨List.forall_mem_append.mpr ⟨hw.text, hx.text⟩, ?_⟩
      simpa using hw.nodes.append hx.nodes
    refine (Proceeds.accept rfl).bind fun o v ho => ?_
    rcases ho with ⟨rfl, rfl⟩ | ⟨t, rfl, ht, rfl⟩
    · exact .pure ⟨w ++ x, by simp, hmore⟩
    · refine .pure ⟨⟨w ++ x ++ [t], by simp, ?_, hmore.nodes.skip [t]⟩, by simp⟩
      exact List.forall_mem_append.mpr ⟨hmore.text, by simp [ht, Kind.isText]⟩
  · obtain ⟨w, rfl, hw⟩ := hv
    refine (Proceeds.require rfl).bind fun t v ht => ?_
    obtain ⟨ht, rfl⟩ := ht
    exact .pure ⟨w ++ [t], by simp, w, t, rfl, hw, ht⟩

theorem yields_testlistOf {test : Parse Expr} (h : test.Yields s Lies) : (testlistOf test).Yields s Lies := by
  refine Yields.within fun u => ?_
  refine Yields.bind h.within fun first w hw => ?_
  refine Proceeds.sees.bind fun b v hv => ?_
  subst hv
  refine .ite (fun _ => .pure ⟨w, rfl, hw⟩) fun _ => ?_
  let read (items : List Expr) (w : List Token) : Prop :=
    (∀ t ∈ w, t.kind.isText = true) ∧ Leads first.span w ∧ Settled w ∧ Scattered (items.map .expr) w
  refine Proceeds.bind (Q := fun items v => ∃ w, v = u ++ w ∧ read items w) ?_ fun items v hv => ?_
  · refine Proceeds.loop (R := fun items v => ∃ w, v = u ++ w ∧ read items w)
      ⟨w, rfl, hw.text, hw.ends.leads, hw.settled, hw.scattered⟩ ?_
    rintro items _ ⟨w, rfl, htext, hleads, hsettled, hitems⟩
    refine (Proceeds.accept rfl).bind fun o v ho => ?_
    rcases ho with ⟨rfl, rfl⟩ | ⟨t, rfl, ht, rfl⟩
    · exact .pure ⟨w, rfl, htext, hleads, hsettled, hitems⟩
    · have hcomma : ∀ x ∈ w ++ [t], x.kind.isText = true :=
        List.forall_mem_append.mpr ⟨htext, by simp [ht, Kind.isText]⟩
      refine Proceeds.seesExpr.bind fun b v hv => ?_
      subst hv
      refine .ite (fun _ => ?_) fun _ => .pure ⟨w ++ [t], by simp, hcomma, hleads.append _, ?_, hitems.skip _⟩
      · refine Yields.bind h.within fun e x hx => ?_
        refine .pure ⟨⟨w ++ [t] ++ x, by simp, List.forall_mem_append.mpr ⟨hcomma, hx.text⟩,
          (hleads.append _).append _, hx.settled.append _, ?_⟩, by simp⟩
        simpa using (hitems.skip [t]).append hx.scattered
      · exact (settled_token (by rw [ht]; rfl) (by simp [ht])).append w
  · obtain ⟨w, rfl, htext, hleads, hsettled, hitems⟩ := hv
    refine (Proceeds.spanTo hleads hsettled).bind fun r v hr => ?_
    obtain ⟨hr, rfl⟩ := hr
    exact .pure ⟨w, rfl, .of_operands htext hr hitems⟩

section
variable {below : Rule → Parse Expr} (h : ∀ r, (below r).Yields s Lies)
include h

theorem yields_below (r : Rule) : (below r).Yields s (Holds fun e => [.expr e]) :=
  fun u => (h r u).imp fun _ _ ⟨w, hw, hlies⟩ => ⟨w, hw, hlies.text, hlies.scattered⟩

theorem yields_dictEntry : (dictEntry below).Yields s (Holds fun (k, v) => [.expr k, .expr v]) := by
  intro u
  refine (h .test).bind fun key w hw => ?_
  refine (Proceeds.require rfl).bind fun t v ht => ?_
  obtain ⟨ht, rfl⟩ := ht
  rw [List.append_assoc]
  refine (h .test).bind fun value x hx => ?_
  refine .pure ⟨w ++ [t] ++ x, by simp, ?_, ?_⟩
  · exact List.forall_mem_append.mpr ⟨List.forall_mem_append.mpr ⟨hw.text, by simp [ht, Kind.isText]⟩, hx.text⟩
  · exact (hw.scattered.skip [t]).append hx.scattered

/-- Behind the first token of an atom come its parts, and its last token. -/
theorem yields_atomBody {t : Token} (ht : startsAtom t.kind = true) :
    (atomBody below t).Yields s fun e w =>
      (∀ x ∈ t :: w, x.kind.isText = true) ∧ Settled (t :: w) ∧ Scattered (e.operands.map .expr) w := by
  intro u
  have htext : t.kind.isText = true := isText_of_startsAtom ht
  have hcolon : t.kind ≠ .symbol .colon := by rintro hk; rw [hk] at ht; cases ht
  have hplain {e : Expr} (he : e.operands = []) : (pure e : Parse Expr).Proceeds s u fun e v => ∃ w, v = u ++ w ∧
      (∀ x ∈ t :: w, x.kind.isText = true) ∧ Settled (t :: w) ∧ Scattered (e.operands.map .expr) w :=
    .pure ⟨[], by simp, by simpa using htext, settled_token htext hcolon, by rw [he]; exact .nil⟩
  have hclosed {e : Expr} {v : List Token} {t' : Token} {b : Symbol} (ht' : t'.kind = .symbol b) (hb : b ≠ .colon)
      (hv : ∀ x ∈ v, x.kind.isText = true) (he : Scattered (e.operands.map .expr) v) :
      (pure e : Parse Expr).Proceeds s (u ++ (v ++ [t'])) fun e v => ∃ w, v = u ++ w ∧
        (∀ x ∈ t :: w, x.kind.isText = true) ∧ Settled (t :: w) ∧ Scattered (e.operands.map .expr) w := by
    have htext' : t'.kind.isText = true := by rw [ht']; rfl
    refine .pure ⟨v ++ [t'], rfl, ?_, ?_, he.skip [t']⟩
    · exact List.forall_mem_cons.mpr ⟨htext, List.forall_mem_append.mpr ⟨hv, by simpa using htext'⟩⟩
    · exact (settled_token htext' (by simpa [ht'] using hb)).append (t :: v)
  unfold atomBody
  split
  · exact hplain rfl
  · exact hplain rfl
  · exact hplain rfl
  · exact hplain rfl
  · refine (Proceeds.accept rfl).bind fun o v ho => ?_
    rcases ho with ⟨rfl, rfl⟩ | ⟨t', rfl, ht', rfl⟩
    · refine Yields.bind (yields_testlistOf (h .test)) fun e w hw => ?_
      refine (Proceeds.require rfl).bind fun t' v ht' => ?_
      obtain ⟨ht', rfl⟩ := ht'
      rw [List.append_assoc]
      exact hclosed ht' (by decide) hw.text hw.node.scattered
    · exact hclosed (v := []) ht' (by decide) (List.forall_mem_nil _) .nil
  · refine (yields_commaList (yields_below h .test)).bind fun items w hw => ?_
    obtain ⟨v, t', rfl, hv, ht'⟩ := hw
    refine hclosed ht' (by decide) hv.text ?_
    rw [List.map_eq_flatMap]
    exact hv.nodes
  · refine (yields_commaList (yields_dictEntry h)).bind fun entries w hw => ?_
    obtain ⟨v, t', rfl, hv, ht'⟩ := hw
    refine hclosed ht' (by decide) hv.text ?_
    have hentries : (Expr.dict t.span entries).operands.map Spanned.expr =
        entries.flatMap fun (k, v) => [.expr k, .expr v] := List.map_flatMap
    rw [hentries]
    exact hv.nodes

theorem yields_atom : (atom below).Yields s Lies := by
  refine Yields.within fun u => ?_
  refine (Proceeds.takeIf fun k => isText_of_startsAtom).bind fun o v ho => ?_
  rcases ho with ⟨rfl, rfl⟩ | ⟨t, rfl, ht, rfl⟩
  · exact .failWanting
  refine (yields_atomBody h ht).bind fun e w hw => ?_
  obtain ⟨htext, hsettled, hparts⟩ := hw
  rw [List.append_assoc]
  refine (Proceeds.spanTo ((leads_token (isText_of_startsAtom ht)).append w) hsettled).bind fun r v hr => ?_
  obtain ⟨hr, rfl⟩ := hr
  refine .pure ⟨t :: w, rfl, .of_operands htext ?_ ?_⟩
  · rwa [Expr.span_withSpan]
  · rw [Expr.operands_withSpan]
    exact hparts.after [t]

theorem yields_atomTrailers : (atomTrailers below).Yields s Lies := by
  intro u
  refine Yields.bind (yields_atom h) fun first w hw => ?_
  refine Proceeds.loop (R := fun e v => ∃ w, v = u ++ w ∧ Lies e w) ⟨w, rfl, hw⟩ ?_
  rintro owner _ ⟨w, rfl, hw⟩
  refine (Proceeds.accept rfl).bind fun o v ho => ?_
  rcases ho with ⟨rfl, rfl⟩ | ⟨t, rfl, ht, rfl⟩
  · refine (Proceeds.accept rfl).bind fun o v ho => ?_
    rcases ho with ⟨rfl, rfl⟩ | ⟨t, rfl, ht, rfl⟩
    · exact .pure ⟨w, rfl, hw⟩
    · refine Proceeds.requireName.bind fun r v hr => .known fun hu => ?_
      obtain ⟨name, span⟩ := r
      obtain ⟨t', ht', rfl, rfl⟩ := hr
      have hv : u ++ w ++ [t] ++ [t'] = u ++ (w ++ [t] ++ [t']) := by simp
      refine .pure ⟨⟨w ++ [t] ++ [t'], hv, hw.attribute ?_ ?_ (by simp [ht']) (hu.rest hv)⟩, by simp⟩
      · rw [ht]; rfl
      · rw [ht']; rfl
  · refine (yields_commaList (yields_below h .test)).bind fun args x hx => ?_
    obtain ⟨v, t', rfl, hv, ht'⟩ := hx
    have htext' : t'.kind.isText = true := by rw [ht']; rfl
    have hargs : Scattered (args.map .expr) v := by
      rw [List.map_eq_flatMap]
      exact hv.nodes
    have hassoc : u ++ w ++ [t] ++ (v ++ [t']) = u ++ (w ++ ([t] ++ v ++ [t'])) := by simp
    rw [hassoc]
    refine (Proceeds.spanTo (hw.ends.leads.append _) ?_).bind fun r v' hr => ?_
    · exact ((settled_token htext' (by simp [ht'])).append ([t] ++ v)).append w
    · obtain ⟨hr, rfl⟩ := hr
      exact .pure ⟨⟨_, rfl, hw.call (by rw [ht]; rfl) hv.text hargs htext' hr⟩, by simp⟩

theorem yields_power : (power below).Yields s Lies := by
  intro u
  refine Yields.bind (yields_atomTrailers h) fun base w hw => ?_
  refine (Proceeds.accept rfl).bind fun o v ho => ?_
  rcases ho with ⟨rfl, rfl⟩ | ⟨t, rfl, ht, rfl⟩
  · exact .pure ⟨w, rfl, hw⟩
  · refine (h .factor).bind fun e x hx => .known fun hu => ?_
    have hv : u ++ w ++ [t] ++ x = u ++ (w ++ [t] ++ x) := by simp
    exact .pure ⟨_, hv, hw.pair (by simp [ht, Kind.isText]) hx (hu.rest hv) rfl rfl⟩

theorem yields_factorBody : (factorBody below).Yields s Lies := by
  intro u
  refine Proceeds.bind (Proceeds.acceptMap (fun t b hb => ?_) fun t t' ht hnone => ?_) fun o v ho => ?_
  · obtain ⟨op, hop, -⟩ := Option.map_eq_some_iff.mp hb
    exact isText_of_signOp _ op hop
  · rw [ht, Option.map_eq_none_iff.mp hnone]
    rfl
  rcases ho with ⟨rfl, rfl⟩ | ⟨t, b, rfl, ht, rfl⟩
  · exact yields_power h _
  · obtain ⟨op, hop, rfl⟩ := Option.map_eq_some_iff.mp ht
    refine Yields.bind (h .factor).within fun e x hx => .known fun hu => ?_
    have hv : u ++ [t] ++ x = u ++ ([t] ++ x) := by simp
    exact .pure ⟨_, hv, hx.behind (isText_of_signOp _ op hop) (hu.rest hv) rfl rfl⟩

theorem yields_binary : (binary below).Yields s Lies := yields_binaryFrom (yields_factorBody h) binaryLevels

theorem yields_comparison : (comparison below).Yields s Lies := by
  intro u
  refine Yields.bind (yields_binary h) fun left w hw => ?_
  refine yields_comparisonOp.bind fun o x hx => ?_
  cases o with
  | none => exact .pure ⟨w, by simp [hx.1 rfl], hw⟩
  | some op =>
    refine Yields.bind (yields_binary h) fun right y hy => .known fun hu => ?_
    have hv : u ++ w ++ x ++ y = u ++ (w ++ x ++ y) := by simp
    exact .pure ⟨_, hv, hw.pair hx.2 hy (hu.rest hv) rfl rfl⟩

theorem yields_notTestBody : (notTestBody below).Yields s Lies := by
  intro u
  refine (Proceeds.accept rfl).bind fun o v ho => ?_
  rcases ho with ⟨rfl, rfl⟩ | ⟨t, rfl, ht, rfl⟩
  · exact yields_comparison h _
  · refine Yields.bind (h .notTest).within fun e x hx => .known fun hu => ?_
    have hv : u ++ [t] ++ x = u ++ ([t] ++ x) := by simp
    exact .pure ⟨_, hv, hx.behind (by rw [ht]; rfl) (hu.rest hv) rfl rfl⟩

theorem yields_orTest : (orTest below).Yields s Lies :=
  yields_boolChain (yields_boolChain (yields_notTestBody h) .andKw .and) .orKw .or

theorem yields_testBody : (testBody below).Yields s Lies := by
  intro u
  refine Yields.bind (yields_orTest h) fun body w hw => ?_
  refine (Proceeds.accept rfl).bind fun o v ho => ?_
  rcases ho with ⟨rfl, rfl⟩ | ⟨t, rfl, ht, rfl⟩
  · exact .pure ⟨w, rfl, hw⟩
  · refine Yields.bind (yields_orTest h) fun test x hx => ?_
    refine (Proceeds.require rfl).bind fun t' v ht' => ?_
    obtain ⟨ht', rfl⟩ := ht'
    refine (h .test).bind fun orelse y hy => .known fun hu => ?_
    have hv : u ++ w ++ [t] ++ x ++ [t'] ++ y = u ++ (w ++ ([t] ++ x ++ [t']) ++ y) := by simp
    have hmiddle : ∀ z ∈ [t] ++ x ++ [t'], z.kind.isText = true :=
      List.forall_mem_append.mpr
        ⟨List.forall_mem_append.mpr ⟨by simp [ht, Kind.isText], hx.text⟩, by simp [ht', Kind.isText]⟩
    refine .pure ⟨_, hv, .of_operands ?_ ((hw.ends.leads.append _).around hy.ends (hu.rest hv)) ?_⟩
    · exact List.forall_mem_append.mpr ⟨List.forall_mem_append.mpr ⟨hw.text, hmiddle⟩, hy.text⟩
    · exact (hw.scattered.append ((hx.scattered.after [t]).skip [t'])).append hy.scattered

theorem yields_rule (r : Rule) : (rule below r).Yields s Lies := by
  cases r with
  | test => exact yields_testBody h
  | notTest => exact yields_notTestBody h
  | factor => exact yields_factorBody h

end

theorem yields_storey (height : Nat) (r : Rule) : (storey height r).Yields s Lies := by
  induction height generalizing r with
  | zero => exact fun _ => .failUnexpected
  | succ height ih => exact yields_rule ih r

theorem yields_expr (r : Rule) : (expr r).Yields s Lies :=
  fun u => Proceeds.counted (f := fun n => storey (n + 1) r) fun n => yields_storey (n + 1) r u

theorem yields_test : test.Yields s Lies := Yields.within (yields_expr .test)

theorem yields_testlist : testlist.Yields s Lies := yields_testlistOf (yields_expr .test)

theorem yields_operation : operation.Yields s Lies := yields_binaryFrom (yields_expr .factor) binaryLevels

end Parse

end Offside
