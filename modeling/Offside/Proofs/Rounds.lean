import Offside.Proofs.StmtTokens

/-! # The rounds of a loop

Readers repeat steps at most as often as there are items left and once more. That bound is never what ends a loop: each
round of each loop in the grammar leaves the loop, by an answer or by an error, or it has taken a token. So a loop with
its bound does what it would do without one, and whatever a production answers, it has taken a token for it. -/

namespace Offside

/-! ### Further on -/

namespace Cursor

/-- The second cursor has taken at least one token more. -/
def FurtherOn (c d : Cursor) : Prop := ∃ taken : List Token, taken ≠ [] ∧ c.ahead = taken.map .ok ++ d.ahead

variable {c d : Cursor} {stream : List Item} {u w : List Token}

/-- Every cursor has some stream of which it has taken some tokens. -/
theorem exists_behind (c : Cursor) : ∃ stream u, c.Behind stream u := by
  cases h : c.last with
  | none => exact ⟨c.ahead, [], rfl, h⟩
  | some s => exact ⟨_, [{ kind := .newline, span := s }], rfl, h⟩

theorem Behind.ahead_eq (hc : c.Behind stream u) (hd : d.Behind stream (u ++ w)) : c.ahead = w.map .ok ++ d.ahead := by
  have hahead := hc.ahead.symm.trans hd.ahead
  rw [List.map_append, List.append_assoc] at hahead
  exact List.append_cancel_left hahead

theorem FurtherOn.remaining_lt (h : c.FurtherOn d) : d.remaining < c.remaining := by
  obtain ⟨taken, hne, hahead⟩ := h
  have hpos := List.length_pos_iff.mpr hne
  rw [c.remaining_eq, d.remaining_eq, hahead, List.length_append, List.length_map]
  omega

end Cursor

namespace Parse
variable {α β : Type}

/-- A reader that answers has taken at least one token for it. -/
def Progresses (p : Parse α) : Prop := ∀ ⦃c d : Cursor⦄ ⦃a : α⦄, p c = .ok a d → c.FurtherOn d

theorem Takes.exists_ahead {p : Parse α} {L : α → List Token → Prop} (h : p.Takes L) {c d : Cursor} {a : α}
    (hp : p c = .ok a d) : ∃ w, L a w ∧ c.ahead = w.map .ok ++ d.ahead := by
  obtain ⟨stream, u, hc⟩ := c.exists_behind
  obtain ⟨_, hd, w, rfl, hw⟩ := h stream u hc hp
  exact ⟨w, hw, hc.ahead_eq hd⟩

theorem Takes.progresses {p : Parse α} {L : α → List Token → Prop} (h : p.Takes L) (hne : ∀ a w, L a w → w ≠ []) :
    p.Progresses := by
  intro c d a hp
  obtain ⟨w, hw, hahead⟩ := h.exists_ahead hp
  exact ⟨w, hne a w hw, hahead⟩

/-! ### Loops without a bound -/

/-- How a loop comes out that no bound ends: each round leaves the loop, by an answer or by an error, or has taken a token
    when the next one begins. -/
inductive Rounds (step : α → Parse (ForInStep α)) : α → Cursor → EStateM.Result SyntaxError Cursor α → Prop
  | done {a b : α} {c d : Cursor} : step a c = .ok (.done b) d → Rounds step a c (.ok b d)
  | error {a : α} {c d : Cursor} {e : SyntaxError} : step a c = .error e d → Rounds step a c (.error e d)
  | next {a b : α} {c d : Cursor} {r : EStateM.Result SyntaxError Cursor α} : step a c = .ok (.yield b) d →
    c.FurtherOn d → Rounds step b d r → Rounds step a c r

/-- If a step goes on, it has taken tokens. -/
def Grows (r : ForInStep α) (w : List Token) : Prop := ∀ b, r = .yield b → w ≠ []

theorem Grows.done {b : α} {w : List Token} : Grows (.done b) w := nofun

theorem Grows.of_ne_nil {r : ForInStep α} {w : List Token} (h : w ≠ []) : Grows r w := fun _ _ => h

/-- Where a step that goes on takes tokens, the bound on the loop does not matter. -/
theorem rounds_loop {step : α → Parse (ForInStep α)} (hstep : ∀ a, (step a).Takes Grows) (a : α) (c : Cursor) :
    Rounds step a c (loop step a c) := by
  have hbounded : ∀ (bound : Nat) (a : α) (c : Cursor), c.remaining < bound →
      Rounds step a c (repeatUpTo step bound a c) := by
    intro bound
    induction bound with
    | zero => exact fun _ _ h => absurd h (Nat.not_lt_zero _)
    | succ bound ih =>
      intro a c hlt
      cases hs : step a c with
      | error e d =>
        rw [repeatUpTo, bind_error hs]
        exact .error hs
      | ok r d =>
        rw [repeatUpTo, bind_ok hs]
        cases r with
        | done b => exact .done hs
        | yield b =>
          obtain ⟨w, hgrows, hahead⟩ := (hstep a).exists_ahead hs
          have hfurther : c.FurtherOn d := ⟨w, hgrows b rfl, hahead⟩
          have hless := hfurther.remaining_lt
          exact .next hs hfurther (ih b d (by omega))
  exact hbounded (c.remaining + 1) a c (Nat.lt_succ_self _)

/-! ### The steps of the grammar -/

theorem walks_spanFrom {stream : List Item} {u : List Token} {start : Span} :
    (spanFrom start).Walks stream u fun _ v => v = u := by
  intro c d s hc h
  obtain ⟨-, rfl⟩ := EStateM.Result.ok.inj h
  exact ⟨u, hc, rfl⟩

section
variable {operand test : Parse Expr} {item : Parse α} {below : Rule → Parse Expr} {suite : Parse Block}

theorem grows_chainStep {L : Expr → List Token → Prop} (h : operand.Takes L) (node? : Kind → Option (Expr → Expr → Expr))
    (l : Expr) : (chainStep operand node? l).Takes Grows := by
  intro stream u
  refine Walks.acceptMap.bind fun o v ho => ?_
  rcases ho with ⟨rfl, rfl⟩ | ⟨t, node, rfl, -, rfl⟩
  · exact .pure ⟨[], by simp, .done⟩
  · exact h.bind fun r w _ => .pure ⟨t :: w, by simp, .of_ne_nil (List.cons_ne_nil t w)⟩

theorem grows_itemStep {L : α → List Token → Prop} (h : item.Takes L) (close : Symbol) (items : List α) :
    (itemStep item close items).Takes Grows := by
  intro stream u
  refine Walks.sees.bind fun b v hv => ?_
  subst hv
  refine .ite (.pure ⟨[], by simp, .done⟩) ?_
  refine h.bind fun a w _ => ?_
  refine (Walks.accept).bind fun o v ho => ?_
  rcases ho with ⟨rfl, rfl⟩ | ⟨t, rfl, -, rfl⟩
  · exact .pure ⟨w, rfl, .done⟩
  · exact .pure ⟨w ++ [t], by simp, .of_ne_nil (by simp)⟩

theorem grows_testStep {L : Expr → List Token → Prop} (h : test.Takes L) (items : List Expr) :
    (testStep test items).Takes Grows := by
  intro stream u
  refine (Walks.accept).bind fun o v ho => ?_
  rcases ho with ⟨rfl, rfl⟩ | ⟨t, rfl, -, rfl⟩
  · exact .pure ⟨[], by simp, .done⟩
  · refine Walks.seesExpr.bind fun b v hv => ?_
    subst hv
    refine .ite ?_ (.pure ⟨[t], rfl, .done⟩)
    exact Takes.bind h.within fun e w _ => .pure ⟨t :: w, by simp, .of_ne_nil (List.cons_ne_nil t w)⟩

theorem grows_trailerStep (h : ∀ r, (below r).Phrases) (owner : Expr) : (trailerStep below owner).Takes Grows := by
  intro stream u
  refine (Walks.accept).bind fun o v ho => ?_
  rcases ho with ⟨rfl, rfl⟩ | ⟨t, rfl, -, rfl⟩
  · refine (Walks.accept).bind fun o v ho => ?_
    rcases ho with ⟨rfl, rfl⟩ | ⟨t, rfl, -, rfl⟩
    · exact .pure ⟨[], by simp, .done⟩
    · refine Walks.requireName.bind fun r v hr => ?_
      obtain ⟨t', -, -, rfl⟩ := hr
      exact .pure ⟨[t, t'], by simp, .of_ne_nil (by simp)⟩
  · refine (takes_commaList (takes_below h .test)).bind fun args w _ => ?_
    refine walks_spanFrom.bind fun s v hv => ?_
    subst hv
    exact .pure ⟨t :: w, by simp, .of_ne_nil (List.cons_ne_nil t w)⟩

theorem grows_nameStep (names : List String) : (nameStep names).Takes Grows := by
  intro stream u
  refine (Walks.accept).bind fun o v ho => ?_
  rcases ho with ⟨rfl, rfl⟩ | ⟨t, rfl, -, rfl⟩
  · exact .pure ⟨[], by simp, .done⟩
  · refine Walks.requireName.bind fun r v hr => ?_
    obtain ⟨t', -, -, rfl⟩ := hr
    exact .pure ⟨[t, t'], by simp, .of_ne_nil (by simp)⟩

theorem grows_smallStep (stmts : List Stmt) : (smallStep stmts).Takes Grows := by
  intro stream u
  refine (Walks.accept).bind fun o v ho => ?_
  rcases ho with ⟨rfl, rfl⟩ | ⟨t, rfl, -, rfl⟩
  · exact .pure ⟨[], by simp, .done⟩
  · refine Walks.sees.bind fun b v hv => ?_
    subst hv
    refine .ite (.pure ⟨[t], rfl, .done⟩) ?_
    exact takes_smallStmt.bind fun s w _ => .pure ⟨t :: w, by simp, .of_ne_nil (List.cons_ne_nil t w)⟩

section
variable (h : suite.Takes fun b w => ∃ ss, b = .ofStmts ss ∧ Arranged .suite w ss)
include h

theorem grows_elifStep (branches : List (Expr × Block)) : (elifStep suite branches).Takes Grows := by
  intro stream u
  refine (Walks.accept).bind fun o v ho => ?_
  rcases ho with ⟨rfl, rfl⟩ | ⟨t, rfl, -, rfl⟩
  · exact .pure ⟨[], by simp, .done⟩
  · exact (takes_guarded h).bind fun r w _ => .pure ⟨t :: w, by simp, .of_ne_nil (List.cons_ne_nil t w)⟩

theorem grows_blockStep (stmts : List Stmt) : (blockStep suite stmts).Takes Grows := by
  intro stream u
  refine (Walks.accept).bind fun o v ho => ?_
  rcases ho with ⟨rfl, rfl⟩ | ⟨t, rfl, -, rfl⟩
  · exact (takes_statementOver h).bind fun ss w hw => .pure ⟨w, rfl, .of_ne_nil hw.ne_nil⟩
  · exact .pure ⟨[t], rfl, .done⟩

end

theorem takes_statement : statement.Takes fun ss w => Arranged .stmt w ss := takes_statementOver takes_suite

theorem grows_lineStep (stmts : List Stmt) : (lineStep stmts).Takes Grows := by
  intro stream u
  refine (Walks.accept).bind fun o v ho => ?_
  rcases ho with ⟨rfl, rfl⟩ | ⟨t, rfl, -, rfl⟩
  · refine Walks.sees.bind fun b v hv => ?_
    subst hv
    refine .ite (.pure ⟨[], by simp, .done⟩) ?_
    refine Walks.peek.bind fun o v hv => ?_
    subst hv
    refine .ite .failUnexpected ?_
    exact takes_statement.bind fun ss w hw => .pure ⟨w, rfl, .of_ne_nil hw.ne_nil⟩
  · exact .pure ⟨[t], rfl, .of_ne_nil (List.cons_ne_nil t [])⟩

end

/-! ### All loops -/

/-- The loops of the grammar, by what they gather. -/
inductive Repetition : Type → Type
  | disjunction : Repetition Expr
  | conjunction : Repetition Expr
  | binary (level : Fin binaryLevels.length) : Repetition Expr
  | trailers : Repetition Expr
  | arguments : Repetition (List Expr)
  | listItems : Repetition (List Expr)
  | entries : Repetition (List (Expr × Expr))
  | tests : Repetition (List Expr)
  | names : Repetition (List String)
  | smallStmts : Repetition (List Stmt)
  | branches : Repetition (List (Expr × Block))
  | block : Repetition (List Stmt)
  | lines : Repetition (List Stmt)

/-- One round of a loop. -/
def Repetition.step : Repetition α → α → Parse (ForInStep α)
  | .disjunction => chainStep (andTest expr) fun k => if k = .keyword .orKw then some (boolNode .or) else none
  | .conjunction => chainStep (notTestBody expr) fun k => if k = .keyword .andKw then some (boolNode .and) else none
  | .binary level => chainStep (binaryFrom (factorBody expr) (binaryLevels.drop (level + 1))) fun
    | .symbol s => (binaryLevels[level].lookup s).map binaryNode
    | _ => none
  | .trailers => trailerStep expr
  | .arguments => itemStep (expr .test) .rightParen
  | .listItems => itemStep (expr .test) .rightBracket
  | .entries => itemStep (dictEntry expr) .rightCurly
  | .tests => testStep (expr .test)
  | .names => nameStep
  | .smallStmts => smallStep
  | .branches => elifStep suite
  | .block => blockStep suite
  | .lines => lineStep

theorem Repetition.grows_step (l : Repetition α) (a : α) : (l.step a).Takes Grows := by
  cases l with
  | disjunction =>
    rw [step]
    exact grows_chainStep (phrases_boolChain (phrases_notTestBody phrases_expr) .andKw .and) _ a
  | conjunction =>
    rw [step]
    exact grows_chainStep (phrases_notTestBody phrases_expr) _ a
  | binary level =>
    rw [step]
    refine grows_chainStep (phrases_binaryFrom (phrases_factorBody phrases_expr) fun ops hops => ?_) _ a
    exact flat_binaryLevels ops (List.mem_of_mem_drop hops)
  | trailers => exact grows_trailerStep phrases_expr a
  | arguments => exact grows_itemStep (phrases_expr .test) _ a
  | listItems => exact grows_itemStep (phrases_expr .test) _ a
  | entries => exact grows_itemStep (takes_dictEntry phrases_expr) _ a
  | tests => exact grows_testStep (phrases_expr .test) a
  | names => exact grows_nameStep a
  | smallStmts => exact grows_smallStep a
  | branches => exact grows_elifStep takes_suite a
  | block => exact grows_blockStep takes_suite a
  | lines => exact grows_lineStep a

/-! ### Productions -/

theorem Phrases.progresses {p : Parse Expr} (h : p.Phrases) : p.Progresses :=
  Takes.progresses h fun _ _ hs => hs.starts.ne_nil

theorem progresses_statement : statement.Progresses := takes_statement.progresses fun _ _ h => h.ne_nil

theorem progresses_suite : suite.Progresses := by
  refine takes_suite.progresses fun b w hw => ?_
  obtain ⟨ss, -, hw⟩ := hw
  cases hw <;> simp

theorem progresses_module : module.Progresses := takes_module.progresses fun _ _ ⟨v, t, hw, _⟩ => by simp [hw]

end Parse

end Offside
